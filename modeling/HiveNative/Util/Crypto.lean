import Mathlib

/-!
# SHA-256 and RIPEMD-160

The two hash functions of `src/util/crypto.cpp`, word for word: the compression
functions with their tables, the loop over the whole blocks of the message, and
the one or two tail blocks that carry the padding and the bit length.

Bytes are `UInt8` and words `UInt32`, so every sum is taken modulo `2^32` as in
the source.  A block is a list of 64 bytes.  An array access of the source is
`getD _ 0` here; the index is below the length at every call.
-/

namespace HiveNative

/-- A byte string: `std::vector<uint8_t>` and `std::string` alike. -/
abbrev Bytes := List UInt8

/-- `std::array<uint8_t, 32>`. -/
abbrev Sha256T := Vector UInt8 32

/-- `std::array<uint8_t, 20>`. -/
abbrev Ripemd160T := Vector UInt8 20

/-- The loop over the whole blocks of a message.  `n` is the number of blocks
left, which the source recomputes as `len - offset >= 64`.  The result is the
chaining value and the bytes after the last whole block. -/
def absorbBlocks {σ : Type} (compress : σ → Bytes → σ) : Nat → σ → Bytes → σ × Bytes
  | 0, h, data => (h, data)
  | n + 1, h, data => absorbBlocks compress n (compress h (data.take 64)) (data.drop 64)

/-- The tail block: the remaining bytes, `0x80` and zeros up to 64 bytes. -/
def tailBlock (rest : Bytes) : Bytes :=
  rest ++ 0x80 :: List.replicate (63 - rest.length) 0

/-- Overwrite the last eight bytes of a block. -/
def putLength (block : Bytes) (len : Bytes) : Bytes := block.take 56 ++ len

/-- The eight bytes of a word, least significant first. -/
def bytesLE64 (w : UInt64) : Bytes :=
  (List.range 8).map fun i => (w >>> UInt64.ofNat (8 * i)).toUInt8

/-! ## SHA-256 -/

/-- Rotation to the right. -/
def rotr (x n : UInt32) : UInt32 := (x >>> n) ||| (x <<< (32 - n))

/-- The round constants. -/
def sha256K : List UInt32 :=
  [0x428a2f98, 0x71374491, 0xb5c0fbcf, 0xe9b5dba5, 0x3956c25b, 0x59f111f1, 0x923f82a4, 0xab1c5ed5,
   0xd807aa98, 0x12835b01, 0x243185be, 0x550c7dc3, 0x72be5d74, 0x80deb1fe, 0x9bdc06a7, 0xc19bf174,
   0xe49b69c1, 0xefbe4786, 0x0fc19dc6, 0x240ca1cc, 0x2de92c6f, 0x4a7484aa, 0x5cb0a9dc, 0x76f988da,
   0x983e5152, 0xa831c66d, 0xb00327c8, 0xbf597fc7, 0xc6e00bf3, 0xd5a79147, 0x06ca6351, 0x14292967,
   0x27b70a85, 0x2e1b2138, 0x4d2c6dfc, 0x53380d13, 0x650a7354, 0x766a0abb, 0x81c2c92e, 0x92722c85,
   0xa2bfe8a1, 0xa81a664b, 0xc24b8b70, 0xc76c51a3, 0xd192e819, 0xd6990624, 0xf40e3585, 0x106aa070,
   0x19a4c116, 0x1e376c08, 0x2748774c, 0x34b0bcb5, 0x391c0cb3, 0x4ed8aa4a, 0x5b9cca4f, 0x682e6ff3,
   0x748f82ee, 0x78a5636f, 0x84c87814, 0x8cc70208, 0x90befffa, 0xa4506ceb, 0xbef9a3f7, 0xc67178f2]

/-- The eight working words of SHA-256. -/
structure Sha256State where
  a : UInt32
  b : UInt32
  c : UInt32
  d : UInt32
  e : UInt32
  f : UInt32
  g : UInt32
  h : UInt32
deriving Repr, DecidableEq

/-- The `i`-th big-endian word of a block. -/
def wordBE (block : Bytes) (i : Nat) : UInt32 :=
  ((block.getD (i * 4) 0).toUInt32 <<< 24) ||| ((block.getD (i * 4 + 1) 0).toUInt32 <<< 16) |||
    ((block.getD (i * 4 + 2) 0).toUInt32 <<< 8) ||| (block.getD (i * 4 + 3) 0).toUInt32

/-- One step of the message schedule: the word `W[i]` from the words before it. -/
def sha256ScheduleStep (W : Array UInt32) (i : Nat) : Array UInt32 :=
  let w15 := W.getD (i - 15) 0
  let w2 := W.getD (i - 2) 0
  let s0 := rotr w15 7 ^^^ rotr w15 18 ^^^ (w15 >>> 3)
  let s1 := rotr w2 17 ^^^ rotr w2 19 ^^^ (w2 >>> 10)
  W.push (W.getD (i - 16) 0 + s0 + W.getD (i - 7) 0 + s1)

/-- The 64 words of the message schedule of a block. -/
def sha256Schedule (block : Bytes) : Array UInt32 :=
  (List.range' 16 48).foldl sha256ScheduleStep ((Array.range 16).map (wordBE block))

/-- One round, with its constant and its schedule word. -/
def sha256Round (s : Sha256State) (k w : UInt32) : Sha256State :=
  let S1 := rotr s.e 6 ^^^ rotr s.e 11 ^^^ rotr s.e 25
  let ch := (s.e &&& s.f) ^^^ ((~~~ s.e) &&& s.g)
  let t1 := s.h + S1 + ch + k + w
  let S0 := rotr s.a 2 ^^^ rotr s.a 13 ^^^ rotr s.a 22
  let maj := (s.a &&& s.b) ^^^ (s.a &&& s.c) ^^^ (s.b &&& s.c)
  let t2 := S0 + maj
  { h := s.g, g := s.f, f := s.e, e := s.d + t1, d := s.c, c := s.b, b := s.a, a := t1 + t2 }

/-- `sha256_transform`. -/
def sha256Transform (state : Sha256State) (block : Bytes) : Sha256State :=
  let W := sha256Schedule block
  let s := (List.range 64).foldl (fun s i => sha256Round s (sha256K.getD i 0) (W.getD i 0)) state
  { a := state.a + s.a, b := state.b + s.b, c := state.c + s.c, d := state.d + s.d,
    e := state.e + s.e, f := state.f + s.f, g := state.g + s.g, h := state.h + s.h }

/-- The initial state. -/
def sha256Init : Sha256State :=
  { a := 0x6a09e667, b := 0xbb67ae85, c := 0x3c6ef372, d := 0xa54ff53a,
    e := 0x510e527f, f := 0x9b05688c, g := 0x1f83d9ab, h := 0x5be0cd19 }

/-- The four bytes of a word, most significant first. -/
def bytesBE32 (w : UInt32) : Vector UInt8 4 :=
  #v[(w >>> 24).toUInt8, (w >>> 16).toUInt8, (w >>> 8).toUInt8, w.toUInt8]

/-- `sha256`. -/
def sha256 (data : Bytes) : Sha256T :=
  let (state, rest) := absorbBlocks sha256Transform (data.length / 64) sha256Init data
  let block := tailBlock rest
  -- With 56 or more bytes left the length does not fit, and the tail takes a
  -- second block, zeroed before the length is written.
  let (state, block) :=
    if rest.length ≥ 56 then (sha256Transform state block, List.replicate 64 0)
    else (state, block)
  let bitlen := UInt64.ofNat data.length * 8
  let s := sha256Transform state (putLength block (bytesLE64 bitlen).reverse)
  bytesBE32 s.a ++ bytesBE32 s.b ++ bytesBE32 s.c ++ bytesBE32 s.d ++
    bytesBE32 s.e ++ bytesBE32 s.f ++ bytesBE32 s.g ++ bytesBE32 s.h

/-! ## RIPEMD-160 -/

/-- Rotation to the left. -/
def rol (x n : UInt32) : UInt32 := (x <<< n) ||| (x >>> (32 - n))

/-- The word order of the left line. -/
def ripemd160R1 : List Nat :=
  [0, 1, 2, 3, 4, 5, 6, 7, 8, 9, 10, 11, 12, 13, 14, 15,
   7, 4, 13, 1, 10, 6, 15, 3, 12, 0, 9, 5, 2, 14, 11, 8,
   3, 10, 14, 4, 9, 15, 8, 1, 2, 7, 0, 6, 13, 11, 5, 12,
   1, 9, 11, 10, 0, 8, 12, 4, 13, 3, 7, 15, 14, 5, 6, 2,
   4, 0, 5, 9, 7, 12, 2, 10, 14, 1, 3, 8, 11, 6, 15, 13]

/-- The word order of the right line. -/
def ripemd160R2 : List Nat :=
  [5, 14, 7, 0, 9, 2, 11, 4, 13, 6, 15, 8, 1, 10, 3, 12,
   6, 11, 3, 7, 0, 13, 5, 10, 14, 15, 8, 12, 4, 9, 1, 2,
   15, 5, 1, 3, 7, 14, 6, 9, 11, 8, 12, 2, 10, 0, 4, 13,
   8, 6, 4, 1, 3, 11, 15, 0, 5, 12, 2, 13, 9, 7, 10, 14,
   12, 15, 10, 4, 1, 5, 8, 7, 6, 2, 13, 14, 0, 3, 9, 11]

/-- The rotations of the left line. -/
def ripemd160S1 : List UInt32 :=
  [11, 14, 15, 12, 5, 8, 7, 9, 11, 13, 14, 15, 6, 7, 9, 8,
   7, 6, 8, 13, 11, 9, 7, 15, 7, 12, 15, 9, 11, 7, 13, 12,
   11, 13, 6, 7, 14, 9, 13, 15, 14, 8, 13, 6, 5, 12, 7, 5,
   11, 12, 14, 15, 14, 15, 9, 8, 9, 14, 5, 6, 8, 6, 5, 12,
   9, 15, 5, 11, 6, 8, 13, 12, 5, 12, 13, 14, 11, 8, 5, 6]

/-- The rotations of the right line. -/
def ripemd160S2 : List UInt32 :=
  [8, 9, 9, 11, 13, 15, 15, 5, 7, 7, 8, 11, 14, 14, 12, 6,
   9, 13, 15, 7, 12, 8, 9, 11, 7, 7, 12, 7, 6, 15, 13, 11,
   9, 7, 15, 11, 8, 6, 6, 14, 12, 13, 5, 14, 13, 13, 7, 5,
   15, 5, 8, 11, 14, 14, 6, 14, 6, 9, 12, 9, 12, 5, 15, 8,
   8, 5, 12, 9, 12, 5, 14, 6, 8, 13, 6, 5, 15, 13, 11, 11]

/-- The constants of the left line, one per 16 steps. -/
def ripemd160K1 : List UInt32 := [0, 0x5a827999, 0x6ed9eba1, 0x8f1bbcdc, 0xa953fd4e]

/-- The constants of the right line. -/
def ripemd160K2 : List UInt32 := [0x50a28be6, 0x5c4dd124, 0x6d703ef3, 0x7a6d76e9, 0]

/-- The round function of step `j`. -/
def ripemd160F (j : Nat) (x y z : UInt32) : UInt32 :=
  if j < 16 then x ^^^ y ^^^ z
  else if j < 32 then (x &&& y) ||| (~~~ x &&& z)
  else if j < 48 then (x ||| ~~~ y) ^^^ z
  else if j < 64 then (x &&& z) ||| (y &&& ~~~ z)
  else x ^^^ (y ||| ~~~ z)

/-- The five words of RIPEMD-160: the chaining value and each of the two lines. -/
structure Ripemd160State where
  a : UInt32
  b : UInt32
  c : UInt32
  d : UInt32
  e : UInt32
deriving Repr, DecidableEq

/-- The `i`-th little-endian word of a block. -/
def wordLE (block : Bytes) (i : Nat) : UInt32 :=
  (block.getD (i * 4) 0).toUInt32 ||| ((block.getD (i * 4 + 1) 0).toUInt32 <<< 8) |||
    ((block.getD (i * 4 + 2) 0).toUInt32 <<< 16) ||| ((block.getD (i * 4 + 3) 0).toUInt32 <<< 24)

/-- One step of one line: `f` is the value of the round function. -/
def ripemd160Step (l : Ripemd160State) (f x k s : UInt32) : Ripemd160State :=
  let t := rol (l.a + f + x + k) s + l.e
  { a := l.e, e := l.d, d := rol l.c 10, c := l.b, b := t }

/-- The step `j` of both lines. -/
def ripemd160Steps (block : Bytes) (p : Ripemd160State × Ripemd160State) (j : Nat) :
    Ripemd160State × Ripemd160State :=
  let (l, r) := p
  (ripemd160Step l (ripemd160F j l.b l.c l.d) (wordLE block (ripemd160R1.getD j 0))
      (ripemd160K1.getD (j / 16) 0) (ripemd160S1.getD j 0),
   ripemd160Step r (ripemd160F (79 - j) r.b r.c r.d) (wordLE block (ripemd160R2.getD j 0))
      (ripemd160K2.getD (j / 16) 0) (ripemd160S2.getD j 0))

/-- `ripemd160_compress`. -/
def ripemd160Compress (h : Ripemd160State) (block : Bytes) : Ripemd160State :=
  let (l, r) := (List.range 80).foldl (ripemd160Steps block) (h, h)
  { a := h.b + l.c + r.d
    b := h.c + l.d + r.e
    c := h.d + l.e + r.a
    d := h.e + l.a + r.b
    e := h.a + l.b + r.c }

/-- The initial chaining value. -/
def ripemd160Init : Ripemd160State :=
  { a := 0x67452301, b := 0xefcdab89, c := 0x98badcfe, d := 0x10325476, e := 0xc3d2e1f0 }

/-- The four bytes of a word, least significant first. -/
def bytesLE32 (w : UInt32) : Vector UInt8 4 :=
  #v[w.toUInt8, (w >>> 8).toUInt8, (w >>> 16).toUInt8, (w >>> 24).toUInt8]

/-- `ripemd160`. -/
def ripemd160 (data : Bytes) : Ripemd160T :=
  let (h, rest) := absorbBlocks ripemd160Compress (data.length / 64) ripemd160Init data
  let block := tailBlock rest
  let (h, block) :=
    if rest.length ≥ 56 then (ripemd160Compress h block, List.replicate 64 0)
    else (h, block)
  let bitlen := UInt64.ofNat data.length * 8
  let h := ripemd160Compress h (putLength block (bytesLE64 bitlen))
  bytesLE32 h.a ++ bytesLE32 h.b ++ bytesLE32 h.c ++ bytesLE32 h.d ++ bytesLE32 h.e

end HiveNative
