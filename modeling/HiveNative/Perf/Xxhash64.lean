import HiveNative.Util.Crypto

/-!
# xxHash64

`perf/xxhash64.hpp`.  Words are `UInt64`, so sums and products are taken modulo
`2^64`.  The cursor `p` of the source is the list of the bytes from `p` to `end`,
and `std::memcpy` into a word reads its first bytes, least significant first as
on a little-endian host.

The loops carry a bound on their rounds, and the number of bytes is one.
-/

namespace HiveNative.Perf

def rotl64 (x r : UInt64) : UInt64 := (x <<< r) ||| (x >>> (64 - r))

def prime1 : UInt64 := 11400714785074694791
def prime2 : UInt64 := 14029467366897019727
def prime3 : UInt64 := 1609587929392839161
def prime4 : UInt64 := 9650029242287828579
def prime5 : UInt64 := 2870177450012600261

/-- A word of `n` bytes, least significant first. -/
def readWord (n : ℕ) (p : Bytes) : UInt64 :=
  (p.take n).foldr (fun b w => (w <<< 8) ||| b.toUInt64) 0

/-- `round` -/
def xxRound (acc input : UInt64) : UInt64 := rotl64 (acc + input * prime2) 31 * prime1

/-- `merge` -/
def xxMerge (acc v : UInt64) : UInt64 := (acc ^^^ rotl64 (v * prime2) 31 * prime1) * prime1 + prime4

/-- The four accumulators. -/
structure Lanes where
  v1 : UInt64
  v2 : UInt64
  v3 : UInt64
  v4 : UInt64
deriving Repr, DecidableEq

def Lanes.start (seed : UInt64) : Lanes :=
  ⟨seed + prime1 + prime2, seed + prime2, seed + 0, seed - prime1⟩

/-- The body of the loop over the stripes of 32 bytes. -/
def Lanes.stripe (v : Lanes) (p : Bytes) : Lanes :=
  ⟨xxRound v.v1 (readWord 8 p), xxRound v.v2 (readWord 8 (p.drop 8)),
    xxRound v.v3 (readWord 8 (p.drop 16)), xxRound v.v4 (readWord 8 (p.drop 24))⟩

/-- `do ... while(p <= limit)`, where `limit` is 32 bytes before the end. -/
def stripeLoop : ℕ → Lanes → Bytes → Lanes × Bytes
  | 0, v, p => (v, p)
  | rounds + 1, v, p =>
      let v := v.stripe p
      let p := p.drop 32
      if 32 ≤ p.length then stripeLoop rounds v p else (v, p)

def Lanes.merged (v : Lanes) : UInt64 :=
  let h := rotl64 v.v1 1 + rotl64 v.v2 7 + rotl64 v.v3 12 + rotl64 v.v4 18
  xxMerge (xxMerge (xxMerge (xxMerge h v.v1) v.v2) v.v3) v.v4

/-- `while(p + 8 <= end)` -/
def wordLoop : ℕ → UInt64 → Bytes → UInt64 × Bytes
  | 0, h, p => (h, p)
  | rounds + 1, h, p =>
      if 8 ≤ p.length then
        let k := rotl64 (readWord 8 p * prime2) 31 * prime1
        wordLoop rounds (rotl64 (h ^^^ k) 27 * prime1 + prime4) (p.drop 8)
      else (h, p)

/-- `if(p + 4 <= end)` -/
def halfWord (h : UInt64) (p : Bytes) : UInt64 × Bytes :=
  if 4 ≤ p.length then
    (rotl64 (h ^^^ readWord 4 p * prime1) 23 * prime2 + prime3, p.drop 4)
  else (h, p)

/-- `while(p < end)` -/
def byteLoop (h : UInt64) (p : Bytes) : UInt64 :=
  p.foldl (fun h b => rotl64 (h ^^^ b.toUInt64 * prime5) 11 * prime1) h

def avalanche (h : UInt64) : UInt64 :=
  let h := h ^^^ (h >>> 33)
  let h := h * prime2
  let h := h ^^^ (h >>> 29)
  let h := h * prime3
  h ^^^ (h >>> 32)

def xxhash64 (data : Bytes) (seed : UInt64) : UInt64 :=
  let (h, p) :=
    if 32 ≤ data.length then
      let (v, p) := stripeLoop data.length (.start seed) data
      (v.merged, p)
    else (seed + prime5, data)
  let h := h + UInt64.ofNat data.length
  let (h, p) := wordLoop p.length h p
  let (h, p) := halfWord h p
  avalanche (byteLoop h p)

example : xxhash64 [] 0 = 0xef46db3751d8e999 := by decide +kernel

end HiveNative.Perf
