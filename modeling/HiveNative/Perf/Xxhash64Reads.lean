import HiveNative.Lib.Octets
import HiveNative.Lib.Xxh64
import HiveNative.Perf.Xxhash64

/-!
# What xxHash64 reads and computes

`xxhash64` computes XXH64 as it is published (`toBitVec_xxhash64`).  Its loops are
folds over the blocks of the input: 32 bytes at a time, then 8, then 4, then one.

The second half looks at the cursor.  There `xxhash64` is written over an offset into
the data, compared with the offsets of `limit` and `end` as the source compares the
pointers, and a log of the offsets of the bytes read.  A read that reaches behind the
data has no result, nor has a loop that runs out of rounds.  The log ends as the list
of all offsets in order.
-/

namespace HiveNative.Perf

open MerkleDamgard

/-! ## Words -/

/-- At most eight bytes, put together by shifts, are the number that they write. -/
theorem toNat_foldr_bytes {l : Bytes} (h : l.length ≤ 8) :
    (l.foldr (fun (b : UInt8) (w : UInt64) => (w <<< 8) ||| b.toUInt64) 0).toNat =
      Nat.ofDigits 256 (l.map UInt8.toNat) := by
  induction l with
  | nil => rfl
  | cons b l ih =>
      rw [List.length_cons] at h
      have hlt : Nat.ofDigits 256 (l.map UInt8.toNat) < 256 ^ (l.map UInt8.toNat).length := by
        refine Nat.ofDigits_lt_base_pow_length (by decide) fun d hd => ?_
        obtain ⟨x, -, rfl⟩ := List.mem_map.mp hd
        exact x.toNat_lt
      have hpow : 256 ^ (l.map UInt8.toNat).length ≤ 256 ^ 7 := by
        rw [List.length_map]
        exact Nat.pow_le_pow_right (by decide) (by omega)
      have hshift : (8 : UInt64).toNat % 64 = 8 := rfl
      rw [List.foldr_cons, UInt64.toNat_or, UInt64.toNat_shiftLeft, hshift, ih (by omega),
        UInt8.toNat_toUInt64, List.map_cons, Nat.ofDigits_cons, Nat.shiftLeft_eq, Nat.mod_eq_of_lt,
        ← Nat.shiftLeft_eq, ← Nat.shiftLeft_add_eq_or_of_lt b.toNat_lt, Nat.shiftLeft_eq,
        Nat.mul_comm, Nat.add_comm]
      omega

/-- A word of at most eight bytes is the number that they write. -/
theorem toNat_readWord {n : ℕ} (hn : n ≤ 8) (p : Bytes) :
    (readWord n p).toNat = Nat.ofDigits 256 ((p.take n).map UInt8.toNat) := by
  refine toNat_foldr_bytes ?_
  rw [List.length_take]
  omega

theorem toBitVec_readWord {n : ℕ} (hn : n ≤ 8) (p : Bytes) :
    (readWord n p).toBitVec = Xxh64.lane (p.take n) := by
  apply BitVec.eq_of_toNat_eq
  rw [UInt64.toNat_toBitVec, Xxh64.lane, BitVec.toNat_ofNat, ← toNat_readWord hn,
    Nat.mod_eq_of_lt (readWord n p).toNat_lt]

theorem readWord_take {n m : ℕ} (h : n ≤ m) (p : Bytes) : readWord n (p.take m) = readWord n p := by
  rw [readWord, readWord, List.take_take, Nat.min_eq_left h]

theorem toBitVec_rotl64 (x r : UInt64) (h : r.toNat < 64) (hpos : 0 < r.toNat) :
    (rotl64 x r).toBitVec = x.toBitVec.rotateLeft r.toNat :=
  Octets.toBitVec_rotateLeft64 x r h hpos

theorem toBitVec_xxRound (acc input : UInt64) :
    (xxRound acc input).toBitVec = Xxh64.round acc.toBitVec input.toBitVec := by
  rw [xxRound, UInt64.toBitVec_mul, toBitVec_rotl64 _ 31 (by decide) (by decide),
    UInt64.toBitVec_add, UInt64.toBitVec_mul]
  rfl

/-- The source writes the round on a zero accumulator out. -/
theorem xxRound_zero (v : UInt64) : rotl64 (v * prime2) 31 * prime1 = xxRound 0 v := by
  rw [xxRound, UInt64.zero_add]

theorem toBitVec_xxMerge (acc v : UInt64) :
    (xxMerge acc v).toBitVec = Xxh64.merge acc.toBitVec v.toBitVec := by
  rw [xxMerge, xxRound_zero, UInt64.toBitVec_add, UInt64.toBitVec_mul, UInt64.toBitVec_xor,
    toBitVec_xxRound]
  rfl

/-! ## The loops as folds -/

/-- The four accumulators of the specification. -/
def Lanes.words (v : Lanes) : Xxh64.Accumulators :=
  ⟨v.v1.toBitVec, v.v2.toBitVec, v.v3.toBitVec, v.v4.toBitVec⟩

theorem toBitVec_prime1 : prime1.toBitVec = Xxh64.prime1 := rfl
theorem toBitVec_prime2 : prime2.toBitVec = Xxh64.prime2 := rfl
theorem toBitVec_prime3 : prime3.toBitVec = Xxh64.prime3 := rfl
theorem toBitVec_prime5 : prime5.toBitVec = Xxh64.prime5 := rfl

theorem words_start (seed : UInt64) : (Lanes.start seed).words = Xxh64.start seed.toBitVec := by
  simp only [Lanes.words, Lanes.start, UInt64.toBitVec_add, UInt64.toBitVec_sub, UInt64.add_zero,
    toBitVec_prime1, toBitVec_prime2, Xxh64.start]

theorem stripe_take (v : Lanes) (p : Bytes) : v.stripe (p.take 32) = v.stripe p := by
  rw [Lanes.stripe, Lanes.stripe, List.drop_take, List.drop_take, List.drop_take,
    readWord_take (by decide), readWord_take (by decide), readWord_take (by decide),
    readWord_take (by decide)]

theorem words_stripe (v : Lanes) (p : Bytes) : (v.stripe p).words = Xxh64.absorb v.words p := by
  simp only [Lanes.words, Lanes.stripe, toBitVec_xxRound, toBitVec_readWord (Nat.le_refl 8),
    Xxh64.absorb]

theorem toBitVec_merged (v : Lanes) : v.merged.toBitVec = Xxh64.converge v.words := by
  simp only [Lanes.merged, toBitVec_xxMerge, UInt64.toBitVec_add,
    toBitVec_rotl64 _ 1 (by decide) (by decide), toBitVec_rotl64 _ 7 (by decide) (by decide),
    toBitVec_rotl64 _ 12 (by decide) (by decide), toBitVec_rotl64 _ 18 (by decide) (by decide),
    Xxh64.converge, Lanes.words, List.foldl_cons, List.foldl_nil]
  rfl

theorem stripeLoop_eq {rounds : ℕ} {v : Lanes} {p : Bytes} (h : 32 ≤ p.length)
    (hr : p.length ≤ rounds) :
    stripeLoop rounds v p = ((split 32 p).foldl Lanes.stripe v, leftover 32 p) := by
  induction rounds generalizing v p with
  | zero => omega
  | succ rounds ih =>
      obtain ⟨hsplit, hleft⟩ := split_of_le (by decide : 0 < 32) h
      have hlen : (p.drop 32).length = p.length - 32 := List.length_drop
      rw [hsplit, hleft, List.foldl_cons, stripe_take, stripeLoop]
      by_cases hnext : 32 ≤ (p.drop 32).length
      · rw [if_pos hnext]
        exact ih hnext (by omega)
      · obtain ⟨hsplit', hleft'⟩ := split_of_lt (Nat.not_le.mp hnext)
        rw [if_neg hnext, hsplit', hleft']
        rfl

/-- One round of the loop over words. -/
def wordStep (h : UInt64) (p : Bytes) : UInt64 :=
  rotl64 (h ^^^ rotl64 (readWord 8 p * prime2) 31 * prime1) 27 * prime1 + prime4

theorem wordStep_take (h : UInt64) (p : Bytes) : wordStep h (p.take 8) = wordStep h p := by
  rw [wordStep, wordStep, readWord_take le_rfl]

/-- The branch for half a word. -/
def halfStep (h : UInt64) (p : Bytes) : UInt64 :=
  rotl64 (h ^^^ readWord 4 p * prime1) 23 * prime2 + prime3

theorem halfStep_take (h : UInt64) (p : Bytes) : halfStep h (p.take 4) = halfStep h p := by
  rw [halfStep, halfStep, readWord_take le_rfl]

/-- One round of the loop over bytes. -/
def byteStep (h : UInt64) (b : UInt8) : UInt64 := rotl64 (h ^^^ b.toUInt64 * prime5) 11 * prime1

theorem wordLoop_eq {rounds : ℕ} {h : UInt64} {p : Bytes} (hr : p.length ≤ rounds) :
    wordLoop rounds h p = ((split 8 p).foldl wordStep h, leftover 8 p) := by
  induction rounds generalizing h p with
  | zero =>
      have hshort : p.length < 8 := by omega
      obtain ⟨hsplit, hleft⟩ := split_of_lt hshort
      rw [hsplit, hleft]
      rfl
  | succ rounds ih =>
      rw [wordLoop]
      by_cases hnext : 8 ≤ p.length
      · obtain ⟨hsplit, hleft⟩ := split_of_le (by decide : 0 < 8) hnext
        have hlen : (p.drop 8).length = p.length - 8 := List.length_drop
        rw [if_pos hnext, hsplit, hleft, List.foldl_cons, wordStep_take]
        exact ih (by omega)
      · obtain ⟨hsplit, hleft⟩ := split_of_lt (Nat.not_le.mp hnext)
        rw [if_neg hnext, hsplit, hleft]
        rfl

theorem halfWord_eq (h : UInt64) {p : Bytes} (hp : p.length < 8) :
    halfWord h p = ((split 4 p).foldl halfStep h, leftover 4 p) := by
  rw [halfWord]
  by_cases hnext : 4 ≤ p.length
  · obtain ⟨hsplit, hleft⟩ := split_of_le (by decide : 0 < 4) hnext
    have hlen : (p.drop 4).length = p.length - 4 := List.length_drop
    have hshort : (p.drop 4).length < 4 := by omega
    obtain ⟨hsplit', hleft'⟩ := split_of_lt hshort
    rw [if_pos hnext, hsplit, hleft, hsplit', hleft', List.foldl_cons, halfStep_take]
    rfl
  · obtain ⟨hsplit, hleft⟩ := split_of_lt (Nat.not_le.mp hnext)
    rw [if_neg hnext, hsplit, hleft]
    rfl

/-! ## The published function -/

theorem toBitVec_wordStep (h : UInt64) {p : Bytes} (hp : p.length = 8) :
    (wordStep h p).toBitVec = Xxh64.eight h.toBitVec p := by
  rw [wordStep, xxRound_zero, UInt64.toBitVec_add, UInt64.toBitVec_mul,
    toBitVec_rotl64 _ 27 (by decide) (by decide), UInt64.toBitVec_xor, toBitVec_xxRound,
    toBitVec_readWord le_rfl, List.take_of_length_le hp.le]
  rfl

theorem toBitVec_halfStep (h : UInt64) {p : Bytes} (hp : p.length = 4) :
    (halfStep h p).toBitVec = Xxh64.four h.toBitVec p := by
  rw [halfStep, UInt64.toBitVec_add, UInt64.toBitVec_mul,
    toBitVec_rotl64 _ 23 (by decide) (by decide), UInt64.toBitVec_xor, UInt64.toBitVec_mul,
    toBitVec_readWord (by decide), List.take_of_length_le hp.le]
  rfl

theorem toBitVec_byteStep (h : UInt64) (b : UInt8) :
    (byteStep h b).toBitVec = Xxh64.one h.toBitVec b := by
  have hb : b.toUInt64.toBitVec = Xxh64.lane [b] := by
    rw [UInt8.toBitVec_toUInt64, Xxh64.lane, List.map_singleton, Nat.ofDigits_singleton]
    exact (BitVec.ofNat_toNat 64 b.toBitVec).symm
  rw [byteStep, UInt64.toBitVec_mul, toBitVec_rotl64 _ 11 (by decide) (by decide),
    UInt64.toBitVec_xor, UInt64.toBitVec_mul, hb]
  rfl

theorem toBitVec_avalanche (h : UInt64) : (avalanche h).toBitVec = Xxh64.avalanche h.toBitVec := by
  simp only [avalanche, Xxh64.avalanche, UInt64.toBitVec_xor, UInt64.toBitVec_mul,
    UInt64.toBitVec_shiftRight, toBitVec_prime2, toBitVec_prime3]
  rfl

theorem toBitVec_foldl {α : Type} {f : UInt64 → α → UInt64} {g : Xxh64.Word → α → Xxh64.Word}
    (h : UInt64) {l : List α} (hstep : ∀ a ∈ l, ∀ c, (f c a).toBitVec = g c.toBitVec a) :
    (l.foldl f h).toBitVec = l.foldl g h.toBitVec := by
  refine List.foldl_rel (r := fun (x : UInt64) (y : Xxh64.Word) => x.toBitVec = y) rfl
    fun a ha c c' hc => ?_
  rw [hstep a ha c, hc]

/-- The accumulator behind the stripes. -/
def stripes (data : Bytes) (seed : UInt64) : UInt64 :=
  if data.length < 32 then seed + prime5
  else ((split 32 data).foldl Lanes.stripe (.start seed)).merged

/-- What the tail loops make of the accumulator. -/
def consume (h : UInt64) (p : Bytes) : UInt64 :=
  (leftover 4 (leftover 8 p)).foldl byteStep
    ((split 4 (leftover 8 p)).foldl halfStep ((split 8 p).foldl wordStep h))

theorem xxhash64_eq (data : Bytes) (seed : UInt64) :
    xxhash64 data seed =
      avalanche (consume (stripes data seed + UInt64.ofNat data.length) (leftover 32 data)) := by
  have htail : ∀ (h : UInt64) (p : Bytes), avalanche (byteLoop
      (halfWord (wordLoop p.length h p).1 (wordLoop p.length h p).2).1
      (halfWord (wordLoop p.length h p).1 (wordLoop p.length h p).2).2) =
        avalanche (consume h p) := by
    intro h p
    rw [wordLoop_eq le_rfl, halfWord_eq _ (length_leftover (by decide) p)]
    rfl
  rw [stripes]
  by_cases hlen : data.length < 32
  · rw [if_pos hlen, (split_of_lt hlen).2, ← htail, xxhash64, if_neg (Nat.not_le.mpr hlen)]
  · rw [if_neg hlen, ← htail, xxhash64, if_pos (Nat.not_lt.mp hlen),
      stripeLoop_eq (Nat.not_lt.mp hlen) le_rfl]

theorem toBitVec_stripes (data : Bytes) (seed : UInt64) :
    (stripes data seed).toBitVec = Xxh64.stripes seed.toBitVec data := by
  rw [stripes, Xxh64.stripes]
  split
  · rw [UInt64.toBitVec_add, toBitVec_prime5]
  · rw [toBitVec_merged, ← words_start]
    refine congrArg Xxh64.converge (List.foldl_hom Lanes.words fun v b => ?_).symm
    exact (words_stripe v b).symm

theorem toBitVec_consume (h : UInt64) (p : Bytes) :
    (consume h p).toBitVec = Xxh64.consume h.toBitVec p := by
  rw [consume, toBitVec_foldl _ fun b _ c => toBitVec_byteStep c b,
    toBitVec_foldl _ fun b hb c => toBitVec_halfStep c (length_of_mem_split hb),
    toBitVec_foldl _ fun b hb c => toBitVec_wordStep c (length_of_mem_split hb)]
  rfl

/-- `xxhash64` is XXH64. -/
theorem toBitVec_xxhash64 (data : Bytes) (seed : UInt64) :
    (xxhash64 data seed).toBitVec = Xxh64.xxh64 seed.toBitVec data := by
  rw [xxhash64_eq, toBitVec_avalanche, toBitVec_consume, UInt64.toBitVec_add, toBitVec_stripes]
  rfl

/-! ## The cursor -/

namespace Reading

/-- The offset of the cursor `p` of the source, and the offsets of the bytes read so
far. -/
structure Cursor where
  p : ℕ
  reads : List ℕ
deriving Repr, DecidableEq

/-- Every byte before the offset was read once, in order. -/
def Cursor.upTo (n : ℕ) : Cursor := ⟨n, List.range n⟩

abbrev Reader := StateT Cursor Option

/-- Neither a read behind the data nor a loop without rounds left has a result. -/
def stuck {α : Type} : Reader α := fun _ => none

section Program

variable (data : Bytes)

/-- `*p++` -/
def byte : Reader UInt8 := fun c =>
  data[c.p]?.map fun b => (b, { p := c.p + 1, reads := c.reads ++ [c.p] })

/-- The bytes that `std::memcpy` copies. -/
def bytes : ℕ → Reader Bytes
  | 0 => pure []
  | n + 1 => do
      let b ← byte data
      let bs ← bytes n
      return b :: bs

/-- `std::memcpy(&k, p, n); p += n;` -/
def word (n : ℕ) : Reader UInt64 := do
  let bs ← bytes data n
  return readWord n bs

/-- The body of the loop over the stripes. -/
def stripe (v : Lanes) : Reader Lanes := do
  let i1 ← word data 8
  let i2 ← word data 8
  let i3 ← word data 8
  let i4 ← word data 8
  return ⟨xxRound v.v1 i1, xxRound v.v2 i2, xxRound v.v3 i3, xxRound v.v4 i4⟩

/-- `do ... while(p <= limit)` -/
def stripeLoop (limit : ℕ) : ℕ → Lanes → Reader Lanes
  | 0, _ => stuck
  | rounds + 1, v => do
      let v ← stripe data v
      if (← get).p ≤ limit then stripeLoop limit rounds v else return v

/-- `while(p + 8 <= end)` -/
def wordLoop : ℕ → UInt64 → Reader UInt64
  | 0, _ => stuck
  | rounds + 1, h => do
      if (← get).p + 8 ≤ data.length then
        let k ← word data 8
        let k := rotl64 (k * prime2) 31 * prime1
        wordLoop rounds (rotl64 (h ^^^ k) 27 * prime1 + prime4)
      else return h

/-- `if(p + 4 <= end)` -/
def halfWord (h : UInt64) : Reader UInt64 := do
  if (← get).p + 4 ≤ data.length then
    let k ← word data 4
    return rotl64 (h ^^^ k * prime1) 23 * prime2 + prime3
  else return h

/-- `while(p < end)` -/
def byteLoop : ℕ → UInt64 → Reader UInt64
  | 0, _ => stuck
  | rounds + 1, h => do
      if (← get).p < data.length then
        let b ← byte data
        byteLoop rounds (rotl64 (h ^^^ b.toUInt64 * prime5) 11 * prime1)
      else return h

/-- `if(len >= 32)`, with `limit` 32 bytes before the end. -/
def head (seed : UInt64) : Reader UInt64 :=
  if 32 ≤ data.length then do
    let v ← stripeLoop data (data.length - 32) data.length (.start seed)
    return v.merged
  else return seed + prime5

/-- What follows the addition of the length. -/
def tail (h : UInt64) : Reader UInt64 := do
  let h ← wordLoop data (data.length + 1) h
  let h ← halfWord data h
  let h ← byteLoop data (data.length + 1) h
  return avalanche h

/-- `xxhash64`, over a cursor. -/
def xxhash64 (seed : UInt64) : Reader UInt64 := do
  let h ← head data seed
  tail data (h + UInt64.ofNat data.length)

end Program

/-! ## What is read -/

/-- The reader, started when exactly the bytes before `p` were read, gives `a` and
leaves the bytes `rest` to be read. -/
def Yields {α : Type} (data : Bytes) (r : Reader α) (p : ℕ) (a : α) (rest : Bytes) : Prop :=
  ∃ q ≤ data.length, r (.upTo p) = some (a, .upTo q) ∧ data.drop q = rest

variable {data : Bytes}

theorem bind_of_some {α β : Type} {x : Reader α} {f : α → Reader β} {c c' : Cursor} {a : α}
    (h : x c = some (a, c')) : (x >>= f) c = f a c' := by
  show (x c >>= fun ac => f ac.1 ac.2) = f a c'
  rw [h]
  rfl

theorem get_bind {β : Type} (f : Cursor → Reader β) (c : Cursor) : (get >>= f) c = f c c := rfl

theorem byte_upTo {p : ℕ} (h : p < data.length) :
    byte data (.upTo p) = some (data[p], .upTo (p + 1)) := by
  show data[p]?.map _ = _
  rw [List.getElem?_eq_getElem h]
  show some (data[p], (⟨p + 1, List.range p ++ [p]⟩ : Cursor)) = _
  rw [← List.range_succ]
  rfl

theorem bytes_upTo {n p : ℕ} (h : p + n ≤ data.length) :
    bytes data n (.upTo p) = some ((data.drop p).take n, .upTo (p + n)) := by
  induction n generalizing p with
  | zero => rfl
  | succ n ih =>
      have hlt : p < data.length := by omega
      have hnext : p + 1 + n = p + (n + 1) := by omega
      rw [bytes, bind_of_some (byte_upTo hlt), bind_of_some (ih (by omega)),
        List.drop_eq_getElem_cons hlt, List.take_succ_cons, hnext]
      rfl

theorem word_upTo {n p : ℕ} (h : p + n ≤ data.length) :
    word data n (.upTo p) = some (readWord n (data.drop p), .upTo (p + n)) := by
  rw [word, bind_of_some (bytes_upTo h), readWord_take le_rfl]
  rfl

theorem stripe_upTo (v : Lanes) {p : ℕ} (h : p + 32 ≤ data.length) :
    stripe data v (.upTo p) = some (v.stripe (data.drop p), .upTo (p + 32)) := by
  rw [stripe, bind_of_some (word_upTo (by omega)), bind_of_some (word_upTo (by omega)),
    bind_of_some (word_upTo (by omega)), bind_of_some (word_upTo (by omega)), Lanes.stripe,
    List.drop_drop, List.drop_drop, List.drop_drop]
  rfl

/-- A block of `n` bytes is there exactly if the cursor may move on by `n`. -/
theorem le_length_drop {n p : ℕ} (hp : p ≤ data.length) :
    n ≤ (data.drop p).length ↔ p + n ≤ data.length := by
  rw [List.length_drop]
  omega

theorem stripeLoop_yields (rounds : ℕ) {p : ℕ} (v : Lanes) (h : p + 32 ≤ data.length)
    (hr : data.length - p ≤ rounds) :
    Yields data (stripeLoop data (data.length - 32) rounds v) p
      ((split 32 (data.drop p)).foldl Lanes.stripe v) (leftover 32 (data.drop p)) := by
  induction rounds generalizing v p with
  | zero => omega
  | succ rounds ih =>
      obtain ⟨hsplit, hleft⟩ :=
        split_of_le (by decide : 0 < 32) ((le_length_drop (by omega)).mpr h)
      have hcond : (Cursor.upTo (p + 32)).p ≤ data.length - 32 ↔ p + 32 + 32 ≤ data.length := by
        show p + 32 ≤ _ ↔ _
        omega
      rw [Yields, stripeLoop, bind_of_some (stripe_upTo v h), get_bind, hsplit, hleft,
        List.foldl_cons, stripe_take, List.drop_drop]
      by_cases hnext : p + 32 + 32 ≤ data.length
      · rw [if_pos (hcond.mpr hnext)]
        exact ih _ hnext (by omega)
      · have hshort : (data.drop (p + 32)).length < 32 := by
          rw [List.length_drop]
          omega
        obtain ⟨hsplit', hleft'⟩ := split_of_lt hshort
        rw [if_neg fun hle => hnext (hcond.mp hle), hsplit', hleft']
        exact ⟨p + 32, h, rfl, rfl⟩

theorem wordLoop_yields (rounds : ℕ) {p : ℕ} (h : UInt64) (hp : p ≤ data.length)
    (hr : data.length - p < rounds) :
    Yields data (wordLoop data rounds h) p ((split 8 (data.drop p)).foldl wordStep h)
      (leftover 8 (data.drop p)) := by
  induction rounds generalizing h p with
  | zero => omega
  | succ rounds ih =>
      rw [Yields, wordLoop, get_bind]
      by_cases hnext : p + 8 ≤ data.length
      · obtain ⟨hsplit, hleft⟩ :=
          split_of_le (by decide : 0 < 8) ((le_length_drop hp).mpr hnext)
        rw [if_pos (show (Cursor.upTo p).p + 8 ≤ _ from hnext), bind_of_some (word_upTo hnext),
          hsplit, hleft, List.foldl_cons, wordStep_take, List.drop_drop]
        exact ih _ hnext (by omega)
      · obtain ⟨hsplit, hleft⟩ :=
          split_of_lt (Nat.not_le.mp fun hle => hnext ((le_length_drop hp).mp hle))
        rw [if_neg (show ¬ (Cursor.upTo p).p + 8 ≤ _ from hnext), hsplit, hleft]
        exact ⟨p, hp, rfl, rfl⟩

theorem halfWord_yields {p : ℕ} (h : UInt64) (hp : p ≤ data.length)
    (hshort : data.length - p < 8) :
    Yields data (halfWord data h) p ((split 4 (data.drop p)).foldl halfStep h)
      (leftover 4 (data.drop p)) := by
  rw [Yields, halfWord, get_bind]
  by_cases hnext : p + 4 ≤ data.length
  · obtain ⟨hsplit, hleft⟩ := split_of_le (by decide : 0 < 4) ((le_length_drop hp).mpr hnext)
    have hshort' : (data.drop (p + 4)).length < 4 := by
      rw [List.length_drop]
      omega
    obtain ⟨hsplit', hleft'⟩ := split_of_lt hshort'
    rw [if_pos (show (Cursor.upTo p).p + 4 ≤ _ from hnext), bind_of_some (word_upTo hnext), hsplit,
      hleft, List.foldl_cons, halfStep_take, List.drop_drop, hsplit', hleft']
    exact ⟨p + 4, hnext, rfl, rfl⟩
  · obtain ⟨hsplit, hleft⟩ :=
      split_of_lt (Nat.not_le.mp fun hle => hnext ((le_length_drop hp).mp hle))
    rw [if_neg (show ¬ (Cursor.upTo p).p + 4 ≤ _ from hnext), hsplit, hleft]
    exact ⟨p, hp, rfl, rfl⟩

theorem byteLoop_yields (rounds : ℕ) {p : ℕ} (h : UInt64) (hp : p ≤ data.length)
    (hr : data.length - p < rounds) :
    Yields data (byteLoop data rounds h) p ((data.drop p).foldl byteStep h) [] := by
  induction rounds generalizing h p with
  | zero => omega
  | succ rounds ih =>
      rw [Yields, byteLoop, get_bind]
      by_cases hnext : p < data.length
      · rw [if_pos (show (Cursor.upTo p).p < _ from hnext), bind_of_some (byte_upTo hnext),
          List.drop_eq_getElem_cons hnext, List.foldl_cons]
        exact ih _ hnext (by omega)
      · have hnil : data.drop p = [] := List.drop_eq_nil_of_le (Nat.not_lt.mp hnext)
        rw [if_neg (show ¬ (Cursor.upTo p).p < _ from hnext), hnil]
        exact ⟨p, hp, rfl, hnil⟩

theorem head_yields (data : Bytes) (seed : UInt64) :
    Yields data (head data seed) 0 (stripes data seed) (leftover 32 data) := by
  rw [Yields, head, stripes]
  by_cases hlen : data.length < 32
  · rw [if_pos hlen, if_neg (Nat.not_le.mpr hlen), (split_of_lt hlen).2]
    exact ⟨0, Nat.zero_le _, rfl, rfl⟩
  · have hstart : 0 + 32 ≤ data.length := by omega
    obtain ⟨q, hq, hloop, hrest⟩ :=
      stripeLoop_yields data.length (.start seed) hstart (Nat.sub_le _ _)
    rw [if_neg hlen, if_pos (Nat.not_lt.mp hlen), bind_of_some hloop]
    exact ⟨q, hq, rfl, hrest⟩

theorem tail_yields {p : ℕ} (h : UInt64) (hp : p ≤ data.length) :
    Yields data (tail data h) p (avalanche (consume h (data.drop p))) [] := by
  obtain ⟨q, hq, hwords, hrest⟩ := wordLoop_yields (data.length + 1) h hp (by omega)
  have hshort : data.length - q < 8 := by
    rw [← List.length_drop, hrest]
    exact length_leftover (by decide) _
  rw [Yields, tail, bind_of_some hwords, consume, ← hrest]
  obtain ⟨q', hq', hhalf, hrest'⟩ := halfWord_yields
    ((split 8 (data.drop p)).foldl wordStep h) hq hshort
  rw [bind_of_some hhalf, ← hrest']
  obtain ⟨q'', hq'', hbytes, hrest''⟩ := byteLoop_yields (data.length + 1)
    ((split 4 (data.drop q)).foldl halfStep ((split 8 (data.drop p)).foldl wordStep h)) hq'
    (by omega)
  rw [bind_of_some hbytes]
  exact ⟨q'', hq'', rfl, hrest''⟩

theorem xxhash64_yields (data : Bytes) (seed : UInt64) :
    Yields data (xxhash64 data seed) 0 (Perf.xxhash64 data seed) [] := by
  obtain ⟨q, hq, hhead, hrest⟩ := head_yields data seed
  rw [Yields, xxhash64, bind_of_some hhead, xxhash64_eq, ← hrest]
  exact tail_yields _ hq

end Reading

/-- `xxhash64` is XXH64: it reads the bytes of the input in order, each once and none
behind them, and returns the published function of them. -/
theorem xxhash64_reads_and_computes (data : Bytes) (seed : UInt64) :
    ∃ h, Reading.xxhash64 data seed { p := 0, reads := [] } =
        some (h, { p := data.length, reads := List.range data.length }) ∧
      h = xxhash64 data seed ∧ h.toBitVec = Xxh64.xxh64 seed.toBitVec data := by
  obtain ⟨q, hq, hrun, hrest⟩ := Reading.xxhash64_yields data seed
  have hend : q = data.length := by
    have hlen := congrArg List.length hrest
    rw [List.length_drop, List.length_nil] at hlen
    omega
  subst hend
  exact ⟨_, hrun, rfl, toBitVec_xxhash64 data seed⟩

end HiveNative.Perf
