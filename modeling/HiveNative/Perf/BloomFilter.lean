import HiveNative.Util.Types
import HiveNative.Lib.PackedBits

/-!
# The Bloom filter

`bloom_filter` of `perf/bloom.hpp`.  The bits are packed into the words of `data`,
and a key has one bit for each round, the hash of the key under the seed of the
round modulo the number of bits.  The hash function is a parameter; the source
uses `xxhash64`.

An index outside `data` has no defined result in the source, and none here.
`Sized` says that there is none, because the filter has a word for each of its
bits.  That holds of a new filter as long as `bits + 63` does not wrap around.
-/

namespace HiveNative.Perf

open PackedBits

structure BloomFilter where
  bits : UInt64
  hashes : UInt64
  data : List UInt64
deriving Repr, DecidableEq

namespace BloomFilter

/-- The constructor. -/
def new (bits : UInt64 := (1 : UInt64) <<< 20) (hashes : UInt64 := 4) : BloomFilter :=
  let bits := if bits < 64 then 64 else bits
  { bits := bits
    hashes := if hashes < 1 then 1 else hashes
    data := List.replicate ((bits + 63) / 64).toNat 0 }

def clear (f : BloomFilter) : BloomFilter := { f with data := f.data.map fun _ => 0 }

def bitSize (f : BloomFilter) : UInt64 := f.bits

/-- The seed of a round. -/
def seed (i : UInt64) : UInt64 := 0x9e3779b97f4a7c15 + i * 0x100000001b3

section Hash

variable (hash : Bytes → UInt64 → UInt64)

/-- `size_t(h % bits_)` of the round `i` -/
def position (f : BloomFilter) (key : Bytes) (i : ℕ) : UInt64 :=
  hash key (seed (UInt64.ofNat i)) % f.bits

/-- The bits of the rounds `i < hashes_`. -/
def positions (f : BloomFilter) (key : Bytes) : List UInt64 :=
  (List.range f.hashes.toNat).map (f.position hash key)

def add (f : BloomFilter) (key : Bytes) : Option BloomFilter :=
  (markAll f.data (f.positions hash key)).map fun data => { f with data := data }

def maybeContains (f : BloomFilter) (key : Bytes) : Option Bool :=
  allMarked f.data (f.positions hash key)

end Hash

/-! ## Sized filters -/

/-- There are a round and a bit, and a word for each bit. -/
structure Sized (f : BloomFilter) : Prop where
  rounds_pos : 0 < f.hashes.toNat
  bits_pos : 0 < f.bits.toNat
  bits_le : f.bits.toNat ≤ f.data.length * 64

/-- A filter with the rounds, the bits and the number of words of another one. -/
structure SameShape (f f' : BloomFilter) : Prop where
  bits_eq : f'.bits = f.bits
  hashes_eq : f'.hashes = f.hashes
  length_eq : f'.data.length = f.data.length

variable {f f' : BloomFilter} {hash : Bytes → UInt64 → UInt64}

theorem sized_new {bits : UInt64} (h : bits.toNat ≤ 2 ^ 64 - 64) (hashes : UInt64) :
    Sized (new bits hashes) := by
  have wide : ∀ b : UInt64, 64 ≤ b.toNat → b.toNat ≤ 2 ^ 64 - 64 →
      b.toNat ≤ (List.replicate ((b + 63) / 64).toNat (0 : UInt64)).length * 64 := by
    intro b _ hb
    have hsum : (b + 63).toNat = b.toNat + 63 := by
      rw [UInt64.toNat_add]
      exact Nat.mod_eq_of_lt (show b.toNat + 63 < 2 ^ 64 by omega)
    rw [List.length_replicate, UInt64.toNat_div, hsum]
    show b.toNat ≤ (b.toNat + 63) / 64 * 64
    omega
  have hrounds : 0 < (if hashes < 1 then (1 : UInt64) else hashes).toNat := by
    split
    · decide
    · next hge => exact Nat.not_lt.mp hge
  by_cases hlt : bits < 64
  · refine ⟨hrounds, ?_, ?_⟩
    · simp only [new, if_pos hlt]
      decide
    · simp only [new, if_pos hlt]
      exact wide 64 (by decide) (by decide)
  · have hge : 64 ≤ bits.toNat := Nat.not_lt.mp hlt
    refine ⟨hrounds, ?_, ?_⟩
    · simp only [new, if_neg hlt]
      omega
    · simp only [new, if_neg hlt]
      exact wide bits hge h

theorem SameShape.sized (h : SameShape f f') (hs : Sized f) : Sized f' := by
  refine ⟨?_, ?_, ?_⟩
  · rw [h.hashes_eq]
    exact hs.rounds_pos
  · rw [h.bits_eq]
    exact hs.bits_pos
  · rw [h.bits_eq, h.length_eq]
    exact hs.bits_le

/-- The bits of a key are those of the same key in a filter of the same shape. -/
theorem SameShape.positions_eq (h : SameShape f f') (key : Bytes) :
    f'.positions hash key = f.positions hash key := by
  have hpos : f'.position hash key = f.position hash key := by
    funext i
    rw [position, position, h.bits_eq]
  rw [positions, positions, h.hashes_eq, hpos]

/-- Every bit of every key is in a word of the filter. -/
theorem Sized.inRange (h : Sized f) (hash : Bytes → UInt64 → UInt64) (key : Bytes) :
    ∀ bit ∈ f.positions hash key, InRange f.data bit := by
  intro bit hbit
  obtain ⟨i, -, rfl⟩ := List.mem_map.mp hbit
  have hlt : (f.position hash key i).toNat < f.bits.toNat := by
    rw [position, UInt64.toNat_mod]
    exact Nat.mod_lt _ h.bits_pos
  have hle := h.bits_le
  rw [InRange, wordIndex_eq]
  omega

theorem sameShape_clear (f : BloomFilter) : SameShape f f.clear :=
  ⟨rfl, rfl, List.length_map _⟩

theorem not_marked_clear (f : BloomFilter) (n : ℕ) : ¬ Marked f.clear.data n := by
  rw [clear, List.map_const']
  exact not_marked_zero _ n

/-! ## Added keys -/

theorem Sized.add_spec (h : Sized f) (hash : Bytes → UInt64 → UInt64) (key : Bytes) :
    ∃ f', f.add hash key = some f' ∧ SameShape f f' ∧
      ∀ n, Marked f'.data n ↔ (∃ bit ∈ f.positions hash key, n = bit.toNat) ∨ Marked f.data n := by
  obtain ⟨data, hall, hlen, hmarked⟩ := markAll_spec (h.inRange hash key)
  exact ⟨{ f with data := data }, by rw [add, hall]; rfl, ⟨rfl, rfl, hlen⟩, hmarked⟩

theorem Sized.maybeContains_spec (h : Sized f) (hash : Bytes → UInt64 → UInt64) (key : Bytes) :
    ∃ b, f.maybeContains hash key = some b ∧
      (b = true ↔ ∀ bit ∈ f.positions hash key, Marked f.data bit.toNat) :=
  allMarked_eq (h.inRange hash key)

/-- Every key of a list has all its bits set, and every bit that is set is one of a
key of the list. -/
def Holds (hash : Bytes → UInt64 → UInt64) (f : BloomFilter) (keys : List Bytes) : Prop :=
  ∀ n, Marked f.data n ↔ ∃ key ∈ keys, ∃ bit ∈ f.positions hash key, n = bit.toNat

theorem holds_of_unmarked (h : ∀ n, ¬ Marked f.data n) : Holds hash f [] := by
  intro n
  refine iff_of_false (h n) ?_
  simp

theorem Holds.add {keys : List Bytes} {key : Bytes} (h : Holds hash f keys)
    (hshape : SameShape f f')
    (hmarked : ∀ n, Marked f'.data n ↔
      (∃ bit ∈ f.positions hash key, n = bit.toNat) ∨ Marked f.data n) :
    Holds hash f' (key :: keys) := by
  intro n
  rw [hmarked n, h n]
  simp only [hshape.positions_eq, List.mem_cons, exists_eq_or_imp]

/-- No false negatives. -/
theorem Holds.maybeContains {keys : List Bytes} {key : Bytes} (h : Holds hash f keys)
    (hs : Sized f) (hk : key ∈ keys) : f.maybeContains hash key = some true := by
  obtain ⟨b, hb, hiff⟩ := hs.maybeContains_spec hash key
  rw [hb, hiff.mpr fun bit hbit => (h bit.toNat).mpr ⟨key, hk, bit, hbit, rfl⟩]

/-- A filter with no bit set has no key. -/
theorem Sized.maybeContains_unmarked (h : Sized f) (hash : Bytes → UInt64 → UInt64)
    (hu : ∀ n, ¬ Marked f.data n) (key : Bytes) : f.maybeContains hash key = some false := by
  obtain ⟨b, hb, hiff⟩ := h.maybeContains_spec hash key
  have hfirst : f.position hash key 0 ∈ f.positions hash key :=
    List.mem_map.mpr ⟨0, List.mem_range.mpr h.rounds_pos, rfl⟩
  cases b with
  | false => exact hb
  | true => exact absurd (hiff.mp rfl _ hfirst) (hu _)

end BloomFilter

end HiveNative.Perf
