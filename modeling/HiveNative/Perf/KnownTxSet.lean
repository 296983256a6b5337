import HiveNative.Lib.Machine
import HiveNative.Lib.OrderedMap
import HiveNative.Perf.BloomFilter
import HiveNative.Perf.Xxhash64

/-!
# The set of known transactions

`known_tx_set` of `perf/known_tx_set.hpp`: a Bloom filter in front of an exact set.
The filter is written only when the exact set reports a new id.

`Knows` relates a set to the ids added since the last `clear`, newest first.  The
exact set has these ids, and the bits set in the filter are theirs.  Both
operations keep it, and every query is answered from it.
-/

namespace HiveNative.Perf

open Std (ExtTreeSet)
open PackedBits OrderedMap

structure KnownTxSet where
  bloom : BloomFilter
  exact : ExtTreeSet Bytes := ∅

namespace KnownTxSet

/-- The constructor. -/
def new (bloomBits : UInt64 := (1 : UInt64) <<< 20) (bloomHashes : UInt64 := 4) : KnownTxSet :=
  { bloom := .new bloomBits bloomHashes }

/-- Insert an id into both layers.  The result is true for a new one. -/
def add (hash : Bytes → UInt64 → UInt64) (s : KnownTxSet) (txid : Bytes) :
    Option (Bool × KnownTxSet) :=
  if s.exact.contains txid then some (false, s)
  else
    (s.bloom.add hash txid).map fun bloom =>
      (true, { bloom := bloom, exact := s.exact.insert txid })

def maybeSeen (hash : Bytes → UInt64 → UInt64) (s : KnownTxSet) (txid : Bytes) : Option Bool :=
  s.bloom.maybeContains hash txid

def definitelySeen (s : KnownTxSet) (txid : Bytes) : Bool := s.exact.contains txid

def clear (s : KnownTxSet) : KnownTxSet := { bloom := s.bloom.clear, exact := ∅ }

def size (s : KnownTxSet) : ℕ := s.exact.size

def bloomBitSize (s : KnownTxSet) : UInt64 := s.bloom.bitSize

/-! ## Runs -/

/-- The operations that change a set. -/
inductive Op where
  | add (txid : Bytes)
  | clear
deriving Repr, DecidableEq

/-- What an operation answers. -/
inductive Answer where
  | added (inserted : Bool)
  | cleared
deriving Repr, DecidableEq

/-- An operation on a set.  There is no answer when it reaches outside the words of
the filter. -/
def exec (hash : Bytes → UInt64 → UInt64) (op : Op) (s : KnownTxSet) :
    Option Answer × KnownTxSet :=
  match op with
  | .add txid =>
      match s.add hash txid with
      | some (inserted, s') => (some (.added inserted), s')
      | none => (none, s)
  | .clear => (some .cleared, s.clear)

/-- The set after a sequence of operations, listed newest first. -/
abbrev after (hash : Bytes → UInt64 → UInt64) (bloomBits bloomHashes : UInt64)
    (ops : List Op) : KnownTxSet :=
  Machine.final (exec hash) (new bloomBits bloomHashes) ops

/-- The ids added since the last `clear`, newest first. -/
def addedSince : List Op → List Bytes
  | [] => []
  | .add txid :: past => txid :: addedSince past
  | .clear :: _ => []

/-! ## The ids of a set -/

/-- The set is that of the given ids. -/
structure Knows (hash : Bytes → UInt64 → UInt64) (s : KnownTxSet) (ids : List Bytes) : Prop where
  sized : s.bloom.Sized
  holds : s.bloom.Holds hash ids
  mem_exact : ∀ t, t ∈ s.exact ↔ t ∈ ids
  size_eq : s.exact.size = ids.toFinset.card

variable {hash : Bytes → UInt64 → UInt64} {s : KnownTxSet} {ids : List Bytes}

theorem knows_new {bloomBits : UInt64} (h : bloomBits.toNat ≤ 2 ^ 64 - 64) (bloomHashes : UInt64) :
    Knows hash (new bloomBits bloomHashes) [] := by
  refine ⟨BloomFilter.sized_new h bloomHashes, ?_, fun t => ?_, ExtTreeSet.size_empty⟩
  · exact BloomFilter.holds_of_unmarked (not_marked_zero _)
  · exact iff_of_false ExtTreeSet.not_mem_empty List.not_mem_nil

theorem Knows.definitelySeen_iff (h : Knows hash s ids) (t : Bytes) :
    s.definitelySeen t = true ↔ t ∈ ids := by
  rw [definitelySeen, ExtTreeSet.contains_iff_mem, h.mem_exact]

/-- An id that is already there changes nothing, also when it is listed again. -/
theorem Knows.again (h : Knows hash s ids) {t : Bytes} (ht : t ∈ ids) :
    Knows hash s (t :: ids) := by
  refine ⟨h.sized, fun n => ?_, fun x => ?_, ?_⟩
  · rw [h.holds n]
    simp only [List.mem_cons, exists_eq_or_imp]
    exact ⟨Or.inr, fun hor => hor.elim (fun hb => ⟨t, ht, hb⟩) id⟩
  · rw [h.mem_exact, List.mem_cons]
    exact ⟨Or.inr, fun hor => hor.elim (fun hx => hx ▸ ht) id⟩
  · rw [h.size_eq, List.toFinset_cons, Finset.insert_eq_of_mem (List.mem_toFinset.mpr ht)]

theorem Knows.add_spec (h : Knows hash s ids) (t : Bytes) :
    ∃ s', s.add hash t = some (!s.definitelySeen t, s') ∧ Knows hash s' (t :: ids) := by
  cases hc : s.definitelySeen t with
  | true =>
      refine ⟨s, ?_, h.again ((h.definitelySeen_iff t).mp hc)⟩
      rw [definitelySeen] at hc
      rw [add, if_pos hc]
      rfl
  | false =>
      obtain ⟨bloom, hadd, hshape, hmarked⟩ := h.sized.add_spec hash t
      have hnew : t ∉ ids := by
        intro hmem
        rw [(h.definitelySeen_iff t).mpr hmem] at hc
        cases hc
      have habsent : ¬ s.exact.contains t = true := Bool.eq_false_iff.mp hc
      refine ⟨⟨bloom, s.exact.insert t⟩, ?_, hshape.sized h.sized, h.holds.add hshape hmarked,
        fun x => ?_, ?_⟩
      · rw [add, if_neg habsent, hadd]
        rfl
      · rw [ExtTreeSet.mem_insert, Std.compare_eq_iff_eq, h.mem_exact, List.mem_cons, eq_comm]
      · have hcard : (insert t ids.toFinset).card = ids.toFinset.card + 1 :=
          Finset.card_insert_of_notMem fun hmem => hnew (List.mem_toFinset.mp hmem)
        rw [ExtTreeSet.size_insert, if_neg habsent, h.size_eq, List.toFinset_cons, hcard]

theorem Knows.clear (h : Knows hash s ids) : Knows hash s.clear [] := by
  refine ⟨(BloomFilter.sameShape_clear s.bloom).sized h.sized, ?_, fun t => ?_,
    ExtTreeSet.size_empty⟩
  · exact BloomFilter.holds_of_unmarked (BloomFilter.not_marked_clear s.bloom)
  · exact iff_of_false ExtTreeSet.not_mem_empty List.not_mem_nil

/-- Every set of a run is that of the ids added since the last `clear`. -/
theorem knows_after {bloomBits : UInt64} (h : bloomBits.toNat ≤ 2 ^ 64 - 64)
    (bloomHashes : UInt64) (ops : List Op) :
    Knows hash (after hash bloomBits bloomHashes ops) (addedSince ops) := by
  induction ops with
  | nil => exact knows_new h bloomHashes
  | cons op past ih =>
      cases op with
      | clear => exact ih.clear
      | add t =>
          obtain ⟨s', hadd, hknows⟩ := ih.add_spec t
          show Knows hash (exec hash (.add t) (after hash bloomBits bloomHashes past)).2 _
          rw [exec, hadd]
          exact hknows

/-- The filter has no false negatives and the exact set answers for itself, for
every sequence of additions and clearings, every size of the filter that does not
wrap around and every hash function. -/
theorem no_false_negatives (hash : Bytes → UInt64 → UInt64) (bloomBits bloomHashes : UInt64)
    (h : bloomBits.toNat ≤ 2 ^ 64 - 64) (ops : List Op) :
    let s := after hash bloomBits bloomHashes ops
    (∀ t, s.definitelySeen t = true ↔ t ∈ addedSince ops) ∧
    (∀ t, ∃ s', s.add hash t = some (!s.definitelySeen t, s')) ∧
    s.size = (addedSince ops).toFinset.card ∧
    (∀ t, s.definitelySeen t = true → s.maybeSeen hash t = some true) ∧
    (∀ t, s.clear.maybeSeen hash t = some false) ∧
    (∀ t, ∃ b, s.maybeSeen hash t = some b) ∧
    (∀ t, ∀ bit ∈ s.bloom.positions hash t, wordIndex bit < s.bloom.data.length) := by
  intro s
  have hs : Knows hash s (addedSince ops) := knows_after h bloomHashes ops
  refine ⟨hs.definitelySeen_iff, fun t => ?_, hs.size_eq, fun t ht => ?_, fun t => ?_, fun t => ?_,
    hs.sized.inRange hash⟩
  · obtain ⟨s', hadd, -⟩ := hs.add_spec t
    exact ⟨s', hadd⟩
  · exact hs.holds.maybeContains hs.sized ((hs.definitelySeen_iff t).mp ht)
  · exact hs.clear.sized.maybeContains_unmarked hash (BloomFilter.not_marked_clear s.bloom) t
  · obtain ⟨b, hb, -⟩ := hs.sized.maybeContains_spec hash t
    exact ⟨b, hb⟩

theorem no_false_negatives_reused :
    let s := after xxhash64 100 0 [.add (text "b"), .clear, .add (text "a")]
    s.size = 1 ∧ s.definitelySeen (text "a") = false ∧
      s.maybeSeen xxhash64 (text "b") = some true := by
  obtain ⟨hseen, -, hsize, hmaybe, -⟩ :=
    no_false_negatives xxhash64 100 0 (by decide) [.add (text "b"), .clear, .add (text "a")]
  refine ⟨hsize.trans (by decide), ?_, hmaybe _ ((hseen _).mpr (by decide))⟩
  exact Bool.eq_false_iff.mpr fun hc => absurd ((hseen _).mp hc) (by decide)

end KnownTxSet

end HiveNative.Perf
