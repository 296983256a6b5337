import HiveNative.Lib.OrderedMap

/-!
# Ids handed out by a counter

A table whose keys are handed out by a 64-bit counter that starts at one and is
never moved back.  `Allocated next m n` says that `n` ids were handed out so far,
that the counter has not wrapped, and that every key of the table is one of the
ids handed out.  As long as the counter does not wrap, the id it offers is a key
of nothing.
-/

open Std (ExtTreeMap)
open OrderedMap

universe v

variable {V : Type v}

/-- `n` ids were handed out, and the keys of `m` are among them. -/
structure Allocated (next : UInt64) (m : ExtTreeMap UInt64 V) (n : ℕ) : Prop where
  next_eq : next.toNat = n + 1
  below : ∀ (k : UInt64) (v : V), m[k]? = some v → k ≠ 0 ∧ k < next

namespace Allocated

variable {next : UInt64} {m : ExtTreeMap UInt64 V} {n : ℕ}

theorem start : Allocated 1 (∅ : ExtTreeMap UInt64 V) 0 := by
  refine ⟨rfl, fun k v h => ?_⟩
  rw [ExtTreeMap.getElem?_empty] at h
  cases h

theorem next_ne (h : Allocated next m n) : next ≠ 0 := by
  intro hz
  have := h.next_eq
  rw [hz] at this
  exact absurd this (by simp)

/-- The id on offer is not in use. -/
theorem fresh (h : Allocated next m n) : m[next]? = none := by
  cases hk : m[next]? with
  | none => rfl
  | some v => exact absurd (h.below next v hk).2 (UInt64.lt_irrefl next)

theorem next_lt (h : Allocated next m n) (hn : n + 1 < 2 ^ 64 - 1) :
    (next + 1).toNat = n + 2 := by
  rw [UInt64.toNat_add, h.next_eq, UInt64.toNat_one, Nat.mod_eq_of_lt (by omega)]

theorem lt_succ (h : Allocated next m n) (hn : n + 1 < 2 ^ 64 - 1) : next < next + 1 := by
  rw [UInt64.lt_iff_toNat_lt, h.next_lt hn, h.next_eq]
  omega

/-- Handing out an id. -/
theorem insert (h : Allocated next m n) (hn : n + 1 < 2 ^ 64 - 1) (v : V) :
    Allocated (next + 1) (m.insert next v) (n + 1) := by
  have hlt := h.lt_succ hn
  refine ⟨h.next_lt hn, fun k w hk => ?_⟩
  rw [getElem?_insert_eq] at hk
  split at hk
  · next heq =>
      subst heq
      exact ⟨h.next_ne, hlt⟩
  · obtain ⟨hne, hb⟩ := h.below k w hk
    exact ⟨hne, UInt64.lt_trans hb hlt⟩

/-- Changing the value of a key. -/
theorem update (h : Allocated next m n) {k : UInt64} {w : V} (hk : m[k]? = some w) (v : V) :
    Allocated next (m.insert k v) n := by
  refine ⟨h.next_eq, fun a x ha => ?_⟩
  rw [getElem?_insert_eq] at ha
  split at ha
  · next heq =>
      subst heq
      exact h.below a w hk
  · exact h.below a x ha

/-- Dropping a key. -/
theorem erase (h : Allocated next m n) (k : UInt64) : Allocated next (m.erase k) n := by
  refine ⟨h.next_eq, fun a x ha => ?_⟩
  rw [getElem?_erase_eq] at ha
  split at ha
  · cases ha
  · exact h.below a x ha

end Allocated
