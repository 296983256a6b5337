import Mathlib

/-!
# Double-entry bookkeeping

A journal is a list of entries, newest first.  An entry moves an amount from one holder
to another, so what a holder has is what came in less what went out, and all the holders
of a journal together have nothing (`trial_balance`).  Closing a holder moves all that it
has to another one.

The holders are of any type, and the amounts of any commutative group.  With functions
for amounts one journal keeps several currencies.
-/

namespace DoubleEntry

universe u v w

structure Entry (H : Type u) (M : Type v) where
  source : H
  target : H
  amount : M

abbrev Journal (H : Type u) (M : Type v) := List (Entry H M)

variable {H : Type u} {M : Type v} [DecidableEq H] [AddCommGroup M]
variable {x : Entry H M} {j : Journal H M} {a b : H} {s : Finset H}

/-- What an entry adds to a holder. -/
def Entry.effect (x : Entry H M) (a : H) : M :=
  (if x.target = a then x.amount else 0) - if x.source = a then x.amount else 0

/-- What a holder has. -/
def balance (j : Journal H M) (a : H) : M := (j.map fun x => x.effect a).sum

/-- The entry that moves all of a holder to another. -/
def closing (j : Journal H M) (a b : H) : Entry H M := ⟨a, b, balance j a⟩

@[simp] theorem balance_nil (a : H) : balance ([] : Journal H M) a = 0 := rfl

theorem balance_cons (x : Entry H M) (j : Journal H M) (a : H) :
    balance (x :: j) a = x.effect a + balance j a := by
  unfold balance
  rw [List.map_cons, List.sum_cons]

/-! ## One entry -/

theorem balance_cons_source (h : x.source ≠ x.target) (j : Journal H M) :
    balance (x :: j) x.source = balance j x.source - x.amount := by
  rw [balance_cons, Entry.effect, if_neg h.symm, if_pos rfl, zero_sub, neg_add_eq_sub]

theorem balance_cons_target (h : x.source ≠ x.target) (j : Journal H M) :
    balance (x :: j) x.target = balance j x.target + x.amount := by
  rw [balance_cons, Entry.effect, if_pos rfl, if_neg h, sub_zero, add_comm]

/-- The other holders have what they had. -/
theorem balance_cons_other (hs : x.source ≠ a) (ht : x.target ≠ a) (j : Journal H M) :
    balance (x :: j) a = balance j a := by
  rw [balance_cons, Entry.effect, if_neg ht, if_neg hs, sub_zero, zero_add]

/-- A closed holder has nothing. -/
theorem balance_closing_source (h : a ≠ b) (j : Journal H M) :
    balance (closing j a b :: j) a = 0 :=
  (balance_cons_source (x := closing j a b) h j).trans (sub_self _)

theorem balance_closing_target (h : a ≠ b) (j : Journal H M) :
    balance (closing j a b :: j) b = balance j b + balance j a :=
  balance_cons_target (x := closing j a b) h j

/-! ## The trial balance -/

theorem Entry.sum_effect (hs : x.source ∈ s) (ht : x.target ∈ s) : ∑ a ∈ s, x.effect a = 0 := by
  simp only [Entry.effect, Finset.sum_sub_distrib, Finset.sum_ite_eq, hs, ht, if_true, sub_self]

theorem sum_balance (h : ∀ x ∈ j, x.source ∈ s ∧ x.target ∈ s) : ∑ a ∈ s, balance j a = 0 := by
  induction j with
  | nil => exact Finset.sum_const_zero
  | cons x j ih =>
      obtain ⟨hx, hrest⟩ := List.forall_mem_cons.mp h
      simp only [balance_cons, Finset.sum_add_distrib, Entry.sum_effect hx.1 hx.2, ih hrest,
        add_zero]

/-- Holders that include all those who have something have nothing together.  The measure
may look at a part of the amounts, say at one currency. -/
theorem trial_balance {N : Type w} [AddCommGroup N] (f : M →+ N) (j : Journal H M)
    (h : ∀ a, f (balance j a) ≠ 0 → a ∈ s) : ∑ a ∈ s, f (balance j a) = 0 := by
  -- The holders that the journal mentions add up to zero, and the rest have nothing.
  have hmentioned : ∀ x ∈ j, ∀ a ∈ [x.source, x.target],
      a ∈ s ∪ (j.flatMap fun x => [x.source, x.target]).toFinset := fun x hx a ha =>
    Finset.mem_union_right s (List.mem_toFinset.mpr (List.mem_flatMap.mpr ⟨x, hx, ha⟩))
  have hall := sum_balance fun x hx =>
    ⟨hmentioned x hx x.source (by simp), hmentioned x hx x.target (by simp)⟩
  rw [← map_zero f, ← hall, map_sum]
  refine Finset.sum_subset Finset.subset_union_left fun a _ ha => ?_
  by_contra hne
  exact ha (h a hne)

end DoubleEntry
