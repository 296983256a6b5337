import Mathlib

/-!
# Selections and pages

`select` is the meaning of a query `WHERE wanted ORDER BY key LIMIT n` on a table: a list
of rows of which nothing but the rows counts.  When the keys are distinct the answer does
not depend on the order of the rows (`select_of_perm`), and on rows in ascending order it
is the first `n` wanted ones (`select_of_ascending`).

`walk` pages through a listing.  Each page starts where the last row of the page before
says.  When the next page starts behind that row, the pages are the listing cut into
pieces (`walk_complete`).
-/

namespace Selection

universe u v w x

variable {V : Type u} {W : Type v} {ι : Type w} [LinearOrder ι]

/-! ## Queries -/

section Select

variable {wanted : V → Bool} {key : V → ι} {n : ℕ} {rows rows' : List V}

/-- `WHERE wanted ORDER BY key LIMIT n` -/
def select (wanted : V → Bool) (key : V → ι) (n : ℕ) (rows : List V) : List V :=
  ((rows.filter wanted).mergeSort fun x y => decide (key x ≤ key y)).take n

/-- The rows ascend by their keys. -/
def Ascending (key : V → ι) (rows : List V) : Prop := rows.Pairwise fun x y => key x < key y

theorem Ascending.filter (h : Ascending key rows) (wanted : V → Bool) :
    Ascending key (rows.filter wanted) :=
  List.Pairwise.filter wanted h

theorem Ascending.map {key' : W → ι} {f : V → W} (h : Ascending key rows)
    (hkey : ∀ x, key' (f x) = key x) : Ascending key' (rows.map f) :=
  List.pairwise_map.mpr (h.imp fun hlt => by rwa [hkey, hkey])

/-- In ascending rows a key has one row. -/
theorem Ascending.inj (h : Ascending key rows) {x y : V} (hx : x ∈ rows) (hy : y ∈ rows)
    (heq : key x = key y) : x = y := by
  induction rows with
  | nil => cases hx
  | cons z rows ih =>
      obtain ⟨hz, hrest⟩ := List.pairwise_cons.mp h
      cases List.mem_cons.mp hx with
      | inl hxz =>
          cases List.mem_cons.mp hy with
          | inl hyz => rw [hxz, hyz]
          | inr hy => exact absurd heq (hxz ▸ (hz y hy).ne)
      | inr hx =>
          cases List.mem_cons.mp hy with
          | inl hyz => exact absurd heq (hyz ▸ (hz x hx).ne')
          | inr hy => exact ih hrest hx hy

theorem select_of_ascending (h : Ascending key rows) :
    select wanted key n rows = (rows.filter wanted).take n := by
  unfold select
  rw [List.mergeSort_of_pairwise]
  exact (h.filter wanted).imp fun hlt => decide_eq_true hlt.le

/-- The order of the rows of a table does not count. -/
theorem select_of_perm (h : Ascending key rows) (hperm : rows'.Perm rows) :
    select wanted key n rows' = select wanted key n rows := by
  unfold select
  refine congrArg (List.take n) ?_
  have hsorted (l : List V) :
      (l.mergeSort fun x y => decide (key x ≤ key y)).Pairwise fun x y => key x ≤ key y :=
    (List.pairwise_mergeSort (fun _ _ _ hab hbc => decide_eq_true
        ((of_decide_eq_true hab).trans (of_decide_eq_true hbc)))
      (fun a b => by simpa using le_total (key a) (key b)) l).imp fun hle => of_decide_eq_true hle
  refine List.Perm.eq_of_pairwise (fun x y hx hy hxy hyx => ?_) (hsorted _) (hsorted _) ?_
  · have hx' := (List.mergeSort_perm _ _).mem_iff.mp hx
    have hy' := (List.mergeSort_perm _ _).mem_iff.mp hy
    exact (h.filter wanted).inj (((hperm.filter wanted).mem_iff).mp hx') hy' (le_antisymm hxy hyx)
  · exact (List.mergeSort_perm _ _).trans
      ((hperm.filter wanted).trans (List.mergeSort_perm _ _).symm)

/-- A query on the rows of objects is answered from the objects. -/
theorem select_rows {wanted' : W → Bool} {key' : W → ι} {row : V → W} {table : List W}
    (h : Ascending key rows) (htable : table.Perm (rows.map row))
    (hkey : ∀ x, key' (row x) = key x) (hwanted : ∀ x ∈ rows, wanted' (row x) = wanted x) :
    select wanted' key' n table = ((rows.filter wanted).take n).map row := by
  rw [select_of_perm (h.map hkey) htable, select_of_ascending (h.map hkey), List.map_take,
    List.filter_map]
  refine congrArg (fun l => (l.map row).take n) (List.filter_congr fun x hx => ?_)
  exact hwanted x hx

end Select

/-! ## Pages -/

section Walk

variable {C : Type x} {page : C → List W} {next : W → C} {pos : C → ι} {key : V → ι} {f : V → W}
  {xs : List V} {n : ℕ}

/-- The pages from a cursor on, up to the first empty one. -/
def walk (page : C → List W) (next : W → C) : ℕ → C → Option (List (List W))
  | 0, _ => none
  | fuel + 1, c =>
      match (page c).getLast? with
      | none => some []
      | some y => (walk page next fuel (next y)).map (page c :: ·)

/-- Behind the last row of a beginning is the rest. -/
theorem filter_behind {p q : List V} (h : Ascending key (p ++ q)) {x : V}
    (hx : p.getLast? = some x) : (p ++ q).filter (fun y => key x < key y) = q := by
  obtain ⟨p, rfl⟩ := List.getLast?_eq_some_iff.mp hx
  obtain ⟨hp, -, hpq⟩ := List.pairwise_append.mp h
  obtain ⟨-, -, hpx⟩ := List.pairwise_append.mp hp
  have hnone : (p ++ [x]).filter (fun y => key x < key y) = [] := by
    refine List.filter_eq_nil_iff.mpr fun y hy => ?_
    rw [decide_eq_true_eq, not_lt]
    cases List.mem_append.mp hy with
    | inl hy => exact (hpx y hy x (List.mem_singleton_self x)).le
    | inr hy => rw [List.mem_singleton.mp hy]
  have hall : q.filter (fun y => key x < key y) = q := by
    refine List.filter_eq_self.mpr fun y hy => decide_eq_true ?_
    exact hpq x (List.mem_append_right p (List.mem_singleton_self x)) y hy
  rw [List.filter_append, hnone, hall, List.nil_append]

/-- The pages from a cursor on are the rows from there on. -/
theorem walk_from (hasc : Ascending key xs) (hn : 0 < n)
    (hpage : ∀ c, page c = ((xs.filter fun x => pos c ≤ key x).take n).map f)
    (hnext : ∀ x ∈ xs, ∀ y ∈ xs, pos (next (f x)) ≤ key y ↔ key x < key y) :
    ∀ (fuel : ℕ) (c : C), (xs.filter fun x => pos c ≤ key x).length < fuel →
      ∃ pages, walk page next fuel c = some pages ∧
        pages.flatten = (xs.filter fun x => pos c ≤ key x).map f ∧
        ∀ p ∈ pages, p.length ≤ n
  | 0, c, hfuel => by omega
  | fuel + 1, c, hfuel => by
      cases hlast : ((xs.filter fun x => pos c ≤ key x).take n).getLast? with
      | none =>
          -- there is nothing left
          have hnil := List.getLast?_eq_none_iff.mp hlast
          have hrest : (xs.filter fun x => pos c ≤ key x) = [] := by
            cases hxs : (xs.filter fun x => pos c ≤ key x) with
            | nil => rfl
            | cons x rest =>
                rw [hxs, List.take_cons hn] at hnil
                cases hnil
          refine ⟨[], ?_, ?_, List.forall_mem_nil _⟩
          · rw [walk, hpage, hnil]
            rfl
          · rw [hrest]
            rfl
      | some x =>
          have hx : x ∈ xs.filter fun x => pos c ≤ key x :=
            List.mem_of_mem_take (List.mem_of_getLast? hlast)
          obtain ⟨hxs, hpos⟩ := List.mem_filter.mp hx
          have hpos := of_decide_eq_true hpos
          -- the next page starts behind the last row of this one
          have hdrop : (xs.filter fun y => pos (next (f x)) ≤ key y) =
              (xs.filter fun x => pos c ≤ key x).drop n := by
            have hasc' := hasc.filter fun x => decide (pos c ≤ key x)
            rw [← List.take_append_drop n (xs.filter fun x => pos c ≤ key x)] at hasc'
            have hbehind := filter_behind hasc' hlast
            rw [List.take_append_drop, List.filter_filter] at hbehind
            rw [← hbehind]
            refine List.filter_congr fun y hy => ?_
            rw [← Bool.decide_and]
            refine decide_eq_decide.mpr ((hnext x hxs y hy).trans ⟨fun hlt => ?_, fun h => h.1⟩)
            exact ⟨hlt, hpos.trans hlt.le⟩
          have hpos' : 0 < (xs.filter fun x => pos c ≤ key x).length :=
            List.length_pos_of_mem hx
          have hlen : (xs.filter fun y => pos (next (f x)) ≤ key y).length < fuel := by
            rw [hdrop, List.length_drop]
            omega
          obtain ⟨pages, hwalk, hflat, hshort⟩ := walk_from hasc hn hpage hnext fuel _ hlen
          refine ⟨page c :: pages, ?_, ?_, ?_⟩
          · have hlast' : (page c).getLast? = some (f x) := by
              rw [hpage, List.getLast?_map, hlast]
              rfl
            simp only [walk, hlast', hwalk, Option.map_some]
          · rw [List.flatten_cons, hflat, hdrop, hpage, ← List.map_append, List.take_append_drop]
          · refine List.forall_mem_cons.mpr ⟨?_, hshort⟩
            rw [hpage, List.length_map]
            exact List.length_take_le _ _

/-- From the start on, every row is on one page, in order. -/
theorem walk_complete (next : W → C) (hasc : Ascending key xs) (hn : 0 < n)
    (hpage : ∀ c, page c = ((xs.filter fun x => pos c ≤ key x).take n).map f)
    (hnext : ∀ x ∈ xs, ∀ y ∈ xs, pos (next (f x)) ≤ key y ↔ key x < key y) {c : C}
    (hstart : ∀ x ∈ xs, pos c ≤ key x) :
    ∃ pages, walk page next (xs.length + 1) c = some pages ∧ pages.flatten = xs.map f ∧
      ∀ p ∈ pages, p.length ≤ n := by
  have hall : (xs.filter fun x => pos c ≤ key x) = xs :=
    List.filter_eq_self.mpr fun x hx => decide_eq_true (hstart x hx)
  have h := walk_from hasc hn hpage hnext (xs.length + 1) c (by rw [hall]; omega)
  rwa [hall] at h

end Walk

end Selection
