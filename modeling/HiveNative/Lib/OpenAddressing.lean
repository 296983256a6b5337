import Mathlib

/-!
# Open addressing with tombstones

A table is a list of slots.  A key has a probe path: the slots `start`,
`next start`, `next (next start)` and so on.  A walk follows the path and judges
each slot: it stops there with a hit, gives up, or passes on.  A lookup gives up
at an empty slot; an insertion stops at the first slot that is free, whether it
is empty or a tombstone, or that has the key.

`Chained` is the invariant of such a table: no key is stored twice, and no empty
slot stands on the path of a stored key before its slot.  Under it a lookup is
exact.  An insertion is exact except in one case, `Shadowed`: the key is stored,
and a tombstone stands on its path before its slot.  There the insertion stops
at the tombstone and does not see that the key is stored.
-/

namespace OpenAddressing

universe u v

/-- One slot of a table. -/
inductive Slot (K : Type u) (V : Type v) where
  | empty
  | full (key : K) (value : V)
  | tomb
deriving Repr, DecidableEq

variable {K : Type u} {V : Type v}

def Slot.isFull : Slot K V → Bool
  | .full _ _ => true
  | _ => false

/-- What a walk does at a slot. -/
inductive Verdict where
  | hit
  | miss
  | pass
deriving Repr, DecidableEq

/-- How a lookup of a key judges a slot. -/
def seek [DecidableEq K] (key : K) : Slot K V → Verdict
  | .empty => .miss
  | .full k _ => if k = key then .hit else .pass
  | .tomb => .pass

/-- How an insertion of a key judges a slot. -/
def land [DecidableEq K] (key : K) : Slot K V → Verdict
  | .full k _ => if k = key then .hit else .pass
  | _ => .hit

/-- Walk from slot `i` for at most `n` slots.  The result is the slot of the hit. -/
def walk (judge : Slot K V → Verdict) (next : ℕ → ℕ) (slots : List (Slot K V)) :
    ℕ → ℕ → Option ℕ
  | 0, _ => none
  | n + 1, i =>
      match slots[i]? with
      | none => none
      | some s =>
          match judge s with
          | .hit => some i
          | .miss => none
          | .pass => walk judge next slots n (next i)

/-! ## Walks -/

section Walk

variable {judge : Slot K V → Verdict} {next : ℕ → ℕ} {slots : List (Slot K V)}

/-- The slot `x` is judged so. -/
def Judged (judge : Slot K V → Verdict) (slots : List (Slot K V)) (x : ℕ) (w : Verdict) : Prop :=
  ∃ s, slots[x]? = some s ∧ judge s = w

/-- A walk stops at the first slot of its path that it does not pass. -/
theorem walk_of_hit {n m i : ℕ} (hm : m < n) (hhit : Judged judge slots (next^[m] i) .hit)
    (hpass : ∀ l < m, Judged judge slots (next^[l] i) .pass) :
    walk judge next slots n i = some (next^[m] i) := by
  induction n generalizing m i with
  | zero => omega
  | succ n ih =>
      cases m with
      | zero =>
          obtain ⟨s, hs, hj⟩ := hhit
          rw [Function.iterate_zero_apply] at hs ⊢
          simp only [walk, hs, hj]
      | succ m =>
          obtain ⟨s, hs, hj⟩ := hpass 0 (Nat.succ_pos m)
          rw [Function.iterate_zero_apply] at hs
          rw [Function.iterate_succ_apply] at hhit ⊢
          simp only [walk, hs, hj]
          refine ih (by omega) hhit fun l hl => ?_
          have := hpass (l + 1) (by omega)
          rwa [Function.iterate_succ_apply] at this

/-- Where a walk stops: on its path, after slots it passed. -/
theorem walk_eq_some {n i x : ℕ} (h : walk judge next slots n i = some x) :
    Judged judge slots x .hit ∧
      ∃ m < n, next^[m] i = x ∧ ∀ l < m, Judged judge slots (next^[l] i) .pass := by
  induction n generalizing i with
  | zero => cases h
  | succ n ih =>
      unfold walk at h
      cases hs : slots[i]? with
      | none =>
          simp only [hs] at h
          cases h
      | some s =>
          cases hj : judge s with
          | miss =>
              simp only [hs, hj] at h
              cases h
          | hit =>
              simp only [hs, hj, Option.some.injEq] at h
              subst h
              exact ⟨⟨s, hs, hj⟩, 0, Nat.succ_pos n, rfl, fun l hl => absurd hl (Nat.not_lt_zero l)⟩
          | pass =>
              simp only [hs, hj] at h
              obtain ⟨hhit, m, hm, hx, hpass⟩ := ih h
              refine ⟨hhit, m + 1, by omega, hx, fun l hl => ?_⟩
              cases l with
              | zero => exact ⟨s, hs, hj⟩
              | succ l => exact hpass l (by omega)

/-- The first offset with a property. -/
theorem exists_first {P : ℕ → Prop} {m : ℕ} (h : P m) :
    ∃ l ≤ m, P l ∧ ∀ l' < l, ¬ P l' := by
  classical
  exact ⟨Nat.find ⟨m, h⟩, Nat.find_min' ⟨m, h⟩ h, Nat.find_spec ⟨m, h⟩,
    fun l' => Nat.find_min ⟨m, h⟩⟩

end Walk

/-! ## The invariant -/

section Table

variable {next : ℕ → ℕ} {start : K → ℕ} {slots : List (Slot K V)}

/-- Every probe path stays in the table and reaches all of it. -/
structure Probing (next : ℕ → ℕ) (start : K → ℕ) (cap : ℕ) : Prop where
  bounded : ∀ k m, next^[m] (start k) < cap
  covers : ∀ k x, x < cap → ∃ m < cap, next^[m] (start k) = x

/-- No key is stored twice, and no empty slot stands before a stored key. -/
structure Chained (next : ℕ → ℕ) (start : K → ℕ) (slots : List (Slot K V)) : Prop where
  unique : ∀ {x y : ℕ} {k : K} {v w : V}, slots[x]? = some (.full k v) →
    slots[y]? = some (.full k w) → x = y
  chain : ∀ {x : ℕ} {k : K} {v : V}, slots[x]? = some (.full k v) →
    ∃ m < slots.length, next^[m] (start k) = x ∧ ∀ l < m, slots[next^[l] (start k)]? ≠ some .empty

/-- The key is stored with the value. -/
def Stored (slots : List (Slot K V)) (k : K) (v : V) : Prop := ∃ x : ℕ, slots[x]? = some (.full k v)

/-- The key is stored, and a tombstone stands on its path before its slot. -/
def Shadowed (next : ℕ → ℕ) (start : K → ℕ) (slots : List (Slot K V)) (k : K) : Prop :=
  (∃ v, Stored slots k v) ∧ ∃ m < slots.length, slots[next^[m] (start k)]? = some .tomb ∧
    ∀ l < m, ∀ v, slots[next^[l] (start k)]? ≠ some (.full k v)

/-- The path of a stored key has no empty slot before an offset at which the key
has not been met. -/
theorem Chained.not_empty (h : Chained next start slots) {k : K} {v : V} {m : ℕ}
    (hk : Stored slots k v)
    (hbefore : ∀ l < m, ∀ v, slots[next^[l] (start k)]? ≠ some (.full k v)) :
    slots[next^[m] (start k)]? ≠ some .empty := by
  obtain ⟨x, hx⟩ := hk
  obtain ⟨j, -, hjx, hempty⟩ := h.chain hx
  intro hm
  cases Nat.lt_trichotomy m j with
  | inl hlt => exact hempty m hlt hm
  | inr hge =>
      cases hge with
      | inl heq =>
          rw [heq, hjx, hx] at hm
          cases hm
      | inr hgt =>
          refine hbefore j hgt v ?_
          rw [hjx]
          exact hx

/-! ## Lookups and insertions -/

section Lookup

variable [DecidableEq K]

theorem seek_hit {key : K} {x : ℕ} :
    Judged (seek key) slots x .hit ↔ ∃ v, slots[x]? = some (.full key v) := by
  constructor
  · intro h
    obtain ⟨s, hs, hj⟩ := h
    cases s with
    | empty => cases hj
    | tomb => cases hj
    | full k v =>
        by_cases hk : k = key
        · subst hk
          exact ⟨v, hs⟩
        · rw [seek, if_neg hk] at hj
          cases hj
  · intro h
    obtain ⟨v, hs⟩ := h
    exact ⟨_, hs, if_pos rfl⟩

theorem seek_pass {key : K} {x : ℕ} (hx : x < slots.length) (hempty : slots[x]? ≠ some .empty)
    (hkey : ∀ v, slots[x]? ≠ some (.full key v)) : Judged (seek key) slots x .pass := by
  cases hs : slots[x] with
  | empty => exact absurd (by rw [List.getElem?_eq_getElem hx, hs]) hempty
  | tomb => exact ⟨.tomb, by rw [List.getElem?_eq_getElem hx, hs], rfl⟩
  | full k v =>
      have hslot : slots[x]? = some (.full k v) := by rw [List.getElem?_eq_getElem hx, hs]
      refine ⟨_, hslot, if_neg fun hk => ?_⟩
      subst hk
      exact hkey v hslot

theorem land_pass {key : K} {x : ℕ} (h : Judged (land key) slots x .pass) :
    ∃ k v, slots[x]? = some (.full k v) ∧ k ≠ key := by
  obtain ⟨s, hs, hj⟩ := h
  cases s with
  | empty => cases hj
  | tomb => cases hj
  | full k v =>
      refine ⟨k, v, hs, fun hk => ?_⟩
      rw [land, if_pos hk] at hj
      cases hj

/-- A slot that an insertion does not stop at holds another key. -/
theorem land_hit_or_pass {key : K} {x : ℕ} (hx : x < slots.length)
    (h : ¬ Judged (land key) slots x .hit) : Judged (land key) slots x .pass := by
  cases hs : slots[x] with
  | empty => exact absurd ⟨.empty, by rw [List.getElem?_eq_getElem hx, hs], rfl⟩ h
  | tomb => exact absurd ⟨.tomb, by rw [List.getElem?_eq_getElem hx, hs], rfl⟩ h
  | full k v =>
      have hslot : slots[x]? = some (.full k v) := by rw [List.getElem?_eq_getElem hx, hs]
      refine ⟨_, hslot, if_neg fun hk => h ⟨_, hslot, if_pos hk⟩⟩

/-- A lookup finds the slot of a stored key. -/
theorem Chained.locate (h : Chained next start slots) (hp : Probing next start slots.length)
    {k : K} {v : V} {x : ℕ} (hx : slots[x]? = some (.full k v)) :
    walk (seek k) next slots slots.length (start k) = some x := by
  obtain ⟨m, hm, hmx, hempty⟩ := h.chain hx
  have hat : ∃ v, slots[next^[m] (start k)]? = some (.full k v) := ⟨v, by rw [hmx]; exact hx⟩
  obtain ⟨l, hl, ⟨w, hw⟩, hfirst⟩ :=
    exists_first (P := fun l => ∃ v, slots[next^[l] (start k)]? = some (.full k v)) hat
  rw [walk_of_hit (m := l) (by omega) (seek_hit.mpr ⟨w, hw⟩) fun l' hl' =>
    seek_pass (hp.bounded k l') (hempty l' (by omega)) fun v hv => hfirst l' hl' ⟨v, hv⟩]
  exact congrArg some (h.unique hw hx)

/-- A lookup of a key that is not stored finds nothing. -/
theorem locate_absent {k : K} (h : ∀ v, ¬ Stored slots k v) (n i : ℕ) :
    walk (seek k) next slots n i = none := by
  cases hw : walk (seek k) next slots n i with
  | none => rfl
  | some x =>
      obtain ⟨v, hv⟩ := seek_hit.mp (walk_eq_some hw).1
      exact absurd ⟨x, hv⟩ (h v)

/-- An insertion stops as soon as the table has a slot to stop at. -/
theorem landing_exists (hp : Probing next start slots.length) {k : K} {x : ℕ}
    (hx : Judged (land k) slots x .hit) :
    ∃ y, walk (land k) next slots slots.length (start k) = some y := by
  obtain ⟨s, hs, hj⟩ := hx
  have hlt : x < slots.length := (List.getElem?_eq_some_iff.mp hs).1
  obtain ⟨m, hm, hmx⟩ := hp.covers k x hlt
  have hat : Judged (land k) slots (next^[m] (start k)) .hit := ⟨s, by rw [hmx]; exact hs, hj⟩
  obtain ⟨l, hl, hhit, hfirst⟩ :=
    exists_first (P := fun l => Judged (land k) slots (next^[l] (start k)) .hit) hat
  exact ⟨_, walk_of_hit (by omega) hhit fun l' hl' =>
    land_hit_or_pass (hp.bounded k l') (hfirst l' hl')⟩

/-- The slot an insertion stops at is free or has the key. -/
theorem land_hit {key : K} {x : ℕ} (h : Judged (land key) slots x .hit) :
    (∃ v, slots[x]? = some (.full key v)) ∨ slots[x]? = some .empty ∨ slots[x]? = some .tomb := by
  obtain ⟨s, hs, hj⟩ := h
  cases s with
  | empty => exact Or.inr (Or.inl hs)
  | tomb => exact Or.inr (Or.inr hs)
  | full k v =>
      by_cases hk : k = key
      · subst hk
        exact Or.inl ⟨v, hs⟩
      · rw [land, if_neg hk] at hj
        cases hj

/-- An insertion of a stored key that is not shadowed stops at its slot. -/
theorem Chained.landing_present (h : Chained next start slots)
    (hp : Probing next start slots.length) {k : K} {v : V} {x : ℕ}
    (hx : slots[x]? = some (.full k v)) (hs : ¬ Shadowed next start slots k) :
    walk (land k) next slots slots.length (start k) = some x := by
  obtain ⟨y, hy⟩ := landing_exists hp ⟨_, hx, if_pos rfl⟩
  obtain ⟨hhit, m, hm, hmy, hpass⟩ := walk_eq_some hy
  have hbefore : ∀ l < m, ∀ v, slots[next^[l] (start k)]? ≠ some (.full k v) := by
    intro l hl w hw
    obtain ⟨k', v', hk', hne⟩ := land_pass (hpass l hl)
    rw [hw] at hk'
    cases hk'
    exact hne rfl
  rw [hy]
  cases land_hit hhit with
  | inl hfull =>
      obtain ⟨w, hw⟩ := hfull
      exact congrArg some (h.unique hw hx)
  | inr hfree =>
      cases hfree with
      | inl hempty => exact absurd (by rw [hmy]; exact hempty) (h.not_empty ⟨x, hx⟩ hbefore)
      | inr htomb => exact absurd ⟨⟨v, x, hx⟩, m, hm, by rw [hmy]; exact htomb, hbefore⟩ hs

/-- An insertion of a shadowed key stops at a tombstone. -/
theorem Chained.landing_shadowed (h : Chained next start slots)
    (hp : Probing next start slots.length) {k : K} (hs : Shadowed next start slots k) :
    ∃ y, walk (land k) next slots slots.length (start k) = some y ∧ slots[y]? = some .tomb := by
  obtain ⟨⟨v, hv⟩, m, hm, htomb, hbefore⟩ := hs
  obtain ⟨l, hl, hhit, hfirst⟩ :=
    exists_first (P := fun l => Judged (land k) slots (next^[l] (start k)) .hit) ⟨_, htomb, rfl⟩
  refine ⟨_, walk_of_hit (by omega) hhit fun l' hl' =>
    land_hit_or_pass (hp.bounded k l') (hfirst l' hl'), ?_⟩
  cases land_hit hhit with
  | inl hfull =>
      obtain ⟨w, hw⟩ := hfull
      cases Nat.lt_or_eq_of_le hl with
      | inl hlt => exact absurd hw (hbefore l hlt w)
      | inr heq =>
          rw [heq, htomb] at hw
          cases hw
  | inr hfree =>
      cases hfree with
      | inl hempty =>
          exact absurd hempty (h.not_empty hv fun l' hl' => hbefore l' (by omega))
      | inr htomb' => exact htomb'

/-- A lookup finds what an insertion has just written, also when the key stands
a second time behind it. -/
theorem locate_landed {k : K} {n i y : ℕ} (hy : walk (land k) next slots n i = some y) (w : V) :
    walk (seek k) next (slots.set y (.full k w)) n i = some y := by
  obtain ⟨⟨s, hs, hj⟩, m, hm, hmy, hpass⟩ := walk_eq_some hy
  have hlt : y < slots.length := (List.getElem?_eq_some_iff.mp hs).1
  have hat : Judged (seek k) (slots.set y (.full k w)) (next^[m] i) .hit := by
    rw [seek_hit, hmy]
    exact ⟨w, List.getElem?_set_self hlt⟩
  rw [← hmy] at hat ⊢
  refine walk_of_hit hm hat fun l hl => ?_
  -- a slot the insertion passed is not the one it wrote, and holds another key
  obtain ⟨r, hr, hjr⟩ := hpass l hl
  have hne : y ≠ next^[l] i := by
    intro heq
    rw [← heq, hs] at hr
    cases hr
    rw [hj] at hjr
    cases hjr
  obtain ⟨k', v', hk', hkk⟩ := land_pass ⟨r, hr, hjr⟩
  refine ⟨.full k' v', ?_, if_neg hkk⟩
  rw [hmy, List.getElem?_set_ne hne]
  exact hk'

end Lookup

/-! ## Writes -/

/-- Writing a key at a slot of its path, when no other slot has the key. -/
theorem Chained.write (h : Chained next start slots) {k : K} {x m : ℕ} (w : V)
    (honly : ∀ {y : ℕ} {v : V}, slots[y]? = some (.full k v) → y = x) (hm : m < slots.length)
    (hmx : next^[m] (start k) = x)
    (hempty : ∀ l < m, slots[next^[l] (start k)]? ≠ some .empty) :
    Chained next start (slots.set x (.full k w)) := by
  have old : ∀ {y : ℕ} {k' : K} {v' : V}, (slots.set x (.full k w))[y]? = some (.full k' v') →
      (y = x ∧ k' = k) ∨ (y ≠ x ∧ slots[y]? = some (.full k' v')) := by
    intro y k' v' hy
    rw [List.getElem?_set] at hy
    split at hy
    · next hxy =>
        split at hy
        · cases hy
          exact Or.inl ⟨hxy.symm, rfl⟩
        · cases hy
    · next hxy => exact Or.inr ⟨Ne.symm hxy, hy⟩
  have keep : ∀ {y : ℕ}, slots[y]? ≠ some .empty → (slots.set x (.full k w))[y]? ≠ some .empty := by
    intro y hy
    rw [List.getElem?_set]
    split
    · split
      · exact fun hc => by cases hc
      · exact fun hc => by cases hc
    · exact hy
  refine ⟨fun {y z k' v' w'} hy hz => ?_, fun {y k' v'} hy => ?_⟩
  · cases old hy with
    | inl hnew =>
        obtain ⟨hyx, hk⟩ := hnew
        cases old hz with
        | inl hnew' => rw [hyx, hnew'.1]
        | inr hold' =>
            subst hk
            exact hyx.trans (honly hold'.2).symm
    | inr hold =>
        cases old hz with
        | inl hnew' =>
            obtain ⟨hzx, hk⟩ := hnew'
            subst hk
            exact (honly hold.2).trans hzx.symm
        | inr hold' => exact h.unique hold.2 hold'.2
  · rw [List.length_set]
    cases old hy with
    | inl hnew =>
        obtain ⟨hyx, hk⟩ := hnew
        rw [hyx, hk]
        exact ⟨m, hm, hmx, fun l hl => keep (hempty l hl)⟩
    | inr hold =>
        obtain ⟨j, hj, hjy, hje⟩ := h.chain hold.2
        exact ⟨j, hj, hjy, fun l hl => keep (hje l hl)⟩

/-- What is stored after such a write. -/
theorem stored_write {k : K} {x : ℕ} (w : V) (hx : x < slots.length)
    (honly : ∀ {y : ℕ} {v : V}, slots[y]? = some (.full k v) → y = x)
    (hother : ∀ {k' : K} {v' : V}, slots[x]? = some (.full k' v') → k' = k) (k' : K) (v' : V) :
    Stored (slots.set x (.full k w)) k' v' ↔ (k' = k ∧ v' = w) ∨ (k' ≠ k ∧ Stored slots k' v') := by
  constructor
  · intro hs
    obtain ⟨y, hy⟩ := hs
    rw [List.getElem?_set] at hy
    split at hy
    · cases hy
      exact Or.inl ⟨rfl, rfl⟩
    · next hxy =>
        refine Or.inr ⟨fun hk => ?_, y, hy⟩
        subst hk
        exact hxy (honly hy).symm
  · intro hs
    cases hs with
    | inl hs =>
        obtain ⟨rfl, rfl⟩ := hs
        exact ⟨x, List.getElem?_set_self hx⟩
    | inr hs =>
        obtain ⟨hne, y, hy⟩ := hs
        refine ⟨y, ?_⟩
        rw [List.getElem?_set_ne]
        · exact hy
        · intro hxy
          subst hxy
          exact hne (hother hy)

/-- Turning the slot of a key into a tombstone. -/
theorem Chained.bury (h : Chained next start slots) (x : ℕ) :
    Chained next start (slots.set x .tomb) := by
  have old : ∀ {y : ℕ} {k : K} {v : V}, (slots.set x .tomb)[y]? = some (.full k v) →
      slots[y]? = some (.full k v) := by
    intro y k v hy
    rw [List.getElem?_set] at hy
    split at hy
    · split at hy
      · cases hy
      · cases hy
    · exact hy
  refine ⟨fun hy hz => h.unique (old hy) (old hz), fun {y k v} hy => ?_⟩
  obtain ⟨m, hm, hmy, hempty⟩ := h.chain (old hy)
  refine ⟨m, by rw [List.length_set]; exact hm, hmy, fun l hl => ?_⟩
  rw [List.getElem?_set]
  split
  · split
    · exact fun hc => by cases hc
    · exact fun hc => by cases hc
  · exact hempty l hl

theorem Chained.stored_bury (h : Chained next start slots) {k : K} {v : V} {x : ℕ}
    (hx : slots[x]? = some (.full k v)) (k' : K) (v' : V) :
    Stored (slots.set x .tomb) k' v' ↔ k' ≠ k ∧ Stored slots k' v' := by
  constructor
  · intro hs
    obtain ⟨y, hy⟩ := hs
    rw [List.getElem?_set] at hy
    split at hy
    · split at hy
      · cases hy
      · cases hy
    · next hxy =>
        refine ⟨fun hk => ?_, y, hy⟩
        subst hk
        exact hxy (h.unique hx hy)
  · intro hs
    obtain ⟨hne, y, hy⟩ := hs
    refine ⟨y, ?_⟩
    rw [List.getElem?_set_ne]
    · exact hy
    · intro hxy
      subst hxy
      rw [hx] at hy
      cases hy
      exact hne rfl

/-- An empty table. -/
theorem chained_replicate (next : ℕ → ℕ) (start : K → ℕ) (n : ℕ) :
    Chained next start (List.replicate n (.empty : Slot K V)) := by
  have none : ∀ {y : ℕ} {k : K} {v : V},
      (List.replicate n (.empty : Slot K V))[y]? = some (.full k v) → False := by
    intro y k v hy
    rw [List.getElem?_replicate] at hy
    split at hy
    · cases hy
    · cases hy
  exact ⟨fun hy => (none hy).elim, fun hy => (none hy).elim⟩

/-! ## Counting -/

/-- The full slots after another slot was put in the place of one. -/
theorem countP_set_add {x : ℕ} {s : Slot K V} (hx : slots[x]? = some s) (s' : Slot K V) :
    (slots.set x s').countP Slot.isFull + s.isFull.toNat =
      slots.countP Slot.isFull + s'.isFull.toNat := by
  obtain ⟨hlt, hget⟩ := List.getElem?_eq_some_iff.mp hx
  have hpos : s.isFull = true → 0 < slots.countP Slot.isFull := fun hs =>
    List.countP_pos_iff.mpr ⟨s, List.mem_of_getElem? hx, hs⟩
  rw [List.countP_set hlt, hget]
  cases hs : s.isFull with
  | true =>
      have := hpos hs
      cases s'.isFull <;> simp <;> omega
  | false => cases s'.isFull <;> simp

theorem countP_set_full {x : ℕ} {s : Slot K V} (hx : slots[x]? = some s) (hs : s.isFull = false)
    (k : K) (v : V) :
    (slots.set x (.full k v)).countP Slot.isFull = slots.countP Slot.isFull + 1 := by
  have h := countP_set_add hx (.full k v)
  rw [hs] at h
  exact h

theorem countP_set_same {x : ℕ} {k : K} {v : V} (hx : slots[x]? = some (.full k v)) (w : V) :
    (slots.set x (.full k w)).countP Slot.isFull = slots.countP Slot.isFull :=
  Nat.add_right_cancel (countP_set_add hx (.full k w))

theorem countP_set_tomb {x : ℕ} {k : K} {v : V} (hx : slots[x]? = some (.full k v)) :
    (slots.set x .tomb).countP Slot.isFull + 1 = slots.countP Slot.isFull :=
  countP_set_add hx .tomb

/-- A table with fewer full slots than slots has a slot that is not full. -/
theorem exists_not_full (h : slots.countP Slot.isFull < slots.length) :
    ∃ (x : ℕ) (s : Slot K V), slots[x]? = some s ∧ s.isFull = false := by
  by_contra hno
  refine absurd (List.countP_eq_length.mpr fun s hs => ?_) (Nat.ne_of_lt h)
  obtain ⟨x, hx⟩ := List.mem_iff_getElem?.mp hs
  cases hf : s.isFull with
  | true => rfl
  | false => exact absurd ⟨x, s, hx, hf⟩ hno

end Table

end OpenAddressing
