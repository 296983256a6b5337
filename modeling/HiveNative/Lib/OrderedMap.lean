import Mathlib

/-!
# Sums and counts over ordered maps

`Std.ExtTreeMap` is the ordered map of the standard library: two maps with the
same entries are equal, and `toList` lists the entries by ascending key.  What
it does not have is a theory of totals.  This file adds two totals, `sumOf` for
the sum of an integer measure of the values and `countOf` for the number of
values with a property, and says how each moves under `insert` and `erase`, as the size
does.

Both totals read `toList`.  The bridge is `toList_insert_perm` and
`toList_perm_erase`: up to a permutation, inserting at `k` puts the new entry in
front of the map without `k`, and a map that has `k` is its entry in front of
the map without `k`.  `sumOf_eq_sum` turns a sum over the values into one over the keys.

`Included` and `Agree` compare the entries of two maps key by key.  `Shown` says
that a map holds a view of the entries of another one, and follows it through the
writes.
-/

namespace OrderedMap

open Std

universe u v

variable {K : Type u} {V : Type v} {cmp : K → K → Ordering} [TransCmp cmp] [LawfulEqCmp cmp]

/-! ## Lookups -/

@[simp] theorem getElem?_insert_ne {m : ExtTreeMap K V cmp} {k a : K} {v : V} (h : k ≠ a) :
    (m.insert k v)[a]? = m[a]? := by
  rw [ExtTreeMap.getElem?_insert, if_neg]
  exact fun hc => h (LawfulEqCmp.eq_of_compare hc)

@[simp] theorem getElem?_erase_ne {m : ExtTreeMap K V cmp} {k a : K} (h : k ≠ a) :
    (m.erase k)[a]? = m[a]? := by
  rw [ExtTreeMap.getElem?_erase, if_neg]
  exact fun hc => h (LawfulEqCmp.eq_of_compare hc)

theorem getElem?_insert_eq [DecidableEq K] (m : ExtTreeMap K V cmp) (k a : K) (v : V) :
    (m.insert k v)[a]? = if a = k then some v else m[a]? := by
  by_cases h : a = k
  · subst h
    rw [if_pos rfl, ExtTreeMap.getElem?_insert_self]
  · rw [if_neg h, getElem?_insert_ne (Ne.symm h)]

theorem getElem?_erase_eq [DecidableEq K] (m : ExtTreeMap K V cmp) (k a : K) :
    (m.erase k)[a]? = if a = k then none else m[a]? := by
  by_cases h : a = k
  · subst h
    rw [if_pos rfl, ExtTreeMap.getElem?_erase_self]
  · rw [if_neg h, getElem?_erase_ne (Ne.symm h)]

/-- What holds of the old entries and of the new one holds of all. -/
theorem forall_insert [DecidableEq K] {m m' : ExtTreeMap K V cmp} {P : K → V → Prop} {k : K}
    {v : V} (heq : m' = m.insert k v) (hv : P k v)
    (hm : ∀ (a : K) (x : V), m[a]? = some x → P a x) (a : K) (x : V) (hx : m'[a]? = some x) :
    P a x := by
  rw [heq, getElem?_insert_eq] at hx
  split at hx
  · next ha =>
      cases hx
      exact ha ▸ hv
  · exact hm a x hx

theorem forall_erase [DecidableEq K] {m m' : ExtTreeMap K V cmp} {P : K → V → Prop} {k : K}
    (heq : m' = m.erase k) (hm : ∀ (a : K) (x : V), m[a]? = some x → P a x) (a : K) (x : V)
    (hx : m'[a]? = some x) : P a x := by
  rw [heq, getElem?_erase_eq] at hx
  split at hx
  · cases hx
  · exact hm a x hx

omit [LawfulEqCmp cmp] in
theorem mem_iff_exists {m : ExtTreeMap K V cmp} {k : K} : k ∈ m ↔ ∃ v, m[k]? = some v := by
  rw [← ExtTreeMap.isSome_getElem?_iff_mem, Option.isSome_iff_exists]

omit [LawfulEqCmp cmp] in
theorem not_mem_iff {m : ExtTreeMap K V cmp} {k : K} : k ∉ m ↔ m[k]? = none := by
  rw [← ExtTreeMap.isSome_getElem?_iff_mem, Bool.not_eq_true, Option.isSome_eq_false_iff,
    Option.isNone_iff_eq_none]

/-- Writing back the value a key already has changes nothing. -/
theorem insert_getElem?_self {m : ExtTreeMap K V cmp} {k : K} {v : V} (h : m[k]? = some v) :
    m.insert k v = m := by
  classical
  apply ExtTreeMap.ext_getElem?
  intro a
  rw [getElem?_insert_eq]
  split
  · next ha => rw [ha, h]
  · rfl

/-- Of two writes at one key the last one counts. -/
theorem insert_insert_self (m : ExtTreeMap K V cmp) (k : K) (v w : V) :
    (m.insert k v).insert k w = m.insert k w := by
  classical
  apply ExtTreeMap.ext_getElem?
  intro a
  simp only [getElem?_insert_eq]
  split
  · rfl
  · rfl

/-- Writes at different keys commute. -/
theorem insert_comm {m : ExtTreeMap K V cmp} {k₁ k₂ : K} {v₁ v₂ : V} (h : k₁ ≠ k₂) :
    (m.insert k₁ v₁).insert k₂ v₂ = (m.insert k₂ v₂).insert k₁ v₁ := by
  classical
  apply ExtTreeMap.ext_getElem?
  intro a
  simp only [getElem?_insert_eq]
  by_cases h₁ : a = k₁
  · subst h₁
    rw [if_neg h, if_pos rfl, if_pos rfl]
  · rw [if_neg h₁, if_neg h₁]

/-- The map with another entry at a key, or without one. -/
def put (m : ExtTreeMap K V cmp) (k : K) : Option V → ExtTreeMap K V cmp
  | some v => m.insert k v
  | none => m.erase k

theorem getElem?_put [DecidableEq K] (m : ExtTreeMap K V cmp) (k a : K) (o : Option V) :
    (put m k o)[a]? = if a = k then o else m[a]? := by
  cases o with
  | some v => exact getElem?_insert_eq m k a v
  | none => exact getElem?_erase_eq m k a

/-- Changes at different keys commute. -/
theorem put_comm {m : ExtTreeMap K V cmp} {k₁ k₂ : K} {o₁ o₂ : Option V} (h : k₁ ≠ k₂) :
    put (put m k₁ o₁) k₂ o₂ = put (put m k₂ o₂) k₁ o₁ := by
  classical
  apply ExtTreeMap.ext_getElem?
  intro a
  simp only [getElem?_put]
  by_cases h₁ : a = k₁
  · subst h₁
    rw [if_neg h, if_pos rfl, if_pos rfl]
  · rw [if_neg h₁, if_neg h₁]

/-! ## The entries of an updated map -/

omit [LawfulEqCmp cmp] in
theorem toList_nodup (m : ExtTreeMap K V cmp) : m.toList.Nodup := by
  have h := m.distinct_keys_toList
  refine h.imp ?_
  rintro ⟨a, x⟩ ⟨b, y⟩ hab heq
  cases heq
  exact hab ReflCmp.compare_self

theorem mem_toList {m : ExtTreeMap K V cmp} {k : K} {v : V} :
    (k, v) ∈ m.toList ↔ m[k]? = some v :=
  ExtTreeMap.mem_toList_iff_getElem?_eq_some

/-- A map with the key `k` is its entry in front of the map without `k`. -/
theorem toList_perm_erase {m : ExtTreeMap K V cmp} {k : K} {v : V} (h : m[k]? = some v) :
    m.toList.Perm ((k, v) :: (m.erase k).toList) := by
  classical
  have hnot : (k, v) ∉ (m.erase k).toList := by
    rw [mem_toList, ExtTreeMap.getElem?_erase_self]
    exact fun hc => by cases hc
  rw [List.perm_ext_iff_of_nodup (toList_nodup m)
    (List.nodup_cons.mpr ⟨hnot, toList_nodup (m.erase k)⟩)]
  rintro ⟨a, x⟩
  rw [List.mem_cons, mem_toList, mem_toList, getElem?_erase_eq]
  by_cases ha : a = k
  · subst ha
    simp [h, eq_comm]
  · simp [ha]

/-- Inserting at `k` puts the new entry in front of the map without `k`. -/
theorem toList_insert_perm (m : ExtTreeMap K V cmp) (k : K) (v : V) :
    (m.insert k v).toList.Perm ((k, v) :: (m.erase k).toList) := by
  classical
  have herase : (m.insert k v).erase k = m.erase k := by
    apply ExtTreeMap.ext_getElem?
    intro a
    simp only [getElem?_erase_eq, getElem?_insert_eq]
    split
    · rfl
    · rfl
  have hperm := toList_perm_erase (m := m.insert k v) (k := k) ExtTreeMap.getElem?_insert_self
  rwa [herase] at hperm

theorem erase_of_none {m : ExtTreeMap K V cmp} {k : K} (h : m[k]? = none) : m.erase k = m := by
  classical
  apply ExtTreeMap.ext_getElem?
  intro a
  rw [getElem?_erase_eq]
  split
  · next ha => rw [ha, h]
  · rfl

theorem toList_singleton (k : K) (v : V) :
    ((∅ : ExtTreeMap K V cmp).insert k v).toList = [(k, v)] := by
  have hperm := toList_insert_perm (∅ : ExtTreeMap K V cmp) k v
  rw [erase_of_none ExtTreeMap.getElem?_empty, ExtTreeMap.toList_eq_nil_iff.mpr rfl] at hperm
  exact hperm.eq_singleton

/-! ## Sums -/

/-- The sum of a measure of the values. -/
def sumOf (f : V → ℤ) (m : ExtTreeMap K V cmp) : ℤ := (m.toList.map fun e => f e.2).sum

omit [LawfulEqCmp cmp] in
@[simp] theorem sumOf_empty (f : V → ℤ) : sumOf f (∅ : ExtTreeMap K V cmp) = 0 := by
  rw [sumOf, ExtTreeMap.toList_eq_nil_iff.mpr rfl, List.map_nil, List.sum_nil]

theorem sumOf_insert (f : V → ℤ) (m : ExtTreeMap K V cmp) (k : K) (v : V) :
    sumOf f (m.insert k v) = f v + sumOf f (m.erase k) := by
  unfold sumOf
  rw [((toList_insert_perm m k v).map fun e => f e.2).sum_eq, List.map_cons, List.sum_cons]

theorem sumOf_eq_add_erase (f : V → ℤ) {m : ExtTreeMap K V cmp} {k : K} {v : V}
    (h : m[k]? = some v) : sumOf f m = f v + sumOf f (m.erase k) := by
  unfold sumOf
  rw [((toList_perm_erase h).map fun e => f e.2).sum_eq, List.map_cons, List.sum_cons]

theorem sumOf_insert_new (f : V → ℤ) {m : ExtTreeMap K V cmp} {k : K} (h : m[k]? = none) (v : V) :
    sumOf f (m.insert k v) = sumOf f m + f v := by
  rw [sumOf_insert, erase_of_none h, add_comm]

theorem sumOf_insert_old (f : V → ℤ) {m : ExtTreeMap K V cmp} {k : K} {w : V}
    (h : m[k]? = some w) (v : V) : sumOf f (m.insert k v) = sumOf f m + (f v - f w) := by
  rw [sumOf_insert, sumOf_eq_add_erase f h]
  ring

/-- A sum of non-negative terms is non-negative. -/
theorem sumOf_nonneg (f : V → ℤ) (m : ExtTreeMap K V cmp)
    (h : ∀ (k : K) (v : V), m[k]? = some v → 0 ≤ f v) : 0 ≤ sumOf f m := by
  apply List.sum_nonneg
  intro x hx
  obtain ⟨⟨k, v⟩, he, rfl⟩ := List.mem_map.mp hx
  exact h k v (mem_toList.mp he)

/-- One term of a sum of non-negative terms is at most the sum. -/
theorem le_sumOf (f : V → ℤ) {m : ExtTreeMap K V cmp} {k : K} {v : V} (hk : m[k]? = some v)
    (h : ∀ (k : K) (v : V), m[k]? = some v → 0 ≤ f v) : f v ≤ sumOf f m := by
  classical
  rw [sumOf_eq_add_erase f hk]
  have : 0 ≤ sumOf f (m.erase k) := by
    apply sumOf_nonneg
    intro a x ha
    rw [getElem?_erase_eq] at ha
    split at ha
    · cases ha
    · exact h a x ha
  omega

/-! ## Sums over the keys -/

section Keys

variable [DecidableEq K]

/-- The keys of a map. -/
def keySet (m : ExtTreeMap K V cmp) : Finset K := (m.toList.map Prod.fst).toFinset

theorem mem_keySet {m : ExtTreeMap K V cmp} {k : K} : k ∈ keySet m ↔ ∃ v, m[k]? = some v := by
  rw [keySet, List.mem_toFinset, List.mem_map]
  constructor
  · rintro ⟨⟨k', v⟩, he, rfl⟩
    exact ⟨v, mem_toList.mp he⟩
  · rintro ⟨v, hv⟩
    exact ⟨(k, v), mem_toList.mpr hv, rfl⟩

theorem sumOf_eq_sum (f : V → ℤ) (m : ExtTreeMap K V cmp) :
    sumOf f m = ∑ k ∈ keySet m, m[k]?.elim 0 f := by
  have hnodup : (m.toList.map Prod.fst).Nodup := by
    have h := m.distinct_keys_toList
    rw [List.Nodup, List.pairwise_map]
    exact h.imp fun hne heq => hne (by rw [heq]; exact ReflCmp.compare_self)
  rw [keySet, List.sum_toFinset _ hnodup, List.map_map, sumOf]
  refine congrArg List.sum (List.map_congr_left fun e he => ?_)
  rw [Function.comp_apply, mem_toList.mp (show (e.1, e.2) ∈ m.toList from he), Option.elim_some]

theorem elim_insert (f : V → ℤ) (m : ExtTreeMap K V cmp) (k a : K) (v : V) :
    (m.insert k v)[a]?.elim 0 f = if a = k then f v else m[a]?.elim 0 f := by
  rw [getElem?_insert_eq]
  split
  · rfl
  · rfl

end Keys

/-! ## Counts -/

/-- The number of values with a property. -/
def countOf (p : V → Bool) (m : ExtTreeMap K V cmp) : ℕ := m.toList.countP fun e => p e.2

theorem countOf_insert (p : V → Bool) (m : ExtTreeMap K V cmp) (k : K) (v : V) :
    countOf p (m.insert k v) = countOf p (m.erase k) + if p v then 1 else 0 := by
  unfold countOf
  rw [(toList_insert_perm m k v).countP_eq, List.countP_cons]

theorem countOf_eq_add_erase (p : V → Bool) {m : ExtTreeMap K V cmp} {k : K} {v : V}
    (h : m[k]? = some v) : countOf p m = countOf p (m.erase k) + if p v then 1 else 0 := by
  unfold countOf
  rw [(toList_perm_erase h).countP_eq, List.countP_cons]

theorem countOf_insert_new (p : V → Bool) {m : ExtTreeMap K V cmp} {k : K} (h : m[k]? = none)
    (v : V) : countOf p (m.insert k v) = countOf p m + if p v then 1 else 0 := by
  rw [countOf_insert, erase_of_none h]

/-- Replacing a value takes the old one out of the count and puts the new one in. -/
theorem countOf_insert_old (p : V → Bool) {m : ExtTreeMap K V cmp} {k : K} {w : V}
    (h : m[k]? = some w) (v : V) :
    countOf p (m.insert k v) + (if p w then 1 else 0) =
      countOf p m + if p v then 1 else 0 := by
  rw [countOf_insert, countOf_eq_add_erase p h]
  omega

/-- Replacing a value by one the property does not tell apart keeps the count. -/
theorem countOf_insert_same (p : V → Bool) {m : ExtTreeMap K V cmp} {k : K} {w v : V}
    (h : m[k]? = some w) (hp : p v = p w) : countOf p (m.insert k v) = countOf p m := by
  have hold := countOf_insert_old p h v
  rw [hp] at hold
  omega

omit [LawfulEqCmp cmp] in
/-- A machine counter that a loop over the map raises holds the count, modulo its
width. -/
theorem foldl_counter (p : V → Bool) (m : ExtTreeMap K V cmp) :
    m.foldl (fun (n : UInt32) _ v => if p v then n + 1 else n) 0 = UInt32.ofNat (countOf p m) := by
  have hlist : ∀ (l : List (K × V)) (n : ℕ),
      l.foldl (fun (n : UInt32) e => if p e.2 then n + 1 else n) (UInt32.ofNat n) =
        UInt32.ofNat (n + l.countP fun e => p e.2) := by
    intro l
    induction l with
    | nil => intro n; rfl
    | cons e l ih =>
        intro n
        rw [List.foldl_cons, List.countP_cons]
        split
        · rw [show UInt32.ofNat n + 1 = UInt32.ofNat (n + 1) from (UInt32.ofNat_add n 1).symm, ih]
          congr 1
          omega
        · rw [ih, Nat.add_zero]
  rw [ExtTreeMap.foldl_eq_foldl_toList]
  simpa [countOf] using hlist m.toList 0

omit [LawfulEqCmp cmp] in
theorem countOf_le_size (p : V → Bool) (m : ExtTreeMap K V cmp) : countOf p m ≤ m.size := by
  rw [← ExtTreeMap.length_toList]
  exact List.countP_le_length

/-- A value with the property is counted. -/
theorem countOf_pos (p : V → Bool) {m : ExtTreeMap K V cmp} {k : K} {v : V} (h : m[k]? = some v)
    (hp : p v) : 0 < countOf p m := by
  rw [countOf_eq_add_erase p h, if_pos hp]
  omega

/-- No value with the property, no count. -/
theorem countOf_eq_zero (p : V → Bool) {m : ExtTreeMap K V cmp}
    (h : ∀ (k : K) (v : V), m[k]? = some v → p v = false) : countOf p m = 0 := by
  unfold countOf
  rw [List.countP_eq_zero]
  rintro ⟨k, v⟩ he
  simp [h k v (mem_toList.mp he)]

/-! ## Sizes -/

/-- A map that has a key is one entry larger than without it. -/
theorem size_erase_old {m : ExtTreeMap K V cmp} {k : K} {v : V} (h : m[k]? = some v) :
    (m.erase k).size + 1 = m.size := by
  rw [← ExtTreeMap.length_toList, ← ExtTreeMap.length_toList, (toList_perm_erase h).length_eq,
    List.length_cons]

theorem size_insert_new {m : ExtTreeMap K V cmp} {k : K} (h : m[k]? = none) (v : V) :
    (m.insert k v).size = m.size + 1 := by
  rw [← ExtTreeMap.length_toList, (toList_insert_perm m k v).length_eq, List.length_cons,
    erase_of_none h, ExtTreeMap.length_toList]

theorem size_insert_old {m : ExtTreeMap K V cmp} {k : K} {w : V} (h : m[k]? = some w) (v : V) :
    (m.insert k v).size = m.size := by
  rw [← ExtTreeMap.length_toList, (toList_insert_perm m k v).length_eq, List.length_cons,
    ExtTreeMap.length_toList, size_erase_old h]

/-! ## Values in the order of the keys -/

omit [LawfulEqCmp cmp] in
theorem values_eq (m : ExtTreeMap K V cmp) : m.values = m.toList.map Prod.snd := by
  cases m with
  | mk inner =>
      cases inner with
      | mk t =>
          show t.inner.values = (DTreeMap.Internal.Impl.Const.toList t.inner).map Prod.snd
          rw [DTreeMap.Internal.Impl.values_eq_map_snd,
            DTreeMap.Internal.Impl.Const.toList_eq_toListModel_map]
          simp

theorem mem_values {m : ExtTreeMap K V cmp} {v : V} : v ∈ m.values ↔ ∃ k : K, m[k]? = some v := by
  rw [values_eq, List.mem_map]
  constructor
  · intro h
    obtain ⟨⟨k, w⟩, he, rfl⟩ := h
    exact ⟨k, mem_toList.mp he⟩
  · intro h
    obtain ⟨k, hk⟩ := h
    exact ⟨(k, v), mem_toList.mpr hk, rfl⟩

/-- A relation between the values of ascending keys. -/
theorem values_pairwise {m : ExtTreeMap K V cmp} {R : V → V → Prop}
    (h : ∀ (k k' : K) (v v' : V), m[k]? = some v → m[k']? = some v' → cmp k k' = .lt → R v v') :
    m.values.Pairwise R := by
  rw [values_eq, List.pairwise_map]
  refine List.Pairwise.imp_of_mem (fun {a b} ha hb hlt => ?_) ExtTreeMap.ordered_keys_toList
  exact h a.1 b.1 a.2 b.2 (mem_toList.mp ha) (mem_toList.mp hb) hlt

/-! ## Inclusion and agreement -/

section Included

variable {m m' : ExtTreeMap K V cmp}

/-- The entries of one map are in the other. -/
def Included (m m' : ExtTreeMap K V cmp) : Prop :=
  ∀ (k : K) (v : V), m[k]? = some v → m'[k]? = some v

/-- No key has different values in the two maps. -/
def Agree (m m' : ExtTreeMap K V cmp) : Prop :=
  ∀ (k : K) (v v' : V), m[k]? = some v → m'[k]? = some v' → v = v'

omit [LawfulEqCmp cmp] in
theorem Included.agree (h : Included m m') : Agree m m' := by
  intro k v v' hv hv'
  rw [h k v hv] at hv'
  exact Option.some.inj hv'

omit [LawfulEqCmp cmp] in
theorem Included.mem (h : Included m m') {k : K} (hk : k ∈ m) : k ∈ m' := by
  obtain ⟨v, hv⟩ := mem_iff_exists.mp hk
  exact mem_iff_exists.mpr ⟨v, h k v hv⟩

theorem included_insert_new {k : K} (h : m[k]? = none) (v : V) : Included m (m.insert k v) := by
  intro a w ha
  have hne : k ≠ a := by
    intro heq
    rw [← heq, h] at ha
    cases ha
  rw [getElem?_insert_ne hne, ha]

omit [LawfulEqCmp cmp] in
/-- A key that is in both has one value. -/
theorem Agree.getElem?_eq (h : Agree m m') {k : K} (hk : k ∈ m) (hk' : k ∈ m') :
    m[k]? = m'[k]? := by
  obtain ⟨v, hv⟩ := mem_iff_exists.mp hk
  obtain ⟨v', hv'⟩ := mem_iff_exists.mp hk'
  rw [hv, hv', h k v v' hv hv']

end Included

/-! ## Maps shown through a view -/

section Shown

variable {W : Type*} {view : V → W} {m : ExtTreeMap K V cmp} {m' : ExtTreeMap K W cmp}

/-- The entries of one map are the views of the entries of another. -/
def Shown (view : V → W) (m : ExtTreeMap K V cmp) (m' : ExtTreeMap K W cmp) : Prop :=
  ∀ k : K, m'[k]? = m[k]?.map view

theorem Shown.insert [DecidableEq K] (h : Shown view m m') (k : K) (v : V) :
    Shown view (m.insert k v) (m'.insert k (view v)) := by
  intro a
  rw [getElem?_insert_eq, getElem?_insert_eq]
  split
  · rfl
  · exact h a

theorem Shown.erase [DecidableEq K] (h : Shown view m m') (k : K) :
    Shown view (m.erase k) (m'.erase k) := by
  intro a
  rw [getElem?_erase_eq, getElem?_erase_eq]
  split
  · rfl
  · exact h a

/-- Writing back an entry is a change of its view. -/
theorem Shown.modify (h : Shown view m m') {k : K} {v w : V} {f : W → W} (hk : m[k]? = some v)
    (hf : f (view v) = view w) : Shown view (m.insert k w) (m'.modify k f) := by
  intro a
  by_cases hka : k = a
  · subst hka
    have hv := h k
    rw [hk, Option.map_some] at hv
    rw [ExtTreeMap.getElem?_modify_self, hv, ExtTreeMap.getElem?_insert_self, Option.map_some,
      Option.map_some, hf]
  · rw [ExtTreeMap.getElem?_modify, if_neg (by simpa using hka), getElem?_insert_ne hka]
    exact h a

end Shown

end OrderedMap
