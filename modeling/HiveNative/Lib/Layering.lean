import Mathlib

/-!
# First-fit layers

Items come in a list and some pairs of them clash.  Each item gets a level: the
least number that is not the level of an earlier item it clashes with.  So the
items of one level do not clash, and no item could stand in a lower level when
it came.

`leveled` lists the items with their levels and `byLevel` lists them level by
level, those of one level in the order in which they came.  `byLevel` is a
permutation of the items (`byLevel_perm`).  It keeps the order of any selection
of them whose levels ascend (`byLevel_filter_of_ascending`), and of no other
selection does first-fit promise anything: a later item that clashes with an
earlier one may well get a lower level.
-/

namespace Layering

universe u v

/-! ## The least number that is not used -/

/-- The least number that is not in the list. -/
def leastFree (used : List ℕ) : ℕ :=
  ((List.range (used.length + 1)).find? fun n => n ∉ used).getD used.length

theorem exists_free (used : List ℕ) : ∃ n ∈ List.range (used.length + 1), n ∉ used := by
  by_contra hall
  push Not at hall
  have hsub : List.range (used.length + 1) ⊆ used := fun n hn => hall n hn
  have hle := (List.nodup_range.subperm hsub).length_le
  rw [List.length_range] at hle
  omega

theorem leastFree_eq_iff {used : List ℕ} {n : ℕ} :
    leastFree used = n ↔ n ∉ used ∧ ∀ m < n, m ∈ used := by
  have hspec : leastFree used ∉ used ∧ ∀ m < leastFree used, m ∈ used := by
    unfold leastFree
    cases hf : (List.range (used.length + 1)).find? (fun n => n ∉ used) with
    | none =>
        obtain ⟨n, hn, hfree⟩ := exists_free used
        have hno := List.find?_eq_none.mp hf n hn
        exact absurd hfree (by simpa using hno)
    | some n =>
        obtain ⟨hn, -, hlt⟩ := List.find?_range_eq_some.mp hf
        exact ⟨by simpa using hn, fun m hm => by simpa using hlt m hm⟩
  constructor
  · intro h
    subst h
    exact hspec
  · intro h
    obtain ⟨hn, hlt⟩ := h
    cases lt_trichotomy (leastFree used) n with
    | inl hl => exact absurd (hlt _ hl) hspec.1
    | inr hl =>
        cases hl with
        | inl heq => exact heq
        | inr hl => exact absurd (hspec.2 n hl) hn

/-! ## Levels -/

section Levels

variable {α : Type u} {β : Type v} (clash : α → α → Prop) [DecidableRel clash]

/-- The levels an item may not have: those of the earlier items it clashes with. -/
def taken (earlier : List (α × ℕ)) (a : α) : List ℕ :=
  (earlier.filter fun b => clash b.1 a).map Prod.snd

/-- The level of an item that comes after the given ones. -/
def levelOf (earlier : List (α × ℕ)) (a : α) : ℕ := leastFree (taken clash earlier a)

/-- The items with their levels, in the order in which they came. -/
def leveled (l : List α) : List (α × ℕ) :=
  l.foldl (fun earlier a => earlier ++ [(a, levelOf clash earlier a)]) []

/-- The items level by level. -/
def byLevel (p : List (α × ℕ)) : List α :=
  (List.range p.length).flatMap fun n => (p.filter fun b => b.2 = n).map Prod.fst

variable {clash}

theorem mem_taken {earlier : List (α × ℕ)} {a : α} {n : ℕ} :
    n ∈ taken clash earlier a ↔ ∃ b, (b, n) ∈ earlier ∧ clash b a := by
  unfold taken
  simp only [List.mem_map, List.mem_filter, decide_eq_true_eq, Prod.exists, exists_eq_right]

theorem levelOf_eq_iff {earlier : List (α × ℕ)} {a : α} {n : ℕ} :
    levelOf clash earlier a = n ↔
      (∀ b, (b, n) ∈ earlier → ¬ clash b a) ∧
        ∀ m < n, ∃ b, (b, m) ∈ earlier ∧ clash b a := by
  unfold levelOf
  rw [leastFree_eq_iff]
  simp only [mem_taken, not_exists, not_and]

theorem leveled_concat (l : List α) (a : α) :
    leveled clash (l ++ [a]) =
      leveled clash l ++ [(a, levelOf clash (leveled clash l) a)] := by
  unfold leveled
  rw [List.foldl_append]
  rfl

/-- The items are the ones that came. -/
theorem leveled_map_fst (l : List α) : (leveled clash l).map Prod.fst = l := by
  induction l using List.reverseRecOn with
  | nil => rfl
  | append_singleton l a ih => rw [leveled_concat, List.map_append, ih]; rfl

theorem leveled_length (l : List α) : (leveled clash l).length = l.length := by
  rw [← List.length_map Prod.fst, leveled_map_fst]

theorem levelOf_le (earlier : List (α × ℕ)) (a : α) :
    levelOf clash earlier a ≤ earlier.length := by
  obtain ⟨-, hbelow⟩ := levelOf_eq_iff.mp (rfl : levelOf clash earlier a = _)
  have hsub : List.range (levelOf clash earlier a) ⊆ earlier.map Prod.snd := by
    intro m hm
    obtain ⟨b, hb, -⟩ := hbelow m (List.mem_range.mp hm)
    exact List.mem_map.mpr ⟨(b, m), hb, rfl⟩
  have hle := (List.nodup_range.subperm hsub).length_le
  rwa [List.length_range, List.length_map] at hle

theorem level_lt {l : List α} {b : α × ℕ} (h : b ∈ leveled clash l) : b.2 < l.length := by
  induction l using List.reverseRecOn with
  | nil => cases h
  | append_singleton l a ih =>
      rw [leveled_concat, List.mem_append, List.mem_singleton] at h
      rw [List.length_append, List.length_singleton]
      cases h with
      | inl h => exact Nat.lt_succ_of_lt (ih h)
      | inr h =>
          subst h
          have hle : levelOf clash (leveled clash l) a ≤ _ := levelOf_le _ a
          rw [leveled_length] at hle
          exact Nat.lt_succ_of_le hle

/-- The items of one level do not clash. -/
theorem leveled_apart (l : List α) :
    (leveled clash l).Pairwise fun a b => a.2 = b.2 → ¬ clash a.1 b.1 := by
  induction l using List.reverseRecOn with
  | nil => exact .nil
  | append_singleton l a ih =>
      rw [leveled_concat, List.pairwise_append]
      refine ⟨ih, List.pairwise_singleton _ _, fun b hb c hc heq => ?_⟩
      rw [List.mem_singleton] at hc
      subst hc
      obtain ⟨hfree, -⟩ := levelOf_eq_iff.mp heq.symm
      exact hfree b.1 hb

/-- Renaming the items does not change their levels. -/
theorem leveled_map {clash' : β → β → Prop} [DecidableRel clash'] {f : α → β}
    (hf : ∀ a b, clash' (f a) (f b) ↔ clash a b) (l : List α) :
    leveled clash' (l.map f) = (leveled clash l).map (Prod.map f id) := by
  induction l using List.reverseRecOn with
  | nil => rfl
  | append_singleton l a ih =>
      rw [List.map_append, List.map_singleton, leveled_concat, leveled_concat, List.map_append, ih]
      have hlevel : levelOf clash' ((leveled clash l).map (Prod.map f id)) (f a) =
          levelOf clash (leveled clash l) a := by
        have ht : taken clash' ((leveled clash l).map (Prod.map f id)) (f a) =
            taken clash (leveled clash l) a := by
          unfold taken
          rw [List.filter_map, List.map_map]
          congr 1
          apply List.filter_congr
          intro b _
          simp only [Function.comp_apply, Prod.map_fst, hf]
        unfold levelOf
        rw [ht]
      rw [hlevel]
      rfl

/-! ## Level by level -/

theorem byLevel_map (f : α → β) (p : List (α × ℕ)) :
    byLevel (p.map (Prod.map f id)) = (byLevel p).map f := by
  unfold byLevel
  rw [List.length_map, List.map_flatMap]
  congr 1
  funext n
  rw [List.filter_map, List.map_map, List.map_map]
  rfl

theorem flatMap_level_perm (p : List (α × ℕ)) (n : ℕ) :
    ((List.range n).flatMap fun m => p.filter fun b => b.2 = m).Perm
      (p.filter fun b => b.2 < n) := by
  induction n with
  | zero => simp
  | succ n ih =>
      rw [List.range_succ, List.flatMap_append, List.flatMap_singleton]
      have hsplit :=
        List.filter_append_perm (fun b => decide (b.2 < n)) (p.filter fun b => b.2 < n + 1)
      rw [List.filter_filter, List.filter_filter] at hsplit
      have hlt : ∀ b ∈ p, (decide (b.2 < n) && decide (b.2 < n + 1)) = decide (b.2 < n) := by
        intro b _
        rw [← Bool.decide_and, decide_eq_decide]
        omega
      have heq : ∀ b ∈ p, (!decide (b.2 < n) && decide (b.2 < n + 1)) = decide (b.2 = n) := by
        intro b _
        rw [← decide_not, ← Bool.decide_and, decide_eq_decide]
        omega
      rw [List.filter_congr hlt, List.filter_congr heq] at hsplit
      exact (ih.append_right _).trans hsplit

theorem byLevel_perm (l : List α) : (byLevel (leveled clash l)).Perm l := by
  have hall : (leveled clash l).filter (fun b => b.2 < (leveled clash l).length) =
      leveled clash l := by
    rw [List.filter_eq_self]
    intro b hb
    rw [leveled_length]
    exact decide_eq_true (level_lt hb)
  have hp := (flatMap_level_perm (leveled clash l) (leveled clash l).length).map Prod.fst
  rw [List.map_flatMap, hall, leveled_map_fst] at hp
  exact hp

/-- Items whose levels ascend are already listed level by level. -/
theorem flatMap_level_of_ascending {p : List (α × ℕ)} (h : p.Pairwise fun a b => a.2 ≤ b.2)
    (n : ℕ) :
    ((List.range n).flatMap fun m => p.filter fun b => b.2 = m) = p.filter fun b => b.2 < n := by
  have hsplit : ∀ n : ℕ, (p.filter fun b => b.2 < n + 1) =
      (p.filter fun b => b.2 < n) ++ p.filter fun b => b.2 = n := by
    intro n
    induction h with
    | nil => rfl
    | @cons a p ha _ ih =>
        cases lt_trichotomy a.2 n with
        | inl hlt =>
            rw [List.filter_cons_of_pos (by simp; omega),
              List.filter_cons_of_pos (by simpa using hlt),
              List.filter_cons_of_neg (by simp; omega), ih, List.cons_append]
        | inr hge =>
            -- nothing after `a` has a level below `n`
            have hnone : p.filter (fun b => b.2 < n) = [] := by
              rw [List.filter_eq_nil_iff]
              intro b hb
              have hab := ha b hb
              simp only [decide_eq_true_eq]
              omega
            cases hge with
            | inl heq =>
                rw [List.filter_cons_of_pos (by simp; omega),
                  List.filter_cons_of_neg (by simp; omega),
                  List.filter_cons_of_pos (by simpa using heq), ih, hnone]
                rfl
            | inr hgt =>
                rw [List.filter_cons_of_neg (by simp; omega),
                  List.filter_cons_of_neg (by simp; omega),
                  List.filter_cons_of_neg (by simp; omega), ih]
  induction n with
  | zero => simp
  | succ n ih => rw [List.range_succ, List.flatMap_append, List.flatMap_singleton, ih, hsplit]

/-- A selection of the items whose levels ascend keeps its order. -/
theorem byLevel_filter_of_ascending {l : List α} (sel : α → Bool)
    (h : ((leveled clash l).filter fun b => sel b.1).Pairwise fun a b => a.2 ≤ b.2) :
    (byLevel (leveled clash l)).filter sel = l.filter sel := by
  have hbound : ((leveled clash l).filter fun b => sel b.1).filter
      (fun b => b.2 < (leveled clash l).length) = (leveled clash l).filter fun b => sel b.1 := by
    rw [List.filter_eq_self]
    intro b hb
    rw [leveled_length]
    exact decide_eq_true (level_lt (List.mem_of_mem_filter hb))
  have hflat := flatMap_level_of_ascending h (leveled clash l).length
  rw [hbound] at hflat
  have hmap := congrArg (List.map Prod.fst) hflat
  rw [List.map_flatMap] at hmap
  have hsel : l.filter sel = ((leveled clash l).filter fun b => sel b.1).map Prod.fst := by
    have hfst : (leveled clash l).map Prod.fst = l := leveled_map_fst l
    conv_lhs => rw [← hfst]
    rw [List.filter_map]
    rfl
  unfold byLevel
  rw [hsel, ← hmap, List.filter_flatMap]
  congr 1
  funext n
  rw [List.filter_map, List.filter_filter, List.filter_filter]
  congr 2
  funext b
  exact Bool.and_comm _ _

/-! ## When levels ascend along every clash -/

/-- With a number every smaller number is used. -/
def Gapless (used : List ℕ) : Prop := ∀ n ∈ used, ∀ m < n, m ∈ used

theorem forall_lt_leastFree_iff {used : List ℕ} :
    (∀ n ∈ used, n < leastFree used) ↔ Gapless used := by
  obtain ⟨hfree, hbelow⟩ := leastFree_eq_iff.mp (Eq.refl (leastFree used))
  constructor
  · intro h n hn m hm
    exact hbelow m (hm.trans (h n hn))
  · intro h n hn
    by_contra hle
    cases (Nat.not_lt.mp hle).eq_or_lt with
    | inl heq => exact hfree (heq ▸ hn)
    | inr hlt => exact hfree (h n hn _ hlt)

/-- The length of the longest chain of clashes that ends at an item: one more
than the greatest depth of an earlier item it clashes with. -/
def depthOf (clash : α → α → Prop) [DecidableRel clash] (earlier : List (α × ℕ)) (a : α) : ℕ :=
  ((taken clash earlier a).map (· + 1)).foldr max 0

/-- The items with their depths, in the order in which they came. -/
def deepened (clash : α → α → Prop) [DecidableRel clash] (l : List α) : List (α × ℕ) :=
  l.foldl (fun earlier a => earlier ++ [(a, depthOf clash earlier a)]) []

theorem deepened_concat (l : List α) (a : α) :
    deepened clash (l ++ [a]) =
      deepened clash l ++ [(a, depthOf clash (deepened clash l) a)] := by
  unfold deepened
  rw [List.foldl_append]
  rfl

theorem leastFree_eq_max {used : List ℕ} (h : Gapless used) :
    leastFree used = (used.map (· + 1)).foldr max 0 := by
  have hlt := forall_lt_leastFree_iff.mpr h
  obtain ⟨-, hbelow⟩ := leastFree_eq_iff.mp (Eq.refl (leastFree used))
  apply le_antisymm
  · cases hf : leastFree used with
    | zero => exact Nat.zero_le _
    | succ n =>
        have hn := hbelow n (by omega)
        exact List.le_max_of_le (List.mem_map.mpr ⟨n, hn, rfl⟩) le_rfl
  · apply List.max_le_of_forall_le
    intro m hm
    obtain ⟨n, hn, rfl⟩ := List.mem_map.mp hm
    exact hlt n hn

/-- Along every clash the level ascends. -/
def Ordered (clash : α → α → Prop) (p : List (α × ℕ)) : Prop :=
  p.Pairwise fun a b => clash a.1 b.1 → a.2 < b.2

theorem ordered_concat {p : List (α × ℕ)} {a : α} :
    Ordered clash (p ++ [(a, levelOf clash p a)]) ↔
      Ordered clash p ∧ Gapless (taken clash p a) := by
  unfold Ordered
  rw [List.pairwise_append, ← forall_lt_leastFree_iff]
  simp only [List.pairwise_singleton, true_and, List.mem_singleton, forall_eq, mem_taken]
  refine and_congr_right fun _ => ⟨fun h n hn => ?_, fun h b hb hclash => ?_⟩
  · obtain ⟨b, hb, hclash⟩ := hn
    exact h (b, n) hb hclash
  · exact h b.2 ⟨b.1, hb, hclash⟩

/-- Where the levels ascend along every clash, they are the depths. -/
theorem leveled_eq_deepened {l : List α} (h : Ordered clash (leveled clash l)) :
    leveled clash l = deepened clash l := by
  induction l using List.reverseRecOn with
  | nil => rfl
  | append_singleton l a ih =>
      rw [leveled_concat, ordered_concat] at h
      have hmax : levelOf clash (leveled clash l) a = depthOf clash (leveled clash l) a :=
        leastFree_eq_max h.2
      rw [leveled_concat, deepened_concat, ← ih h.1, hmax]

/-- The levels ascend along every clash exactly when no item skips a depth among
the earlier items it clashes with. -/
theorem ordered_leveled_iff (l : List α) :
    Ordered clash (leveled clash l) ↔
      ∀ before a, before ++ [a] <+: l → Gapless (taken clash (deepened clash before) a) := by
  induction l using List.reverseRecOn with
  | nil =>
      refine iff_of_true List.Pairwise.nil fun before a h => ?_
      simp at h
  | append_singleton l a ih =>
      rw [leveled_concat, ordered_concat]
      constructor
      · intro h before b hb
        obtain ⟨hord, hgap⟩ := h
        rw [leveled_eq_deepened hord] at hgap
        cases List.prefix_concat_iff.mp hb with
        | inl heq =>
            obtain ⟨hbefore, hlast⟩ := List.append_inj' heq rfl
            cases hbefore
            cases hlast
            exact hgap
        | inr hpre => exact ih.mp hord before b hpre
      · intro h
        have hord := ih.mpr fun before b hb => h before b (hb.trans (List.prefix_append l [a]))
        refine ⟨hord, ?_⟩
        rw [leveled_eq_deepened hord]
        exact h l a (List.prefix_refl _)

/-- The level of an item is given by the items before it. -/
theorem getElem?_leveled {l : List α} {i : ℕ} {a : α} (h : l[i]? = some a) :
    (leveled clash l)[i]? = some (a, levelOf clash (leveled clash (l.take i)) a) := by
  induction l using List.reverseRecOn with
  | nil => cases h
  | append_singleton l b ih =>
      rw [leveled_concat]
      cases Nat.lt_or_ge i l.length with
      | inl hlt =>
          rw [List.getElem?_append_left hlt] at h
          rw [List.getElem?_append_left (by rwa [leveled_length]), ih h,
            List.take_append_of_le_length hlt.le]
      | inr hge =>
          rw [List.getElem?_append_right hge] at h
          obtain ⟨hi, hb⟩ := List.getElem?_eq_some_iff.mp h
          have hlen : i = l.length := by
            simp only [List.length_singleton] at hi
            omega
          subst hlen
          simp only [Nat.sub_self, List.getElem_cons_zero] at hb
          subst hb
          rw [List.getElem?_append_right (by rw [leveled_length]), leveled_length, Nat.sub_self,
            List.take_left]
          rfl

end Levels

end Layering
