import Mathlib

/-!
# Replaying a list of actions

An action takes a state to another one, or is refused.  `Replays step l s t`
says that the actions of `l` can be taken in turn from `s` and end in `t`.

Two facts about order.  When the state is a family of cells and each action
works on one of them, a replay is the same thing as one replay per cell of the
actions on that cell (`replays_cells_iff`), so that the order matters within a
cell only.  When the actions of a cell commute, any order of them replays to the
same state (`Replays.of_perm`).

The part after that is about runs that go on after a refused action.  `attempts` tries
the actions of a list and notes the refused ones.  Actions that commute as far as
a view of the state shows are refused in any order alike, and the view in the end
is the same (`attempts_perm`, and batch by batch `attempts_batches`).

`exists_foldlM` is the rule for a loop over a list whose rounds may fail and do not,
by an invariant over the rounds done.
-/

namespace Replay

universe u v w

section Basic

variable {α : Type u} {σ : Type v} {step : α → σ → σ → Prop}

/-- The actions of a list can be taken in turn. -/
inductive Replays (step : α → σ → σ → Prop) : List α → σ → σ → Prop where
  | nil (s : σ) : Replays step [] s s
  | cons {a : α} {l : List α} {s t r : σ} (first : step a s t) (rest : Replays step l t r) :
      Replays step (a :: l) s r

theorem replays_nil {s t : σ} : Replays step [] s t ↔ s = t := by
  constructor
  · intro h
    cases h
    rfl
  · intro h
    subst h
    exact .nil s

theorem replays_cons {a : α} {l : List α} {s r : σ} :
    Replays step (a :: l) s r ↔ ∃ t, step a s t ∧ Replays step l t r := by
  constructor
  · intro h
    cases h with
    | cons first rest => exact ⟨_, first, rest⟩
  · intro h
    obtain ⟨t, first, rest⟩ := h
    exact .cons first rest

theorem replays_map {β : Type w} (f : β → α) {l : List β} {s t : σ} :
    Replays step (l.map f) s t ↔ Replays (fun b => step (f b)) l s t := by
  induction l generalizing s with
  | nil => rw [List.map_nil, replays_nil, replays_nil]
  | cons b l ih =>
      rw [List.map_cons, replays_cons, replays_cons]
      simp only [ih]

/-- Actions that commute in the states of an invariant replay in any order. -/
theorem Replays.of_perm {I : σ → Prop} (hstep : ∀ a s t, step a s t → I s → I t)
    (hswap : ∀ a b s t r, I s → step a s t → step b t r → ∃ t', step b s t' ∧ step a t' r)
    {l l' : List α} (hp : l.Perm l') {s t : σ} (hs : I s) (h : Replays step l s t) :
    Replays step l' s t := by
  induction hp generalizing s t with
  | nil => exact h
  | cons a _ ih =>
      obtain ⟨r, first, rest⟩ := replays_cons.mp h
      exact .cons first (ih (hstep a s r first hs) rest)
  | swap a b l =>
      obtain ⟨r, first, h⟩ := replays_cons.mp h
      obtain ⟨r', second, rest⟩ := replays_cons.mp h
      obtain ⟨q, second', first'⟩ := hswap b a s r r' hs first second
      exact .cons second' (.cons first' rest)
  | trans _ _ ih₁ ih₂ => exact ih₂ hs (ih₁ hs h)

end Basic

/-! ## A state of cells -/

section Cells

variable {α : Type u} {K : Type v} [DecidableEq K] {V : K → Type w} (key : α → K)
  (act : (k : K) → α → V k → V k → Prop)

/-- The actions on one cell, in their order. -/
def actionsAt (k : K) (l : List α) : List α := l.filter fun a => key a = k

/-- An action works on its own cell and leaves the others. -/
structure OnCell (a : α) (f g : (k : K) → V k) : Prop where
  acts : act (key a) a (f (key a)) (g (key a))
  frame : ∀ k, k ≠ key a → g k = f k

variable {key act}

theorem actionsAt_cons_self (a : α) (l : List α) :
    actionsAt key (key a) (a :: l) = a :: actionsAt key (key a) l := by
  unfold actionsAt
  rw [List.filter_cons_of_pos (by simp)]

theorem actionsAt_cons_ne {k : K} {a : α} (h : k ≠ key a) (l : List α) :
    actionsAt key k (a :: l) = actionsAt key k l := by
  unfold actionsAt
  rw [List.filter_cons_of_neg (by simpa using Ne.symm h)]

/-- A replay is one replay per cell. -/
theorem replays_cells_iff {l : List α} {f g : (k : K) → V k} :
    Replays (OnCell key act) l f g ↔ ∀ k, Replays (act k) (actionsAt key k l) (f k) (g k) := by
  induction l generalizing f with
  | nil =>
      constructor
      · intro h k
        rw [replays_nil.mp h]
        exact .nil _
      · intro h
        exact replays_nil.mpr (funext fun k => replays_nil.mp (h k))
  | cons a l ih =>
      constructor
      · intro h k
        obtain ⟨f', ⟨hact, hframe⟩, rest⟩ := replays_cons.mp h
        have hk := ih.mp rest k
        by_cases hka : k = key a
        · subst hka
          rw [actionsAt_cons_self]
          exact .cons hact hk
        · rw [actionsAt_cons_ne hka, ← hframe k hka]
          exact hk
      · intro h
        have hself := h (key a)
        rw [actionsAt_cons_self] at hself
        obtain ⟨v, hact, rest⟩ := replays_cons.mp hself
        refine replays_cons.mpr ⟨Function.update f (key a) v, ⟨?_, ?_⟩, ih.mpr ?_⟩
        · rw [Function.update_self]
          exact hact
        · intro k hk
          exact Function.update_of_ne hk v f
        · intro k
          by_cases hka : k = key a
          · subst hka
            rw [Function.update_self]
            exact rest
          · rw [Function.update_of_ne hka]
            have hk := h k
            rwa [actionsAt_cons_ne hka] at hk

end Cells

/-! ## Going on after a refused action -/

section Attempts

variable {α : Type u} {σ : Type v} {γ : Type w} (exec : α → σ → Bool × σ)

/-- Try the actions of a list in turn and note those that are refused. -/
def attempts : List α → σ → List α × σ
  | [], s => ([], s)
  | a :: l, s =>
      let rest := attempts l (exec a s).2
      (if (exec a s).1 then rest.1 else a :: rest.1, rest.2)

/-- In the states of an invariant, what an action does is given by a view of the
state, as far as the view shows. -/
structure Observed (I : σ → Prop) (view : σ → γ) : Prop where
  kept : ∀ a s, I s → I (exec a s).2
  outcome : ∀ a s t, I s → I t → view s = view t → (exec a s).1 = (exec a t).1
  viewed : ∀ a s t, I s → I t → view s = view t → view (exec a s).2 = view (exec a t).2

/-- Neither action changes whether the other is refused, and the view does not
show their order. -/
structure Commutes (I : σ → Prop) (view : σ → γ) (a b : α) : Prop where
  left : ∀ s, I s → (exec a (exec b s).2).1 = (exec a s).1
  right : ∀ s, I s → (exec b (exec a s).2).1 = (exec b s).1
  viewed : ∀ s, I s → view (exec b (exec a s).2).2 = view (exec a (exec b s).2).2

variable {exec} {I : σ → Prop} {view : σ → γ}

theorem Commutes.symm {a b : α} (h : Commutes exec I view a b) : Commutes exec I view b a :=
  ⟨h.right, h.left, fun s hs => (h.viewed s hs).symm⟩

theorem attempts_append (l l' : List α) (s : σ) :
    attempts exec (l ++ l') s =
      ((attempts exec l s).1 ++ (attempts exec l' (attempts exec l s).2).1,
        (attempts exec l' (attempts exec l s).2).2) := by
  induction l generalizing s with
  | nil => rfl
  | cons a l ih =>
      simp only [List.cons_append, attempts, ih]
      split
      · rfl
      · rfl

theorem attempts_kept (h : Observed exec I view) (l : List α) {s : σ} (hs : I s) :
    I (attempts exec l s).2 := by
  induction l generalizing s with
  | nil => exact hs
  | cons a l ih => exact ih (h.kept a s hs)

/-- The view decides which actions are refused. -/
theorem attempts_congr (h : Observed exec I view) (l : List α) {s t : σ} (hs : I s) (ht : I t)
    (hview : view s = view t) :
    (attempts exec l s).1 = (attempts exec l t).1 ∧
      view (attempts exec l s).2 = view (attempts exec l t).2 := by
  induction l generalizing s t with
  | nil => exact ⟨rfl, hview⟩
  | cons a l ih =>
      obtain ⟨hrefused, hafter⟩ :=
        ih (h.kept a s hs) (h.kept a t ht) (h.viewed a s t hs ht hview)
      refine ⟨?_, hafter⟩
      simp only [attempts]
      rw [hrefused, h.outcome a s t hs ht hview]

/-- Actions that commute can be tried in any order. -/
theorem attempts_perm (h : Observed exec I view) {l l' : List α} (hp : l.Perm l')
    (hcomm : l.Pairwise (Commutes exec I view)) {s : σ} (hs : I s) :
    (attempts exec l s).1.Perm (attempts exec l' s).1 ∧
      view (attempts exec l s).2 = view (attempts exec l' s).2 := by
  induction hp generalizing s with
  | nil => exact ⟨.refl _, rfl⟩
  | cons a _ ih =>
      obtain ⟨hrefused, hview⟩ := ih hcomm.of_cons (h.kept a s hs)
      refine ⟨?_, hview⟩
      simp only [attempts]
      split
      · exact hrefused
      · exact hrefused.cons a
  | swap a b l =>
      have hc : Commutes exec I view b a :=
        List.rel_of_pairwise_cons hcomm List.mem_cons_self
      have hrest := attempts_congr h l (h.kept a _ (h.kept b s hs)) (h.kept b _ (h.kept a s hs))
        (hc.viewed s hs)
      refine ⟨?_, hrest.2⟩
      simp only [attempts]
      rw [hc.left s hs, hc.right s hs, hrest.1]
      split
      · exact .refl _
      · split
        · exact .refl _
        · exact .swap _ _ _
  | trans hp₁ _ ih₁ ih₂ =>
      have hcomm₂ := (hp₁.pairwise_iff Commutes.symm).mp hcomm
      obtain ⟨hrefused₁, hview₁⟩ := ih₁ hcomm hs
      obtain ⟨hrefused₂, hview₂⟩ := ih₂ hcomm₂ hs
      exact ⟨hrefused₁.trans hrefused₂, hview₁.trans hview₂⟩

/-- Batches of actions that commute can be tried in any order within each batch. -/
theorem attempts_batches (h : Observed exec I view) {orders batches : List (List α)}
    (hp : List.Forall₂ List.Perm orders batches)
    (hcomm : ∀ batch ∈ batches, batch.Pairwise (Commutes exec I view)) {s t : σ} (hs : I s)
    (ht : I t) (hview : view s = view t) :
    (attempts exec orders.flatten s).1.Perm (attempts exec batches.flatten t).1 ∧
      view (attempts exec orders.flatten s).2 = view (attempts exec batches.flatten t).2 := by
  induction hp generalizing s t with
  | nil => exact ⟨.refl _, hview⟩
  | @cons order batch orders batches hperm _ ih =>
      obtain ⟨hbatch, hbatches⟩ := List.forall_mem_cons.mp hcomm
      have horder := (hperm.pairwise_iff Commutes.symm).mpr hbatch
      obtain ⟨hrefused, hafter⟩ := attempts_perm h hperm horder hs
      obtain ⟨hsame, hseen⟩ := attempts_congr h batch hs ht hview
      obtain ⟨hlater, hend⟩ := ih hbatches (attempts_kept h order hs) (attempts_kept h batch ht)
        (hafter.trans hseen)
      rw [List.flatten_cons, List.flatten_cons, attempts_append, attempts_append]
      exact ⟨(hrefused.trans (.of_eq hsame)).append hlater, hend⟩

end Attempts

/-! ## Loops that do not fail -/

section Loop

variable {α : Type u} {σ : Type v}

/-- If each round succeeds after the rounds before it, the loop does. -/
theorem exists_foldlM {f : σ → α → Option σ} (I : List α → σ → Prop) {l : List α} {s : σ}
    (h₀ : I [] s)
    (hstep : ∀ done a rest t, l = done ++ a :: rest → I done t →
      ∃ t', f t a = some t' ∧ I (done ++ [a]) t') :
    ∃ t, l.foldlM f s = some t ∧ I l t := by
  induction l using List.reverseRecOn with
  | nil => exact ⟨s, rfl, h₀⟩
  | append_singleton l a ih =>
      obtain ⟨t, ht, hI⟩ := ih fun done b rest t hl hI =>
        hstep done b (rest ++ [a]) t (by rw [hl, List.append_assoc]; rfl) hI
      obtain ⟨t', ht', hI'⟩ := hstep l a [] t rfl hI
      refine ⟨t', ?_, hI'⟩
      rw [List.foldlM_append, ht]
      show [a].foldlM f t = some t'
      rw [List.foldlM_cons, ht']
      rfl

end Loop

end Replay
