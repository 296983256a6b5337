import Mathlib

/-!
# Runs of a deterministic system

A system is a function `exec` that executes a label in a state and gives an
outcome and the next state.  A *run* is the list of the labels executed so far,
newest first, so that a run is extended at its head and an induction on the list
is an induction on time.  `final` is the state a run ends in and `trace` the
list of its events, each with the states before and after it.

`invariant` is the induction rule: what holds of the empty run and is kept by
one more label holds of every run.
-/

namespace Machine

universe u v w

variable {σ : Type u} {L : Type v} {ρ : Type w} (exec : L → σ → ρ × σ)

/-- One executed label, with its outcome and the states around it. -/
structure Event (σ : Type u) (L : Type v) (ρ : Type w) where
  /-- The state the label was executed in. -/
  before : σ
  /-- The label. -/
  label : L
  /-- How it ended. -/
  outcome : ρ
  /-- The state it left. -/
  after : σ

/-- The event of executing a label in a state. -/
def event (s : σ) (l : L) : Event σ L ρ := ⟨s, l, (exec l s).1, (exec l s).2⟩

/-- The state a run ends in. -/
def final (s₀ : σ) : List L → σ
  | [] => s₀
  | l :: past => (exec l (final s₀ past)).2

/-- The events of a run, newest first. -/
def trace (s₀ : σ) : List L → List (Event σ L ρ)
  | [] => []
  | l :: past => event exec (final exec s₀ past) l :: trace s₀ past

variable {exec}

@[simp] theorem final_nil (s₀ : σ) : final exec s₀ [] = s₀ := rfl

@[simp] theorem final_cons (s₀ : σ) (l : L) (past : List L) :
    final exec s₀ (l :: past) = (exec l (final exec s₀ past)).2 := rfl

@[simp] theorem trace_nil (s₀ : σ) : trace exec s₀ [] = [] := rfl

@[simp] theorem trace_cons (s₀ : σ) (l : L) (past : List L) :
    trace exec s₀ (l :: past) = event exec (final exec s₀ past) l :: trace exec s₀ past := rfl

theorem final_append (s₀ : σ) (later past : List L) :
    final exec s₀ (later ++ past) = final exec (final exec s₀ past) later := by
  induction later with
  | nil => rfl
  | cons l later ih => exact congrArg (fun s => (exec l s).2) ih

/-- An event in a trace is the execution of its label after the labels before it. -/
theorem trace_split {s₀ : σ} {past : List L} {later earlier : List (Event σ L ρ)}
    {e : Event σ L ρ} (h : trace exec s₀ past = later ++ e :: earlier) :
    ∃ newer older, past = newer ++ e.label :: older ∧ earlier = trace exec s₀ older ∧
      e = event exec (final exec s₀ older) e.label := by
  induction past generalizing later with
  | nil => simp at h
  | cons l past ih =>
      cases later with
      | nil =>
          cases h
          exact ⟨[], past, rfl, rfl, rfl⟩
      | cons e' later =>
          obtain ⟨newer, older, hp, hearlier, hev⟩ := ih (List.cons.inj h).2
          exact ⟨l :: newer, older, by rw [hp]; rfl, hearlier, hev⟩

/-- An event of a run is the execution of one of its labels after the labels
before it. -/
theorem mem_trace {s₀ : σ} {past : List L} {e : Event σ L ρ} (h : e ∈ trace exec s₀ past) :
    ∃ later earlier, past = later ++ e.label :: earlier ∧
      e = event exec (final exec s₀ earlier) e.label := by
  obtain ⟨later, earlier, h⟩ := List.append_of_mem h
  obtain ⟨newer, older, hp, -, hev⟩ := trace_split h
  exact ⟨newer, older, hp, hev⟩

/-- The events of a run so far stay in it. -/
theorem trace_suffix {s₀ : σ} {past run : List L} (h : past <:+ run) :
    trace exec s₀ past <:+ trace exec s₀ run := by
  obtain ⟨later, rfl⟩ := h
  induction later with
  | nil => exact List.suffix_rfl
  | cons l later ih => exact ih.trans (List.suffix_cons _ _)

theorem label_mem {s₀ : σ} {past : List L} {e : Event σ L ρ} (h : e ∈ trace exec s₀ past) :
    e.label ∈ past := by
  obtain ⟨later, earlier, hp, -⟩ := mem_trace h
  rw [hp]
  exact List.mem_append_right later List.mem_cons_self

/-- What holds of the empty run and is kept by one more label holds of every
run. -/
theorem invariant {s₀ : σ} (I : List (Event σ L ρ) → σ → Prop) (h₀ : I [] s₀)
    (hstep : ∀ tr s l, I tr s → I (event exec s l :: tr) (exec l s).2) (past : List L) :
    I (trace exec s₀ past) (final exec s₀ past) := by
  induction past with
  | nil => exact h₀
  | cons l past ih => exact hstep _ _ l ih

/-- The same for an invariant that needs an assumption on the whole run, when a
run that meets the assumption still meets it without its last label. -/
theorem invariant_of {s₀ : σ} (A : List (Event σ L ρ) → Prop) (I : List (Event σ L ρ) → σ → Prop)
    (hA : ∀ e tr, A (e :: tr) → A tr) (h₀ : I [] s₀)
    (hstep : ∀ tr s l, A (event exec s l :: tr) → I tr s →
      I (event exec s l :: tr) (exec l s).2) (past : List L)
    (h : A (trace exec s₀ past)) : I (trace exec s₀ past) (final exec s₀ past) := by
  induction past with
  | nil => exact h₀
  | cons l past ih => exact hstep _ _ l h (ih (hA _ _ h))

/-- Every event of a run happens in a state with the invariant. -/
theorem invariant_before {s₀ : σ} (A : List (Event σ L ρ) → Prop)
    (I : List (Event σ L ρ) → σ → Prop) (hA : ∀ e tr, A (e :: tr) → A tr) (h₀ : I [] s₀)
    (hstep : ∀ tr s l, A (event exec s l :: tr) → I tr s →
      I (event exec s l :: tr) (exec l s).2) (past : List L)
    (h : A (trace exec s₀ past)) {e : Event σ L ρ} (he : e ∈ trace exec s₀ past) :
    ∃ tr, I tr e.before ∧ A (e :: tr) ∧ e = event exec e.before e.label := by
  induction past with
  | nil => cases he
  | cons l past ih =>
      cases List.mem_cons.mp he with
      | inr he => exact ih (hA _ _ h) he
      | inl he =>
          subst he
          exact ⟨_, invariant_of A I hA h₀ hstep past (hA _ _ h), h, rfl⟩

/-! ## Runs that come to rest -/

section Rest

variable {allowed : L → Prop} {works : Event σ L ρ → Bool} {μ : σ → ℕ}

/-- An event that works uses up some of a measure, and no other adds to it. -/
def UsesUp (exec : L → σ → ρ × σ) (allowed : L → Prop) (works : Event σ L ρ → Bool)
    (μ : σ → ℕ) : Prop :=
  ∀ s l, allowed l → μ (exec l s).2 + (if works (event exec s l) then 1 else 0) ≤ μ s

/-- So the measure bounds how many events work. -/
theorem UsesUp.count_le (h : UsesUp exec allowed works μ) (s₀ : σ) {more : List L}
    (hmore : ∀ l ∈ more, allowed l) :
    μ (final exec s₀ more) + (trace exec s₀ more).countP works ≤ μ s₀ := by
  induction more with
  | nil => exact le_refl (μ s₀)
  | cons l more ih =>
      obtain ⟨hl, hmore⟩ := List.forall_mem_cons.mp hmore
      have hstep := h (final exec s₀ more) l hl
      have hrest := ih hmore
      rw [trace_cons, List.countP_cons, final_cons]
      omega

/-- And some run ends where no label works. -/
theorem UsesUp.exists_rest (h : UsesUp exec allowed works μ) (s₀ : σ) :
    ∃ more, (∀ l ∈ more, allowed l) ∧ more.length ≤ μ s₀ ∧
      ∀ l, allowed l → works (event exec (final exec s₀ more) l) = false := by
  induction hn : μ s₀ using Nat.strong_induction_on generalizing s₀ with
  | _ n ih =>
      by_cases hrest : ∀ l, allowed l → works (event exec s₀ l) = false
      · exact ⟨[], List.forall_mem_nil _, Nat.zero_le n, hrest⟩
      · push Not at hrest
        obtain ⟨l, hl, hworks⟩ := hrest
        have hstep := h s₀ l hl
        rw [if_pos (Bool.not_eq_false _ ▸ hworks)] at hstep
        obtain ⟨more, hmore, hlength, hdone⟩ := ih _ (by omega) (exec l s₀).2 rfl
        refine ⟨more ++ [l], ?_, ?_, ?_⟩
        · intro l' hl'
          cases List.mem_append.mp hl' with
          | inl hl' => exact hmore l' hl'
          | inr hl' => exact List.mem_singleton.mp hl' ▸ hl
        · rw [List.length_append, List.length_singleton]
          omega
        · rw [final_append]
          exact hdone

end Rest

/-! ## The latest event of a kind -/

section Latest

variable {α : Type u} {P : α → Prop}

/-- `x` has `P`, and no newer entry of the list has. -/
def Latest (P : α → Prop) (l : List α) (x : α) : Prop :=
  ∃ newer older, l = newer ++ x :: older ∧ P x ∧ ∀ y ∈ newer, ¬ P y

theorem latest_nil {x : α} : ¬ Latest P [] x := by
  intro h
  obtain ⟨newer, older, heq, -, -⟩ := h
  exact List.append_ne_nil_of_right_ne_nil newer (List.cons_ne_nil x older) heq.symm

theorem latest_cons_of {x y : α} {l : List α} (hx : P x) : Latest P (x :: l) y ↔ y = x := by
  constructor
  · intro h
    obtain ⟨newer, older, heq, -, hnew⟩ := h
    cases newer with
    | nil =>
        cases heq
        rfl
    | cons z newer =>
        cases heq
        exact absurd hx (hnew x List.mem_cons_self)
  · intro h
    subst h
    exact ⟨[], l, rfl, hx, fun z hz => by cases hz⟩

theorem latest_cons_of_not {x y : α} {l : List α} (hx : ¬ P x) :
    Latest P (x :: l) y ↔ Latest P l y := by
  constructor
  · intro h
    obtain ⟨newer, older, heq, hy, hnew⟩ := h
    cases newer with
    | nil =>
        cases heq
        exact absurd hy hx
    | cons z newer =>
        cases heq
        exact ⟨newer, older, rfl, hy, fun w hw => hnew w (List.mem_cons_of_mem x hw)⟩
  · intro h
    obtain ⟨newer, older, heq, hy, hnew⟩ := h
    refine ⟨x :: newer, older, by rw [heq]; rfl, hy, fun w hw => ?_⟩
    cases List.mem_cons.mp hw with
    | inl hw => exact hw ▸ hx
    | inr hw => exact hnew w hw

end Latest

end Machine
