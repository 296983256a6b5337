import Mathlib

/-!
# Rules for programs with state and failure

A program over a state that may fail and that keeps what it wrote before the
failure is an `EStateM`.  The lemmas here take a finished run of such a program
apart: from `(x >>= f) s = .ok b s'` they give the run of `x` and the run of
`f`, and from a failed run the place where it failed.

`failIf` is the guard.  `FailsWithin R P` says that a failed run ends in a state
related by `R` to the one it started in and fails with an error that has `P`;
`failsWithin_bind` carries it through a program.

`Alike R` compares the ends of two programs over different states: the same value
or the same failure, in states related by `R`.
-/

namespace EState

universe u

variable {ε σ α β : Type u}

/-! ## Taking a run apart -/

/-- The run finished. -/
def finished : EStateM.Result ε σ α → Bool
  | .ok _ _ => true
  | .error _ _ => false

theorem bind_ok {x : EStateM ε σ α} {f : α → EStateM ε σ β} {s t : σ} {b : β} :
    (x >>= f) s = .ok b t ↔ ∃ a r, x s = .ok a r ∧ f a r = .ok b t := by
  show EStateM.bind x f s = _ ↔ _
  unfold EStateM.bind
  cases x s with
  | ok a r => simp
  | error e r => simp

/-- A sequence whose first part finished goes on with its second part. -/
theorem bind_of_ok {x : EStateM ε σ α} {f : α → EStateM ε σ β} {s t : σ} {a : α}
    (h : x s = .ok a t) : (x >>= f) s = f a t := by
  show EStateM.bind x f s = _
  simp only [EStateM.bind, h]

theorem bind_error {x : EStateM ε σ α} {f : α → EStateM ε σ β} {s t : σ} {e : ε} :
    (x >>= f) s = .error e t ↔
      x s = .error e t ∨ ∃ a r, x s = .ok a r ∧ f a r = .error e t := by
  show EStateM.bind x f s = _ ↔ _
  unfold EStateM.bind
  cases x s with
  | ok a r => simp
  | error e r => simp

theorem pure_ok {s t : σ} {a b : α} : (pure a : EStateM ε σ α) s = .ok b t ↔ a = b ∧ s = t := by
  show EStateM.Result.ok a s = _ ↔ _
  simp

theorem pure_error {s t : σ} {a : α} {e : ε} :
    (pure a : EStateM ε σ α) s = .error e t ↔ False := by
  show EStateM.Result.ok a s = _ ↔ _
  simp

theorem throw_ok {s t : σ} {e : ε} {b : α} :
    (throw e : EStateM ε σ α) s = .ok b t ↔ False := by
  show EStateM.Result.error e s = _ ↔ _
  simp

theorem throw_error {s t : σ} {e e' : ε} :
    (throw e : EStateM ε σ α) s = .error e' t ↔ e = e' ∧ s = t := by
  show EStateM.Result.error e s = _ ↔ _
  simp

theorem get_ok {s t a : σ} : (get : EStateM ε σ σ) s = .ok a t ↔ s = a ∧ s = t := by
  show EStateM.Result.ok s s = _ ↔ _
  simp

theorem get_error {s t : σ} {e : ε} : (get : EStateM ε σ σ) s = .error e t ↔ False := by
  show EStateM.Result.ok s s = _ ↔ _
  simp

/-- A program that starts by reading the state. -/
theorem get_bind_ok {f : σ → EStateM ε σ β} {s t : σ} {b : β} :
    ((get : EStateM ε σ σ) >>= f) s = .ok b t ↔ f s s = .ok b t := Iff.rfl

theorem modify_ok {s t : σ} {f : σ → σ} {u : PUnit} :
    (modify f : EStateM ε σ PUnit) s = .ok u t ↔ f s = t := by
  show EStateM.Result.ok PUnit.unit (f s) = _ ↔ _
  simp

theorem modify_error {s t : σ} {f : σ → σ} {e : ε} :
    (modify f : EStateM ε σ PUnit) s = .error e t ↔ False := by
  show EStateM.Result.ok PUnit.unit (f s) = _ ↔ _
  simp

/-! ## Guards -/

/-- Fail with `e` when `c` holds. -/
def failIf (c : Prop) [Decidable c] (e : ε) : EStateM ε σ PUnit :=
  if c then throw e else pure PUnit.unit

theorem failIf_ok {c : Prop} [Decidable c] {e : ε} {s t : σ} {u : PUnit} :
    failIf c e s = .ok u t ↔ ¬ c ∧ s = t := by
  unfold failIf
  split
  · next h => simp [throw_ok, h]
  · next h => simp [pure_ok, h]

/-- A guard and what follows it. -/
theorem failIf_bind_ok {c : Prop} [Decidable c] {e : ε} {f : PUnit → EStateM ε σ β} {s t : σ}
    {b : β} : (failIf c e >>= f) s = .ok b t ↔ ¬ c ∧ f PUnit.unit s = .ok b t := by
  simp only [bind_ok, failIf_ok]
  constructor
  · rintro ⟨_, _, ⟨hc, rfl⟩, hf⟩
    exact ⟨hc, hf⟩
  · rintro ⟨hc, hf⟩
    exact ⟨_, _, ⟨hc, rfl⟩, hf⟩

theorem failIf_error {c : Prop} [Decidable c] {e e' : ε} {s t : σ} :
    failIf c e s = .error e' t ↔ c ∧ e = e' ∧ s = t := by
  unfold failIf
  split
  · next h => simp [throw_error, h]
  · next h => simp [pure_error, h]

/-! ## How a run fails

`R` relates the state before a program to the state after it and `P` is a
property of the failure.  `FailsWithin` speaks of the runs that fail only;
`Guards` also asks of the runs that finish to stay within `R`, which is what the
first part of a sequence has to give. -/

section Fails

variable (R : σ → σ → Prop) (P : ε → Prop)

/-- Every run that fails stays within `R` and fails with `P`. -/
def FailsWithin (x : EStateM ε σ α) : Prop := ∀ s e t, x s = .error e t → R s t ∧ P e

/-- Every run stays within `R`, and one that fails does so with `P`. -/
structure Guards (x : EStateM ε σ α) : Prop where
  moves : ∀ s a t, x s = .ok a t → R s t
  fails : FailsWithin R P x

/-- The program never fails. -/
def Total (x : EStateM ε σ α) : Prop := ∀ s, ∃ a t, x s = .ok a t

variable {R P}

theorem total_modify (f : σ → σ) : Total (modify f : EStateM ε σ PUnit) :=
  fun s => ⟨PUnit.unit, f s, rfl⟩

theorem total_bind {x : EStateM ε σ α} {f : α → EStateM ε σ β} (hx : Total x)
    (hf : ∀ a, Total (f a)) : Total (x >>= f) := by
  intro s
  obtain ⟨a, r, ha⟩ := hx s
  obtain ⟨b, t, hb⟩ := hf a r
  exact ⟨b, t, bind_ok.mpr ⟨a, r, ha, hb⟩⟩

theorem failsWithin_of_total {x : EStateM ε σ α} (hx : Total x) : FailsWithin R P x := by
  intro s e t h
  obtain ⟨a, r, ha⟩ := hx s
  rw [ha] at h
  cases h

/-- The rule for a sequence.  The second part is only reached with a value the
first part returns. -/
theorem failsWithin_bind_of (htrans : ∀ s t r, R s t → R t r → R s r) {x : EStateM ε σ α}
    {f : α → EStateM ε σ β} (hx : Guards R P x)
    (hf : ∀ a s r, x s = .ok a r → FailsWithin R P (f a)) : FailsWithin R P (x >>= f) := by
  intro s e t h
  cases bind_error.mp h with
  | inl h' => exact hx.fails s e t h'
  | inr h' =>
      obtain ⟨a, r, ha, he⟩ := h'
      obtain ⟨hr, hp⟩ := hf a s r ha r e t he
      exact ⟨htrans _ _ _ (hx.moves s a r ha) hr, hp⟩

theorem failsWithin_bind (htrans : ∀ s t r, R s t → R t r → R s r) {x : EStateM ε σ α}
    {f : α → EStateM ε σ β} (hx : Guards R P x) (hf : ∀ a, FailsWithin R P (f a)) :
    FailsWithin R P (x >>= f) :=
  failsWithin_bind_of htrans hx fun a _ _ _ => hf a

theorem guards_bind (htrans : ∀ s t r, R s t → R t r → R s r) {x : EStateM ε σ α}
    {f : α → EStateM ε σ β} (hx : Guards R P x) (hf : ∀ a, Guards R P (f a)) :
    Guards R P (x >>= f) := by
  refine ⟨fun s b t h => ?_, failsWithin_bind htrans hx fun a => (hf a).fails⟩
  obtain ⟨a, r, ha, hb⟩ := bind_ok.mp h
  exact htrans _ _ _ (hx.moves s a r ha) ((hf a).moves r b t hb)

theorem guards_failIf (hrefl : ∀ s, R s s) (c : Prop) [Decidable c] {e : ε} (he : P e) :
    Guards R P (failIf c e : EStateM ε σ PUnit) := by
  refine ⟨fun s a t h => ?_, fun s e' t h => ?_⟩
  · obtain ⟨-, rfl⟩ := failIf_ok.mp h
    exact hrefl s
  · obtain ⟨-, rfl, rfl⟩ := failIf_error.mp h
    exact ⟨hrefl s, he⟩

theorem guards_get (hrefl : ∀ s, R s s) : Guards R P (get : EStateM ε σ σ) := by
  refine ⟨fun s a t h => ?_, fun s e' t h => (get_error.mp h).elim⟩
  obtain ⟨-, rfl⟩ := get_ok.mp h
  exact hrefl s

end Fails

/-! ## Programs over two states -/

section Alike

variable {τ : Type u} {R : σ → τ → Prop}

/-- The two runs end with the same value or the same failure, in related
states. -/
def Alike (R : σ → τ → Prop) : EStateM.Result ε σ α → EStateM.Result ε τ α → Prop
  | .ok a s, .ok b t => a = b ∧ R s t
  | .error e s, .error e' t => e = e' ∧ R s t
  | _, _ => False

theorem alike_pure {s : σ} {t : τ} (a : α) (h : R s t) :
    Alike R ((pure a : EStateM ε σ α) s) ((pure a : EStateM ε τ α) t) := ⟨rfl, h⟩

theorem alike_throw {s : σ} {t : τ} (e : ε) (h : R s t) :
    Alike R ((throw e : EStateM ε σ α) s) ((throw e : EStateM ε τ α) t) := ⟨rfl, h⟩

/-- The two ways to end alike. -/
theorem Alike.ends {x : EStateM.Result ε σ α} {y : EStateM.Result ε τ α} (h : Alike R x y) :
    (∃ a s t, x = .ok a s ∧ y = .ok a t ∧ R s t) ∨
      ∃ e s t, x = .error e s ∧ y = .error e t ∧ R s t := by
  cases x with
  | ok a s =>
      cases y with
      | ok b t =>
          obtain ⟨rfl, hr⟩ := h
          exact Or.inl ⟨a, s, t, rfl, rfl, hr⟩
      | error e t => exact h.elim
  | error e s =>
      cases y with
      | ok b t => exact h.elim
      | error e' t =>
          obtain ⟨rfl, hr⟩ := h
          exact Or.inr ⟨e, s, t, rfl, rfl, hr⟩

theorem alike_bind {x : EStateM ε σ α} {y : EStateM ε τ α} {f : α → EStateM ε σ β}
    {g : α → EStateM ε τ β} {s : σ} {t : τ} (hx : Alike R (x s) (y t))
    (hf : ∀ a s' t', R s' t' → Alike R (f a s') (g a t')) :
    Alike R ((x >>= f) s) ((y >>= g) t) := by
  show Alike R (EStateM.bind x f s) (EStateM.bind y g t)
  unfold EStateM.bind
  cases hx.ends with
  | inl hok =>
      obtain ⟨a, s', t', hxs, hyt, hr⟩ := hok
      rw [hxs, hyt]
      exact hf a s' t' hr
  | inr herr =>
      obtain ⟨e, s', t', hxs, hyt, hr⟩ := herr
      rw [hxs, hyt]
      exact ⟨rfl, hr⟩

/-- Two programs that start by reading their states. -/
theorem alike_get_bind {f : σ → EStateM ε σ β} {g : τ → EStateM ε τ β} {s : σ} {t : τ}
    (h : Alike R (f s s) (g t t)) :
    Alike R (((get : EStateM ε σ σ) >>= f) s) (((get : EStateM ε τ τ) >>= g) t) := h

theorem alike_modify {f : σ → σ} {g : τ → τ} {s : σ} {t : τ} (h : R (f s) (g t)) :
    Alike R ((modify f : EStateM ε σ PUnit) s) ((modify g : EStateM ε τ PUnit) t) := ⟨rfl, h⟩

end Alike

end EState
