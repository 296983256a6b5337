import Mathlib

/-!
# Counted loops

A `for` loop with a counter of any type, and the sweep of a body over consecutive
natural numbers.  The body is a program over a state that can fail.  `loop_eq_sweep`
turns the first into the second: what it needs, `Counts`, is that the counter runs
through a sequence on which the condition holds and then fails.

`sweep_blocks` unrolls: a sweep of a body is a sweep of blocks of it.  `sweep_rule` is
the rule of the loop invariant.
-/

namespace CountedLoop

variable {σ ι : Type}

/-- `for(; cond; i = next i) body` for a counter `i`.  The result is the last value of
the counter.  A loop that runs out of rounds fails. -/
def loop (cond : ι → Bool) (next : ι → ι) (body : ι → StateT σ Option Unit) :
    ℕ → ι → StateT σ Option ι
  | 0, _ => fun _ => none
  | rounds + 1, i =>
      if cond i then do
        body i
        loop cond next body rounds (next i)
      else pure i

/-- The body at `count` numbers, from `start` on. -/
def sweep (body : ℕ → StateT σ Option Unit) : ℕ → ℕ → StateT σ Option Unit
  | _, 0 => pure ()
  | start, count + 1 => do
      body start
      sweep body (start + 1) count

variable {body : ℕ → StateT σ Option Unit} {start count : ℕ}

@[simp] theorem sweep_zero (body : ℕ → StateT σ Option Unit) (start : ℕ) :
    sweep body start 0 = pure () := rfl

theorem sweep_succ (body : ℕ → StateT σ Option Unit) (start count : ℕ) :
    sweep body start (count + 1) = (do body start; sweep body (start + 1) count) := rfl

theorem sweep_congr {body' : ℕ → StateT σ Option Unit}
    (h : ∀ i, start ≤ i → i < start + count → body i = body' i) :
    sweep body start count = sweep body' start count := by
  induction count generalizing start with
  | zero => rfl
  | succ count ih =>
      rw [sweep_succ, sweep_succ, h start (Nat.le_refl _) (by omega)]
      rw [ih fun i hlo hhi => h i (by omega) (by omega)]

theorem sweep_one (body : ℕ → StateT σ Option Unit) (start : ℕ) :
    sweep body start 1 = body start := by
  rw [sweep_succ, sweep_zero]
  exact bind_pure (body start)

theorem sweep_two (body : ℕ → StateT σ Option Unit) (start : ℕ) :
    sweep body start 2 = (do body start; body (start + 1)) := by
  rw [sweep_succ, sweep_one]

theorem sweep_add (body : ℕ → StateT σ Option Unit) (start first second : ℕ) :
    sweep body start (first + second) =
      (do sweep body start first; sweep body (start + first) second) := by
  induction first generalizing start with
  | zero => rw [sweep_zero, pure_bind, Nat.zero_add, Nat.add_zero]
  | succ first ih =>
      have hend : start + (first + 1) = start + 1 + first := by omega
      rw [Nat.add_right_comm, sweep_succ, ih, sweep_succ, bind_assoc, hend]

/-- A sweep is a sweep of blocks of `size` steps each. -/
theorem sweep_blocks (body : ℕ → StateT σ Option Unit) (size start count : ℕ) :
    sweep (fun k => sweep body (size * k) size) start count =
      sweep body (size * start) (size * count) := by
  induction count generalizing start with
  | zero => rfl
  | succ count ih =>
      rw [sweep_succ, ih, Nat.mul_succ, Nat.mul_succ, Nat.add_comm (size * count), sweep_add]

/-- From `idx start` on the counter runs through `idx`, and after `count` steps the
condition fails for the first time. -/
structure Counts (cond : ι → Bool) (next : ι → ι) (idx : ℕ → ι) (start count : ℕ) : Prop where
  next_idx : ∀ k, next (idx k) = idx (k + 1)
  goes : ∀ k, start ≤ k → k < start + count → cond (idx k) = true
  stops : cond (idx (start + count)) = false

variable {cond : ι → Bool} {next : ι → ι} {idx : ℕ → ι} {rounds : ℕ}

theorem Counts.tail (h : Counts cond next idx start (count + 1)) :
    Counts cond next idx (start + 1) count where
  next_idx := h.next_idx
  goes k hlo hhi := h.goes k (by omega) (by omega)
  stops := by
    have hend : start + 1 + count = start + (count + 1) := by omega
    rw [hend]
    exact h.stops

theorem loop_eq_sweep (h : Counts cond next idx start count) (body : ι → StateT σ Option Unit)
    (hrounds : count < rounds) :
    loop cond next body rounds (idx start) =
      (do sweep (fun k => body (idx k)) start count; pure (idx (start + count))) := by
  induction count generalizing start rounds with
  | zero =>
      obtain ⟨rest, rfl⟩ := Nat.exists_eq_succ_of_ne_zero (Nat.ne_of_gt hrounds)
      have hstop : cond (idx start) = false := h.stops
      rw [loop, hstop, if_neg Bool.false_ne_true, sweep_zero, pure_bind, Nat.add_zero]
  | succ count ih =>
      obtain ⟨rest, rfl⟩ := Nat.exists_eq_succ_of_ne_zero (Nat.ne_of_gt (Nat.zero_lt_of_lt hrounds))
      have hend : start + (count + 1) = start + 1 + count := by omega
      rw [loop, h.goes start (Nat.le_refl _) (by omega), if_pos rfl, h.next_idx,
        ih h.tail (Nat.lt_of_succ_lt_succ hrounds), sweep_succ, bind_assoc, hend]

/-- A sweep keeps an invariant that every step keeps, and finishes when every step
does. -/
theorem sweep_rule (inv : ℕ → σ → Prop)
    (step : ∀ k s, start ≤ k → k < start + count → inv k s →
      ∃ s', body k s = some ((), s') ∧ inv (k + 1) s')
    {s : σ} (hs : inv start s) :
    ∃ s', sweep body start count s = some ((), s') ∧ inv (start + count) s' := by
  induction count generalizing start s with
  | zero => exact ⟨s, rfl, hs⟩
  | succ count ih =>
      obtain ⟨s₁, hrun, hs₁⟩ := step start s (Nat.le_refl _) (by omega) hs
      obtain ⟨s₂, hrest, hs₂⟩ := ih (fun k s hlo hhi => step k s (by omega) (by omega)) hs₁
      refine ⟨s₂, ?_, ?_⟩
      · show (body start s).bind _ = _
        rw [hrun]
        exact hrest
      · have hend : start + (count + 1) = start + 1 + count := by omega
        rw [hend]
        exact hs₂

end CountedLoop
