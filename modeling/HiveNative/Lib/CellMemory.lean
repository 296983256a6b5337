import Mathlib

/-!
# A memory of cells

A memory gives the allocated addresses their cells.  The address space has an end, so
an array that is there is no longer than the space.  A program over a memory has no
result when it loads or stores where nothing is allocated.

Two loads commute, and so do a load and a store that do not meet.
-/

namespace CellMemory

/-- The cells of an address space of `size` cells. -/
@[ext] structure Memory (α : Type) (size : ℕ) where
  cells : ℕ → Option α
  bounded : ∀ p, (cells p).isSome → p < size

variable {α β : Type} {size p q n : ℕ} {x : α}

namespace Memory

/-- The cells of the list, from address zero on. -/
def ofList (l : List α) (h : l.length ≤ size) : Memory α size where
  cells p := l[p]?
  bounded p hp := by
    obtain ⟨x, hx⟩ := Option.isSome_iff_exists.mp hp
    exact (List.getElem?_eq_some_iff.mp hx).1.trans_le h

/-- The memory with another value in an allocated cell. -/
def write (m : Memory α size) (p : ℕ) (x : α) (h : (m.cells p).isSome) : Memory α size where
  cells q := if q = p then some x else m.cells q
  bounded q hq := by
    split at hq
    · next heq => exact heq ▸ m.bounded p h
    · exact m.bounded q hq

/-- There is an array of `n` cells at `p`. -/
def HasArray (m : Memory α size) (p n : ℕ) : Prop := ∀ i < n, (m.cells (p + i)).isSome

variable {m : Memory α size}

theorem write_cells (h : (m.cells p).isSome) (q : ℕ) :
    (m.write p x h).cells q = if q = p then some x else m.cells q := rfl

theorem write_cells_self (h : (m.cells p).isSome) : (m.write p x h).cells p = some x := if_pos rfl

theorem write_cells_ne (h : (m.cells p).isSome) (hne : q ≠ p) :
    (m.write p x h).cells q = m.cells q := if_neg hne

/-- A write allocates nothing and frees nothing. -/
theorem write_isSome (h : (m.cells p).isSome) (q : ℕ) :
    ((m.write p x h).cells q).isSome = (m.cells q).isSome := by
  rw [write_cells]
  split
  · next heq => rw [heq, h]; rfl
  · rfl

/-- No array reaches behind the address space. -/
theorem HasArray.length_le (h : m.HasArray p n) : n ≤ size := by
  cases n with
  | zero => exact Nat.zero_le _
  | succ n =>
      have := m.bounded _ (h n (Nat.lt_succ_self n))
      omega

instance (m : Memory α size) (p n : ℕ) : Decidable (m.HasArray p n) :=
  inferInstanceAs (Decidable (∀ i < n, (m.cells (p + i)).isSome))

end Memory

/-! ## Programs -/

abbrev Program (α : Type) (size : ℕ) := StateT (Memory α size) Option

def load (p : ℕ) : Program α size α := fun m => (m.cells p).map fun x => (x, m)

def store (p : ℕ) (x : α) : Program α size Unit := fun m =>
  if h : (m.cells p).isSome then some ((), m.write p x h) else none

section Laws

variable {m : Memory α size}

theorem load_bind (p : ℕ) (k : α → Program α size β) (m : Memory α size) :
    (load p >>= k) m = (m.cells p).bind fun x => k x m := by
  show Option.bind (load p m) _ = _
  rw [load, Option.bind_map]
  rfl

theorem store_bind (h : (m.cells p).isSome) (k : Unit → Program α size β) :
    (store p x >>= k) m = k () (m.write p x h) := by
  show Option.bind (store p x m) _ = _
  rw [store, dif_pos h]
  rfl

theorem store_bind_none (h : ¬ (m.cells p).isSome) (k : Unit → Program α size β) :
    (store p x >>= k) m = none := by
  show Option.bind (store p x m) _ = _
  rw [store, dif_neg h]
  rfl

theorem run_store (h : (m.cells p).isSome) (x : α) :
    store p x m = some ((), m.write p x h) :=
  dif_pos h

theorem load_load (p q : ℕ) (k : α → α → Program α size β) :
    (do let x ← load p; let y ← load q; k x y) = (do let y ← load q; let x ← load p; k x y) := by
  funext m
  simp only [load_bind]
  cases m.cells p with
  | none => cases m.cells q <;> rfl
  | some x => rfl

/-- A load does not see a store elsewhere. -/
theorem store_load (h : p ≠ q) (x : α) (k : α → Program α size β) :
    (do store p x; let y ← load q; k y) = (do let y ← load q; store p x; k y) := by
  funext m
  rw [load_bind]
  by_cases hp : (m.cells p).isSome
  · rw [store_bind hp, load_bind, Memory.write_cells_ne hp h.symm]
    simp only [store_bind hp]
  · rw [store_bind_none hp]
    cases m.cells q with
    | none => rfl
    | some y => exact (store_bind_none hp _).symm

end Laws

end CellMemory
