import HiveNative.Util.Types
import HiveNative.Lib.OpenAddressing

/-!
# The flat hash map

`flat_hash_map` of `perf/flat_hash_map.hpp`: an open-addressing table from
strings to values with linear probing, tombstones and growth by rehashing.  The
hash function is a parameter; the source uses `xxhash64`.

The probe loops are the walks of `OpenAddressing`.  The loop of `insert` has no
bound in the source.  After one round over all slots it has seen the whole
table, and nothing it reads changes, so the model walks one round and returns
`none` where the source would loop for ever.

`insert` and `rehash` call each other.  `insertWithin` bounds how deep they nest,
and `insert` allows the two levels that occur: an insertion, and the insertions
of the rehash it starts.  `none` also stands for a deeper nesting.

Sizes and capacities are natural numbers.  A capacity above 2^63 is one that the
source never gets to: the doubling in `rehash` goes from 2^63 to zero and from
there on does not end, so there is no such map.  The key and the value left behind in a slot that
is not full are never read and are not kept.
-/

namespace HiveNative.Perf

open OpenAddressing

/-- A table from strings to values. -/
structure FlatHashMap (V : Type) where
  slots : List (Slot Bytes V)
  size : ℕ
deriving Repr, DecidableEq

namespace FlatHashMap

variable {V : Type}

def capacity (t : FlatHashMap V) : ℕ := t.slots.length

/-- `while(cap < n) cap <<= 1;` with a bound on the rounds. -/
def doubleUntil (n : ℕ) : ℕ → ℕ → ℕ
  | 0, cap => cap
  | rounds + 1, cap => if cap < n then doubleUntil n rounds (cap <<< 1) else cap

/-- The capacity that `rehash(n)` gives a table.  The capacity exceeds `n` after
at most `n` rounds. -/
def capacityFor (n : ℕ) : ℕ := doubleUntil n n 1

/-- A table of empty slots. -/
def blank (capacity : ℕ) : FlatHashMap V := ⟨List.replicate capacity .empty, 0⟩

/-- The constructor.  Its `rehash` has no slots to move. -/
def new (cap : ℕ) : FlatHashMap V := blank (capacityFor (if cap < 8 then 8 else cap))

def clear (t : FlatHashMap V) : FlatHashMap V := ⟨t.slots.map fun _ => .empty, 0⟩

/-- `i = (i + 1) & mask` -/
def nextIndex (cap i : ℕ) : ℕ := (i + 1) &&& (cap - 1)

section Hash

variable (hash : Bytes → UInt64)

/-- `i = xxhash64(key) & mask` -/
def firstIndex (cap : ℕ) (key : Bytes) : ℕ := (hash key).toNat &&& (cap - 1)

/-- The slot at which the loop with the given judgement stops. -/
def probe (judge : Slot Bytes V → Verdict) (t : FlatHashMap V) (key : Bytes) : Option ℕ :=
  walk judge (nextIndex t.capacity) t.slots t.capacity (firstIndex hash t.capacity key)

/-- The loop of `insert`: the result is true for a new entry, false for an
update. -/
def place (t : FlatHashMap V) (key : Bytes) (value : V) : Option (Bool × FlatHashMap V) :=
  match probe hash (land key) t key with
  | none => none
  | some i =>
      match t.slots[i]? with
      | some (.full _ _) => some (false, { t with slots := t.slots.set i (.full key value) })
      | _ => some (true, { slots := t.slots.set i (.full key value), size := t.size + 1 })

/-- One round of the loop of `rehash`, for an `insert` given from outside. -/
def move (insert : FlatHashMap V → Bytes → V → Option (Bool × FlatHashMap V))
    (t : FlatHashMap V) : Slot Bytes V → Option (FlatHashMap V)
  | .full key value => (insert t key value).map Prod.snd
  | _ => some t

def rehash (insert : FlatHashMap V → Bytes → V → Option (Bool × FlatHashMap V))
    (t : FlatHashMap V) (n : ℕ) : Option (FlatHashMap V) :=
  t.slots.foldlM (move insert) (blank (capacityFor n))

/-- `size_ * 10 >= slots_.size() * 7` -/
def Crowded (t : FlatHashMap V) : Prop := t.size * 10 ≥ t.capacity * 7

instance (t : FlatHashMap V) : Decidable t.Crowded := inferInstanceAs (Decidable (_ ≥ _))

def insertWithin : ℕ → FlatHashMap V → Bytes → V → Option (Bool × FlatHashMap V)
  | 0, _, _, _ => none
  | depth + 1, t, key, value => do
      let t ← if t.Crowded then rehash (insertWithin depth) t (t.capacity * 2) else some t
      place hash t key value

def insert (t : FlatHashMap V) (key : Bytes) (value : V) : Option (Bool × FlatHashMap V) :=
  insertWithin hash 2 t key value

def find (t : FlatHashMap V) (key : Bytes) : Option V :=
  if t.slots.isEmpty then none
  else
    match probe hash (seek key) t key with
    | none => none
    | some i =>
        match t.slots[i]? with
        | some (.full _ value) => some value
        | _ => none

def erase (t : FlatHashMap V) (key : Bytes) : Bool × FlatHashMap V :=
  if t.slots.isEmpty then (false, t)
  else
    match probe hash (seek key) t key with
    | none => (false, t)
    | some i => (true, { slots := t.slots.set i .tomb, size := t.size - 1 })

end Hash

end FlatHashMap

end HiveNative.Perf
