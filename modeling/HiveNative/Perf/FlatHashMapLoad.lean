import HiveNative.Perf.FlatHashMapRefines

/-!
# The load of a flat hash map

The loop of `insert` has no bound, and `insert` and `rehash` call each other.  Both
stop because a table always has a slot that is not full.  `Loaded` is that
invariant, over the full slots only.  It does not ask that a key is stored once, so
it also holds after an insertion that is `Clobbered`, and tombstones do not enter
into it: the loop of `insert` stops at one.

A rehash starts from an empty table of twice the capacity.  While it runs, the new
table has no more entries than the slots moved so far had, which is less than half
its capacity, and no insertion of the rehash starts another one.
-/

namespace HiveNative.Perf.FlatHashMap

open OpenAddressing

variable {V : Type} {hash : Bytes → UInt64} {t : FlatHashMap V}

/-- The capacity is a power of two of at least eight, the size counts the full slots
and is below the capacity. -/
structure Loaded (t : FlatHashMap V) : Prop where
  capacity_pow : ∃ p, 3 ≤ p ∧ t.capacity = 2 ^ p
  size_eq : t.size = t.slots.countP Slot.isFull
  size_lt : t.size < t.capacity

/-- The loop of `insert` returns at such a slot. -/
def Stops (key : Bytes) (s : Slot Bytes V) : Prop :=
  s = .empty ∨ s = .tomb ∨ ∃ value, s = .full key value

/-- The table that the loop of `insert` walks. -/
def grown (hash : Bytes → UInt64) (t : FlatHashMap V) : Option (FlatHashMap V) :=
  if t.Crowded then rehash (insertWithin hash 1) t (t.capacity * 2) else some t

theorem insert_eq (hash : Bytes → UInt64) (t : FlatHashMap V) (key : Bytes) (value : V) :
    insert hash t key value = (grown hash t).bind fun t₁ => place hash t₁ key value := by
  rw [insert, insertWithin, grown]
  split
  · rfl
  · rfl

/-! ## One insertion -/

theorem Loaded.landing (h : Loaded t) (hash : Bytes → UInt64) (key : Bytes) :
    ∃ i, walk (land key) (nextIndex t.capacity) t.slots t.slots.length
      (firstIndex hash t.capacity key) = some i := by
  refine exists_landing hash h.capacity_pow ?_ key
  rw [← h.size_eq]
  exact h.size_lt

/-- The loop of `insert` stops within one round over the slots. -/
theorem Loaded.stops (h : Loaded t) (hash : Bytes → UInt64) (key : Bytes) :
    ∃ m < t.capacity, ∃ s,
      t.slots[(nextIndex t.capacity)^[m] (firstIndex hash t.capacity key)]? = some s ∧
        Stops key s := by
  obtain ⟨i, hi⟩ := h.landing hash key
  obtain ⟨hhit, m, hm, hmi, -⟩ := walk_eq_some hi
  rw [← hmi] at hhit
  obtain ⟨v, hv⟩ | hempty | htomb := land_hit hhit
  · exact ⟨m, hm, _, hv, Or.inr (Or.inr ⟨v, rfl⟩)⟩
  · exact ⟨m, hm, _, hempty, Or.inl rfl⟩
  · exact ⟨m, hm, _, htomb, Or.inr (Or.inl rfl)⟩

/-- The loop of `insert` returns.  It stores at most one more entry. -/
theorem Loaded.place_spec (h : Loaded t) (hash : Bytes → UInt64) (key : Bytes) (value : V) :
    ∃ isNew t', place hash t key value = some (isNew, t') ∧ t'.capacity = t.capacity ∧
      t'.size = t'.slots.countP Slot.isFull ∧ t'.size ≤ t.size + 1 := by
  obtain ⟨i, hi⟩ := h.landing hash key
  have hprobe : probe hash (land key) t key = some i := hi
  have fill : ∀ r : Slot Bytes V, t.slots[i]? = some r → r.isFull = false →
      t.size + 1 = (t.slots.set i (.full key value)).countP Slot.isFull := by
    intro r hr hrfree
    rw [countP_set_full hr hrfree, ← h.size_eq]
  obtain ⟨v, hv⟩ | hempty | htomb := land_hit (walk_eq_some hi).1
  · refine ⟨false, ⟨t.slots.set i (.full key value), t.size⟩, ?_, List.length_set, ?_, ?_⟩
    · simp only [place, hprobe, hv]
    · show t.size = _
      rw [countP_set_same hv, ← h.size_eq]
    · exact Nat.le_succ _
  · refine ⟨true, ⟨t.slots.set i (.full key value), t.size + 1⟩, ?_, List.length_set,
      fill _ hempty rfl, le_rfl⟩
    simp only [place, hprobe, hempty]
  · refine ⟨true, ⟨t.slots.set i (.full key value), t.size + 1⟩, ?_, List.length_set,
      fill _ htomb rfl, le_rfl⟩
    simp only [place, hprobe, htomb]

/-! ## Growth -/

/-- The new table of a rehash after it has moved the slots `done`. -/
structure Filling (cap : ℕ) (done : List (Slot Bytes V)) (t : FlatHashMap V) : Prop where
  capacity_eq : t.capacity = cap
  size_eq : t.size = t.slots.countP Slot.isFull
  size_le : t.size ≤ done.countP Slot.isFull

theorem filling_blank (cap : ℕ) : Filling cap [] (blank cap : FlatHashMap V) :=
  ⟨capacity_blank cap, (countP_blank cap).symm, le_rfl⟩

/-- The table stays below the load at which it would grow. -/
theorem Filling.not_crowded {cap : ℕ} {done : List (Slot Bytes V)} (h : Filling cap done t)
    (hroom : done.countP Slot.isFull * 10 < cap * 7) : ¬ t.Crowded := by
  have hcap := h.capacity_eq
  have hsize := h.size_le
  rw [not_crowded_iff]
  omega

theorem Filling.move {cap : ℕ} {done : List (Slot Bytes V)} (h : Filling cap done t)
    (hpow : ∃ p, 3 ≤ p ∧ cap = 2 ^ p) (hroom : done.countP Slot.isFull * 10 < cap * 7)
    (depth : ℕ) (s : Slot Bytes V) :
    ∃ t', move (insertWithin hash (depth + 1)) t s = some t' ∧ Filling cap (done ++ [s]) t' := by
  have hcap := h.capacity_eq
  have hsize := h.size_le
  have hle : done.countP Slot.isFull ≤ (done ++ [s]).countP Slot.isFull := by
    rw [List.countP_append]
    exact Nat.le_add_right _ _
  cases s with
  | empty => exact ⟨t, rfl, hcap, h.size_eq, hsize.trans hle⟩
  | tomb => exact ⟨t, rfl, hcap, h.size_eq, hsize.trans hle⟩
  | full key value =>
      have hloaded : Loaded t := ⟨by rw [hcap]; exact hpow, h.size_eq, by omega⟩
      obtain ⟨isNew, t', hplace, hcap', hsize', hle'⟩ := hloaded.place_spec hash key value
      refine ⟨t', ?_, hcap'.trans hcap, hsize', ?_⟩
      · rw [FlatHashMap.move, insertWithin_of_not_crowded (h.not_crowded hroom), hplace]
        rfl
      · rw [List.countP_append]
        exact hle'.trans (Nat.add_le_add_right hsize 1)

/-- A rehash of a loaded table moves any of its first slots without starting another
rehash. -/
theorem Loaded.moved (h : Loaded t) (hash : Bytes → UInt64) (depth : ℕ)
    {done rest : List (Slot Bytes V)} (hsplit : t.slots = done ++ rest) :
    ∃ t₁, done.foldlM (move (insertWithin hash (depth + 1)))
        (blank (capacityFor (t.capacity * 2))) = some t₁ ∧
      Filling (capacityFor (t.capacity * 2)) done t₁ ∧ ¬ t₁.Crowded := by
  have hcap := le_capacityFor (t.capacity * 2)
  have height := eight_le_of_pow h.capacity_pow
  have hpow := capacityFor_of_le (n := t.capacity * 2) (by omega)
  have hsize := h.size_eq
  have hlt := h.size_lt
  have hroom : ∀ l l' : List (Slot Bytes V), t.slots = l ++ l' →
      l.countP Slot.isFull * 10 < capacityFor (t.capacity * 2) * 7 := by
    intro l l' hl
    rw [hl, List.countP_append] at hsize
    omega
  have hround : ∀ l s l' (t₁ : FlatHashMap V), done = l ++ s :: l' →
      Filling (capacityFor (t.capacity * 2)) l t₁ →
      ∃ t₂, FlatHashMap.move (insertWithin hash (depth + 1)) t₁ s = some t₂ ∧
        Filling (capacityFor (t.capacity * 2)) (l ++ [s]) t₂ := by
    intro l s l' t₁ hl hfill
    refine hfill.move hpow (hroom l (s :: l' ++ rest) ?_) depth s
    rw [hsplit, hl, List.append_assoc]
  obtain ⟨t₁, ht₁, hfill⟩ := Replay.exists_foldlM _ (filling_blank _) hround
  exact ⟨t₁, ht₁, hfill, hfill.not_crowded (hroom _ _ hsplit)⟩

theorem Loaded.rehash_spec (h : Loaded t) (hash : Bytes → UInt64) (depth : ℕ) :
    ∃ t', rehash (insertWithin hash (depth + 1)) t (t.capacity * 2) = some t' ∧ Loaded t' ∧
      t'.size + 1 < t'.capacity := by
  have hcap := le_capacityFor (t.capacity * 2)
  have height := eight_le_of_pow h.capacity_pow
  obtain ⟨t', ht', hfill, -⟩ := h.moved hash depth (List.append_nil t.slots).symm
  have hcap' := hfill.capacity_eq
  have hle := hfill.size_le
  rw [← h.size_eq] at hle
  have hlt := h.size_lt
  refine ⟨t', ht', ⟨?_, hfill.size_eq, by omega⟩, by omega⟩
  rw [hcap']
  exact capacityFor_of_le (by omega)

theorem Loaded.grown_spec (h : Loaded t) (hash : Bytes → UInt64) :
    ∃ t₁, grown hash t = some t₁ ∧ Loaded t₁ ∧ t₁.size + 1 < t₁.capacity := by
  by_cases hc : t.Crowded
  · rw [grown, if_pos hc]
    exact h.rehash_spec hash 0
  · have hroom := not_crowded_iff.mp hc
    have height := eight_le_of_pow h.capacity_pow
    exact ⟨t, by rw [grown, if_neg hc], h, by omega⟩

/-! ## The operations -/

theorem Loaded.insert_spec (h : Loaded t) (hash : Bytes → UInt64) (key : Bytes) (value : V) :
    ∃ isNew t', insert hash t key value = some (isNew, t') ∧ Loaded t' := by
  obtain ⟨t₁, hgrown, hloaded, hroom⟩ := h.grown_spec hash
  obtain ⟨isNew, t', hplace, hcap, hsize, hle⟩ := hloaded.place_spec hash key value
  refine ⟨isNew, t', ?_, ⟨?_, hsize, by omega⟩⟩
  · rw [insert_eq, hgrown]
    exact hplace
  · rw [hcap]
    exact hloaded.capacity_pow

theorem Loaded.erase (h : Loaded t) (hash : Bytes → UInt64) (key : Bytes) :
    Loaded (erase hash t key).2 := by
  have hlt := h.size_lt
  rw [FlatHashMap.erase]
  split
  · exact h
  · cases hp : probe hash (seek key) t key with
    | none => exact h
    | some i =>
        obtain ⟨v, hv⟩ := seek_hit.mp (walk_eq_some hp).1
        have hcount := countP_set_tomb hv
        rw [← h.size_eq] at hcount
        refine ⟨?_, ?_, ?_⟩
        · rw [capacity, List.length_set]
          exact h.capacity_pow
        · show t.size - 1 = (t.slots.set i .tomb).countP Slot.isFull
          omega
        · rw [capacity, List.length_set]
          exact Nat.lt_of_le_of_lt (Nat.sub_le _ _) hlt

theorem loaded_blank {cap : ℕ} (hpow : ∃ p, 3 ≤ p ∧ cap = 2 ^ p) :
    Loaded (blank cap : FlatHashMap V) := by
  have hcap := capacity_blank (V := V) cap
  refine ⟨by rw [hcap]; exact hpow, (countP_blank cap).symm, ?_⟩
  have height := eight_le_of_pow (t := (blank cap : FlatHashMap V)) (by rw [hcap]; exact hpow)
  exact Nat.lt_of_lt_of_le (Nat.succ_pos 7) height

theorem Loaded.clear (h : Loaded t) : Loaded t.clear := by
  rw [clear_eq]
  exact loaded_blank h.capacity_pow

theorem loaded_new (cap : ℕ) : Loaded (new cap : FlatHashMap V) := by
  refine loaded_blank (capacityFor_of_le ?_)
  split
  · exact le_rfl
  · omega

/-- Every table of a run is loaded. -/
theorem loaded_table (hash : Bytes → UInt64) (cap : ℕ) (ops : List (Op V)) :
    Loaded (table hash cap ops) := by
  induction ops with
  | nil => exact loaded_new cap
  | cons op past ih =>
      show Loaded (exec hash op (table hash cap past)).2
      cases op with
      | insert key value =>
          obtain ⟨isNew, t', hins, hloaded⟩ := ih.insert_spec hash key value
          rw [exec, hins]
          exact hloaded
      | find key => exact ih
      | erase key => exact ih.erase hash key
      | clear => exact ih.clear

/-- Insertion terminates, in every table that insertions, lookups, erasures and
clearings lead to: the loop reaches a slot to stop at in one round, and the
insertions of a rehash start no other rehash. -/
theorem insertion_terminates (hash : Bytes → UInt64) (cap : ℕ) (ops : List (Op V)) :
    let t := table hash cap ops
    (∃ p, 3 ≤ p ∧ t.capacity = 2 ^ p) ∧ t.size = t.slots.countP Slot.isFull ∧
    t.size < t.capacity ∧
    (∃ t₁, grown hash t = some t₁ ∧ ∀ key, ∃ m < t₁.capacity, ∃ s,
      t₁.slots[(nextIndex t₁.capacity)^[m] (firstIndex hash t₁.capacity key)]? = some s ∧
        Stops key s) ∧
    (∀ key value, ∃ isNew t', insert hash t key value = some (isNew, t')) ∧
    (∀ done rest, t.slots = done ++ rest →
      ∃ t₁, done.foldlM (move (insertWithin hash 1)) (blank (capacityFor (t.capacity * 2))) =
          some t₁ ∧ ¬ t₁.Crowded) := by
  intro t
  have h : Loaded t := loaded_table hash cap ops
  refine ⟨h.capacity_pow, h.size_eq, h.size_lt, ?_, fun key value => ?_, fun done rest hsplit => ?_⟩
  · obtain ⟨t₁, hgrown, hloaded, -⟩ := h.grown_spec hash
    exact ⟨t₁, hgrown, hloaded.stops hash⟩
  · obtain ⟨isNew, t', hins, -⟩ := h.insert_spec hash key value
    exact ⟨isNew, t', hins⟩
  · obtain ⟨t₁, ht₁, -, hnot⟩ := h.moved hash 0 hsplit
    exact ⟨t₁, ht₁, hnot⟩

end HiveNative.Perf.FlatHashMap
