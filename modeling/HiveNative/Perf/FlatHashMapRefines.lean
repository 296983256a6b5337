import HiveNative.Lib.Machine
import HiveNative.Lib.OrderedMap
import HiveNative.Lib.Replay
import HiveNative.Perf.FlatHashMap

/-!
# The flat hash map and finite maps

What a `flat_hash_map` is for: a finite map, with insertion, lookup, erasure and
clearing.  `Simulates` relates a table to the finite map it stands for.  Every
operation keeps the relation and answers as the finite map does, except an
insertion that is `Clobbered`: the key is stored, the table does not grow, and a
tombstone stands before the slot of the key on its path.  Such an insertion
stores the key a second time and says that it was new.
-/

namespace HiveNative.Perf.FlatHashMap

open Std (ExtTreeMap)
open OpenAddressing OrderedMap

variable {V : Type} {hash : Bytes → UInt64}

/-! ## Capacities and probe paths -/

/-- The doubling loop ends at a power of two. -/
theorem doubleUntil_pow (n rounds q : ℕ) : ∃ p ≥ q, doubleUntil n rounds (2 ^ q) = 2 ^ p := by
  induction rounds generalizing q with
  | zero => exact ⟨q, le_rfl, rfl⟩
  | succ rounds ih =>
      unfold doubleUntil
      split
      · obtain ⟨p, hp, heq⟩ := ih (q + 1)
        refine ⟨p, by omega, ?_⟩
        rw [Nat.shiftLeft_eq, pow_one, ← pow_succ]
        exact heq
      · exact ⟨q, le_rfl, rfl⟩

theorem le_doubleUntil {n rounds q : ℕ} (h : n ≤ 2 ^ (q + rounds)) :
    n ≤ doubleUntil n rounds (2 ^ q) := by
  induction rounds generalizing q with
  | zero => exact h
  | succ rounds ih =>
      unfold doubleUntil
      split
      · rw [Nat.shiftLeft_eq, pow_one, ← pow_succ]
        refine ih ?_
        rwa [Nat.add_right_comm, Nat.add_assoc]
      · next hlt => exact Nat.not_lt.mp hlt

theorem capacityFor_pow (n : ℕ) : ∃ p, capacityFor n = 2 ^ p := by
  obtain ⟨p, -, hp⟩ := doubleUntil_pow n n 0
  exact ⟨p, hp⟩

theorem le_capacityFor (n : ℕ) : n ≤ capacityFor n := by
  refine le_doubleUntil (q := 0) ?_
  rw [Nat.zero_add]
  exact n.lt_two_pow_self.le

theorem iterate_nextIndex {p i : ℕ} (hi : i < 2 ^ p) (m : ℕ) :
    (nextIndex (2 ^ p))^[m] i = (i + m) % 2 ^ p := by
  induction m with
  | zero => exact (Nat.mod_eq_of_lt hi).symm
  | succ m ih =>
      rw [Function.iterate_succ_apply', ih, nextIndex, Nat.and_two_pow_sub_one_eq_mod,
        Nat.mod_add_mod, Nat.add_assoc]

theorem firstIndex_lt (hash : Bytes → UInt64) (p : ℕ) (key : Bytes) :
    firstIndex hash (2 ^ p) key < 2 ^ p := by
  rw [firstIndex, Nat.and_two_pow_sub_one_eq_mod]
  exact Nat.mod_lt _ (Nat.two_pow_pos p)

/-- Linear probing reaches every slot of a table whose size is a power of two. -/
theorem probing_pow (hash : Bytes → UInt64) (p : ℕ) :
    Probing (nextIndex (2 ^ p)) (firstIndex hash (2 ^ p)) (2 ^ p) := by
  refine ⟨fun key m => ?_, fun key x hx => ?_⟩
  · rw [iterate_nextIndex (firstIndex_lt hash p key)]
    exact Nat.mod_lt _ (Nat.two_pow_pos p)
  · have hfirst := firstIndex_lt hash p key
    by_cases hle : firstIndex hash (2 ^ p) key ≤ x
    · refine ⟨x - firstIndex hash (2 ^ p) key, by omega, ?_⟩
      rw [iterate_nextIndex hfirst, Nat.add_sub_cancel' hle, Nat.mod_eq_of_lt hx]
    · refine ⟨x + 2 ^ p - firstIndex hash (2 ^ p) key, by omega, ?_⟩
      rw [iterate_nextIndex hfirst, Nat.add_sub_cancel' (by omega), Nat.add_mod_right,
        Nat.mod_eq_of_lt hx]

/-! ## Well-formed tables -/

/-- The capacity is a power of two of at least eight, the slots are chained and
the size counts the full ones. -/
structure Wf (hash : Bytes → UInt64) (t : FlatHashMap V) : Prop where
  capacity_pow : ∃ p, 3 ≤ p ∧ t.capacity = 2 ^ p
  chained : Chained (nextIndex t.capacity) (firstIndex hash t.capacity) t.slots
  size_eq : t.size = t.slots.countP Slot.isFull

variable {t : FlatHashMap V}

theorem probing_of_pow (hash : Bytes → UInt64) (h : ∃ p, 3 ≤ p ∧ t.capacity = 2 ^ p) :
    Probing (nextIndex t.capacity) (firstIndex hash t.capacity) t.slots.length := by
  obtain ⟨p, -, hp⟩ := h
  show Probing _ _ t.capacity
  rw [hp]
  exact probing_pow hash p

theorem eight_le_of_pow (h : ∃ p, 3 ≤ p ∧ t.capacity = 2 ^ p) : 8 ≤ t.capacity := by
  obtain ⟨p, hp, heq⟩ := h
  rw [heq]
  exact Nat.pow_le_pow_right (n := 2) (by decide) hp

theorem Wf.probing (h : Wf hash t) :
    Probing (nextIndex t.capacity) (firstIndex hash t.capacity) t.slots.length :=
  probing_of_pow hash h.capacity_pow

theorem Wf.eight_le (h : Wf hash t) : 8 ≤ t.capacity := eight_le_of_pow h.capacity_pow

theorem Wf.slots_ne (h : Wf hash t) : t.slots.isEmpty = false := by
  have hcap := h.eight_le
  rw [List.isEmpty_eq_false_iff]
  intro hnil
  rw [capacity, hnil, List.length_nil] at hcap
  omega

theorem Wf.size_le (h : Wf hash t) : t.size ≤ t.capacity := by
  rw [h.size_eq]
  exact List.countP_le_length

theorem capacity_blank (n : ℕ) : (blank n : FlatHashMap V).capacity = n :=
  List.length_replicate

theorem countP_blank (n : ℕ) : (blank n : FlatHashMap V).slots.countP Slot.isFull = 0 := by
  refine List.countP_eq_zero.mpr fun s hs => ?_
  rw [List.eq_of_mem_replicate hs]
  exact Bool.false_ne_true

/-- The capacity of a table that is made for at least eight slots. -/
theorem capacityFor_of_le {n : ℕ} (hn : 8 ≤ n) : ∃ p, 3 ≤ p ∧ capacityFor n = 2 ^ p := by
  obtain ⟨p, hp⟩ := capacityFor_pow n
  have hle := le_capacityFor n
  refine ⟨p, ?_, hp⟩
  by_contra hlt
  have hpow : 2 ^ p < 2 ^ 3 := Nat.pow_lt_pow_right (by decide) (Nat.not_le.mp hlt)
  omega

theorem wf_blank {n : ℕ} (hn : 8 ≤ n) : Wf hash (blank (capacityFor n) : FlatHashMap V) := by
  refine ⟨?_, chained_replicate _ _ _, (countP_blank _).symm⟩
  rw [capacity_blank]
  exact capacityFor_of_le hn

theorem not_stored_blank (n : ℕ) (k : Bytes) (v : V) :
    ¬ Stored (blank n : FlatHashMap V).slots k v := by
  intro h
  obtain ⟨x, hx⟩ := h
  have hmem := List.mem_of_getElem? hx
  cases List.eq_of_mem_replicate hmem

/-- The table has no tombstone. -/
def Clean (t : FlatHashMap V) : Prop := Slot.tomb ∉ t.slots

theorem clean_blank (n : ℕ) : Clean (blank n : FlatHashMap V) := by
  intro h
  cases List.eq_of_mem_replicate h

/-- The insertion meets a tombstone before the slot of its key. -/
abbrev Hidden (hash : Bytes → UInt64) (t : FlatHashMap V) (key : Bytes) : Prop :=
  Shadowed (nextIndex t.capacity) (firstIndex hash t.capacity) t.slots key

theorem Clean.not_hidden (h : Clean t) (key : Bytes) : ¬ Hidden hash t key := by
  intro hs
  obtain ⟨-, m, -, htomb, -⟩ := hs
  exact h (List.mem_of_getElem? htomb)

/-! ## One probe -/

theorem find_stored (h : Wf hash t) {key : Bytes} {v : V} (hs : Stored t.slots key v) :
    find hash t key = some v := by
  obtain ⟨x, hx⟩ := hs
  have hprobe : probe hash (seek key) t key = some x := h.chained.locate h.probing hx
  simp only [find, h.slots_ne, Bool.false_eq_true, if_false, hprobe, hx]

theorem find_absent (h : Wf hash t) {key : Bytes} (hs : ∀ v, ¬ Stored t.slots key v) :
    find hash t key = none := by
  have hprobe : probe hash (seek key) t key = none := locate_absent hs _ _
  simp only [find, h.slots_ne, Bool.false_eq_true, if_false, hprobe]

/-- What a table stores after `key` got the value `value`. -/
def Updates (t t' : FlatHashMap V) (key : Bytes) (value : V) : Prop :=
  ∀ k v, Stored t'.slots k v ↔ (k = key ∧ v = value) ∨ (k ≠ key ∧ Stored t.slots k v)

theorem clean_set {i : ℕ} {key : Bytes} {value : V} (h : Clean t) :
    Slot.tomb ∉ t.slots.set i (.full key value) := by
  intro hmem
  cases List.mem_or_eq_of_mem_set hmem with
  | inl hold => exact h hold
  | inr hnew => cases hnew

/-- Another slot in the place of one, when the chains and the count still hold. -/
theorem Wf.set (h : Wf hash t) {x size : ℕ} {s : Slot Bytes V}
    (hchained :
      Chained (nextIndex t.capacity) (firstIndex hash t.capacity) (t.slots.set x s))
    (hsize : size = (t.slots.set x s).countP Slot.isFull) : Wf hash ⟨t.slots.set x s, size⟩ := by
  have hcap : (⟨t.slots.set x s, size⟩ : FlatHashMap V).capacity = t.capacity := List.length_set
  refine ⟨?_, ?_, hsize⟩
  · rw [hcap]
    exact h.capacity_pow
  · rw [hcap]
    exact hchained

/-- The loop of `insert` stops when the table has a slot that is not full. -/
theorem exists_landing (hash : Bytes → UInt64) (hpow : ∃ p, 3 ≤ p ∧ t.capacity = 2 ^ p)
    (hroom : t.slots.countP Slot.isFull < t.slots.length) (key : Bytes) :
    ∃ i, walk (land key) (nextIndex t.capacity) t.slots t.slots.length
      (firstIndex hash t.capacity key) = some i := by
  obtain ⟨x, s, hx, hfree⟩ := exists_not_full hroom
  refine landing_exists (probing_of_pow hash hpow) (x := x) ⟨s, hx, ?_⟩
  cases s with
  | empty => rfl
  | tomb => rfl
  | full k v => cases hfree

/-- The loop of `insert` for a key that is not stored. -/
theorem place_absent (h : Wf hash t) (hroom : t.size < t.capacity) {key : Bytes}
    (hs : ∀ v, ¬ Stored t.slots key v) (value : V) :
    ∃ t', place hash t key value = some (true, t') ∧ Wf hash t' ∧ t'.capacity = t.capacity ∧
      t'.size = t.size + 1 ∧ Updates t t' key value ∧ (Clean t → Clean t') := by
  have hcount : t.slots.countP Slot.isFull < t.slots.length := by
    rw [← h.size_eq]
    exact hroom
  obtain ⟨i, hi⟩ := exists_landing hash h.capacity_pow hcount key
  have hprobe : probe hash (land key) t key = some i := hi
  obtain ⟨hland, m, hm, hmi, hpass⟩ := walk_eq_some hi
  obtain ⟨r, hr, hrfree⟩ : ∃ r, t.slots[i]? = some r ∧ r.isFull = false := by
    cases land_hit hland with
    | inl hfull =>
        obtain ⟨v, hv⟩ := hfull
        exact absurd ⟨i, hv⟩ (hs v)
    | inr hempty =>
        cases hempty with
        | inl he => exact ⟨_, he, rfl⟩
        | inr ht => exact ⟨_, ht, rfl⟩
  have honly : ∀ {y : ℕ} {v : V}, t.slots[y]? = some (.full key v) → y = i :=
    fun hy => absurd ⟨_, hy⟩ (hs _)
  have hother : ∀ {k : Bytes} {v : V}, t.slots[i]? = some (.full k v) → k = key := by
    intro k v hk
    rw [hr] at hk
    cases hk
    cases hrfree
  have hlt : i < t.slots.length := (List.getElem?_eq_some_iff.mp hr).1
  refine ⟨⟨t.slots.set i (.full key value), t.size + 1⟩, ?_, ?_, List.length_set, rfl,
    stored_write value hlt honly hother, clean_set⟩
  · simp only [place, hprobe, hr]
    cases r with
    | empty => rfl
    | tomb => rfl
    | full k v => cases hrfree
  · refine h.set (h.chained.write value honly hm hmi fun l hl hempty => ?_) ?_
    · obtain ⟨k, v, hk, -⟩ := land_pass (hpass l hl)
      rw [hempty] at hk
      cases hk
    · rw [countP_set_full hr hrfree, ← h.size_eq]

/-- The loop of `insert` for a stored key that is not hidden. -/
theorem place_present (h : Wf hash t) {key : Bytes} {w : V} (hs : Stored t.slots key w)
    (hh : ¬ Hidden hash t key) (value : V) :
    ∃ t', place hash t key value = some (false, t') ∧ Wf hash t' ∧ t'.capacity = t.capacity ∧
      t'.size = t.size ∧ Updates t t' key value := by
  obtain ⟨x, hx⟩ := hs
  have hprobe : probe hash (land key) t key = some x := h.chained.landing_present h.probing hx hh
  have honly : ∀ {y : ℕ} {v : V}, t.slots[y]? = some (.full key v) → y = x :=
    fun hy => h.chained.unique hy hx
  have hother : ∀ {k : Bytes} {v : V}, t.slots[x]? = some (.full k v) → k = key := by
    intro k v hk
    rw [hx] at hk
    cases hk
    rfl
  have hlt : x < t.slots.length := (List.getElem?_eq_some_iff.mp hx).1
  obtain ⟨m, hm, hmx, hempty⟩ := h.chained.chain hx
  refine ⟨⟨t.slots.set x (.full key value), t.size⟩, ?_, ?_, List.length_set, rfl,
    stored_write value hlt honly hother⟩
  · simp only [place, hprobe, hx]
  · refine h.set (h.chained.write value honly hm hmx hempty) ?_
    rw [countP_set_same hx, ← h.size_eq]

/-- The loop of `insert` for a hidden key takes it for a new one.  The next
`erase` of the key removes the new copy and brings the table back. -/
theorem place_hidden (h : Wf hash t) {key : Bytes} (hh : Hidden hash t key) (value : V) :
    ∃ t', place hash t key value = some (true, t') ∧ erase hash t' key = (true, t) := by
  obtain ⟨y, hy, htomb⟩ := h.chained.landing_shadowed h.probing hh
  have hprobe : probe hash (land key) t key = some y := hy
  refine ⟨⟨t.slots.set y (.full key value), t.size + 1⟩, ?_, ?_⟩
  · simp only [place, hprobe, htomb]
  · have hseek : probe hash (seek key) ⟨t.slots.set y (.full key value), t.size + 1⟩ key =
        some y := by
      rw [probe, capacity, List.length_set]
      exact locate_landed hy value
    have hne : (t.slots.set y (.full key value)).isEmpty = false := by
      rw [List.isEmpty_eq_false_iff, ne_eq, List.set_eq_nil_iff, ← ne_eq,
        ← List.isEmpty_eq_false_iff]
      exact h.slots_ne
    have hback : (t.slots.set y (.full key value)).set y .tomb = t.slots := by
      obtain ⟨hlt, hget⟩ := List.getElem?_eq_some_iff.mp htomb
      rw [List.set_set, ← hget]
      exact List.set_getElem_self hlt
    simp only [erase, hne, Bool.false_eq_true, if_false, hseek, hback, Nat.add_sub_cancel]

theorem erase_stored (h : Wf hash t) {key : Bytes} {w : V} (hs : Stored t.slots key w) :
    ∃ t', erase hash t key = (true, t') ∧ Wf hash t' ∧ t'.size + 1 = t.size ∧
      ∀ k v, Stored t'.slots k v ↔ k ≠ key ∧ Stored t.slots k v := by
  obtain ⟨x, hx⟩ := hs
  have hprobe : probe hash (seek key) t key = some x := h.chained.locate h.probing hx
  have hcount := countP_set_tomb hx
  rw [← h.size_eq] at hcount
  have hsize : t.size - 1 = (t.slots.set x .tomb).countP Slot.isFull := by omega
  refine ⟨⟨t.slots.set x .tomb, t.size - 1⟩, ?_, h.set (h.chained.bury x) hsize, ?_,
    h.chained.stored_bury hx⟩
  · simp only [erase, h.slots_ne, Bool.false_eq_true, if_false, hprobe]
  · show t.size - 1 + 1 = t.size
    omega

theorem erase_absent (h : Wf hash t) {key : Bytes} (hs : ∀ v, ¬ Stored t.slots key v) :
    erase hash t key = (false, t) := by
  have hprobe : probe hash (seek key) t key = none := locate_absent hs _ _
  simp only [erase, h.slots_ne, Bool.false_eq_true, if_false, hprobe]

theorem clear_eq (t : FlatHashMap V) : t.clear = blank t.capacity := by
  rw [clear, blank, List.map_const', capacity]

theorem wf_clear (h : Wf hash t) : Wf hash t.clear ∧ ∀ k v, ¬ Stored t.clear.slots k v := by
  rw [clear_eq]
  refine ⟨⟨?_, chained_replicate _ _ _, (countP_blank _).symm⟩, not_stored_blank _⟩
  rw [capacity_blank]
  exact h.capacity_pow

/-! ## Growth -/

/-- The state of `rehash` after it has moved the slots `done`. -/
structure Moved (hash : Bytes → UInt64) (cap : ℕ) (done : List (Slot Bytes V))
    (t : FlatHashMap V) : Prop where
  wf : Wf hash t
  clean : Clean t
  capacity_eq : t.capacity = cap
  size_eq : t.size = done.countP Slot.isFull
  stored : ∀ k v, Stored t.slots k v ↔ Slot.full k v ∈ done

/-- The keys of a list of slots are pairwise different. -/
def DistinctKeys (slots : List (Slot Bytes V)) : Prop :=
  slots.Pairwise fun s s' => ∀ k v w, s = .full k v → s' = .full k w → False

theorem Wf.distinctKeys (h : Wf hash t) : DistinctKeys t.slots := by
  refine List.pairwise_iff_getElem.mpr fun i j hi hj hij k v w hk hw => ?_
  have hik : t.slots[i]? = some (.full k v) := by rw [List.getElem?_eq_getElem hi, hk]
  have hjk : t.slots[j]? = some (.full k w) := by rw [List.getElem?_eq_getElem hj, hw]
  exact absurd (h.chained.unique hik hjk) (Nat.ne_of_lt hij)

theorem not_crowded_iff : ¬ t.Crowded ↔ t.size * 10 < t.capacity * 7 := by
  unfold Crowded
  omega

/-- An insertion into a table that does not grow. -/
theorem insertWithin_of_not_crowded (hc : ¬ t.Crowded) (depth : ℕ) (key : Bytes) (value : V) :
    insertWithin hash (depth + 1) t key value = place hash t key value := by
  rw [insertWithin, if_neg hc]
  rfl

/-- One round of `rehash`: while fewer slots were moved than half the capacity,
the insertion does not grow the table. -/
theorem move_spec {cap : ℕ} {done : List (Slot Bytes V)} {s : Slot Bytes V} (depth : ℕ)
    (h : Moved hash cap done t) (hdone : done.length * 2 < cap)
    (hnew : ∀ k v w, s = .full k v → Slot.full k w ∉ done) :
    ∃ t', move (insertWithin hash (depth + 1)) t s = some t' ∧
      Moved hash cap (done ++ [s]) t' := by
  cases s with
  | empty =>
      refine ⟨t, rfl, h.wf, h.clean, h.capacity_eq, ?_, fun k v => ?_⟩
      · rw [List.countP_append, h.size_eq]
        rfl
      · rw [h.stored]
        simp
  | tomb =>
      refine ⟨t, rfl, h.wf, h.clean, h.capacity_eq, ?_, fun k v => ?_⟩
      · rw [List.countP_append, h.size_eq]
        rfl
      · rw [h.stored]
        simp
  | full key value =>
      have hle : done.countP Slot.isFull ≤ done.length := List.countP_le_length
      have hsize := h.size_eq
      have hcap := h.capacity_eq
      have hroom : ¬ t.Crowded := by
        rw [not_crowded_iff]
        omega
      have habsent : ∀ v, ¬ Stored t.slots key v := by
        intro v hv
        exact hnew key value v rfl ((h.stored key v).mp hv)
      obtain ⟨t', hplace, hwf, hcap', hsize', hup, hclean⟩ :=
        place_absent h.wf (by omega) habsent value
      refine ⟨t', ?_, hwf, hclean h.clean, hcap'.trans h.capacity_eq, ?_, fun k v => ?_⟩
      · rw [move, insertWithin_of_not_crowded hroom, hplace]
        rfl
      · rw [List.countP_append, hsize', h.size_eq]
        rfl
      · rw [hup k v, h.stored]
        simp only [List.mem_append, List.mem_singleton, Slot.full.injEq]
        constructor
        · intro hk
          cases hk with
          | inl hk => exact Or.inr hk
          | inr hk => exact Or.inl hk.2
        · intro hk
          cases hk with
          | inr hk => exact Or.inl hk
          | inl hk =>
              refine Or.inr ⟨fun heq => ?_, hk⟩
              subst heq
              exact hnew k value v rfl hk

/-- A rehash to twice the capacity keeps what is stored, leaves no tombstone and
never starts another one. -/
theorem rehash_spec (h : Wf hash t) (depth : ℕ) :
    ∃ t', rehash (insertWithin hash (depth + 1)) t (t.capacity * 2) = some t' ∧ Wf hash t' ∧
      Clean t' ∧ t.capacity * 2 ≤ t'.capacity ∧ t'.size = t.size ∧
      ∀ k v, Stored t'.slots k v ↔ Stored t.slots k v := by
  have hcap := le_capacityFor (t.capacity * 2)
  have height := h.eight_le
  have hstart : Moved hash (capacityFor (t.capacity * 2)) [] (blank (capacityFor (t.capacity * 2)) :
      FlatHashMap V) := by
    refine ⟨wf_blank (by omega), clean_blank _, List.length_replicate, rfl, fun k v => ?_⟩
    exact iff_of_false (not_stored_blank _ k v) (List.not_mem_nil)
  have hround : ∀ done s rest (t₁ : FlatHashMap V), t.slots = done ++ s :: rest →
      Moved hash (capacityFor (t.capacity * 2)) done t₁ →
      ∃ t₂, move (insertWithin hash (depth + 1)) t₁ s = some t₂ ∧
        Moved hash (capacityFor (t.capacity * 2)) (done ++ [s]) t₂ := by
    intro done s rest t₁ hsplit hmoved
    have hshort : done.length < t.capacity := by
      rw [capacity, hsplit, List.length_append, List.length_cons]
      omega
    refine move_spec depth hmoved (by omega) fun k v w hs hw => ?_
    have hdistinct := h.distinctKeys
    rw [hsplit] at hdistinct
    exact (List.pairwise_append.mp hdistinct).2.2 _ hw s List.mem_cons_self k w v rfl hs
  obtain ⟨t', ht', hm⟩ := Replay.exists_foldlM _ hstart hround
  refine ⟨t', ht', hm.wf, hm.clean, ?_, ?_, fun k v => ?_⟩
  · rw [hm.capacity_eq]
    exact hcap
  · rw [hm.size_eq, h.size_eq]
  · rw [hm.stored, List.mem_iff_getElem?]
    rfl

/-! ## Insertion -/

/-- The key is stored, the table does not grow, and a tombstone stands before the
slot of the key. -/
def Clobbered (hash : Bytes → UInt64) (t : FlatHashMap V) (key : Bytes) : Prop :=
  ¬ t.Crowded ∧ Hidden hash t key

theorem insert_absent (h : Wf hash t) {key : Bytes} (hs : ∀ v, ¬ Stored t.slots key v)
    (value : V) :
    ∃ t', insert hash t key value = some (true, t') ∧ Wf hash t' ∧ t'.size = t.size + 1 ∧
      Updates t t' key value := by
  by_cases hc : t.Crowded
  · obtain ⟨t₁, hre, hwf₁, -, hcap₁, hsize₁, hst₁⟩ := rehash_spec h 0
    have hle := h.size_le
    have height := h.eight_le
    obtain ⟨t₂, hplace, hwf₂, -, hsize₂, hup₂, -⟩ := place_absent hwf₁ (by omega)
      (fun v hv => hs v ((hst₁ key v).mp hv)) value
    refine ⟨t₂, ?_, hwf₂, by rw [hsize₂, hsize₁], fun k v => ?_⟩
    · rw [insert, insertWithin, if_pos hc, hre]
      exact hplace
    · rw [hup₂ k v, hst₁ k v]
  · obtain ⟨t₂, hplace, hwf₂, -, hsize₂, hup₂, -⟩ := place_absent h (by
      have := not_crowded_iff.mp hc
      omega) hs value
    exact ⟨t₂, (insertWithin_of_not_crowded hc 1 key value).trans hplace, hwf₂, hsize₂, hup₂⟩

theorem insert_present (h : Wf hash t) {key : Bytes} {w : V} (hs : Stored t.slots key w)
    (hh : ¬ Clobbered hash t key) (value : V) :
    ∃ t', insert hash t key value = some (false, t') ∧ Wf hash t' ∧ t'.size = t.size ∧
      Updates t t' key value := by
  by_cases hc : t.Crowded
  · obtain ⟨t₁, hre, hwf₁, hclean₁, -, hsize₁, hst₁⟩ := rehash_spec h 0
    obtain ⟨t₂, hplace, hwf₂, -, hsize₂, hup₂⟩ := place_present hwf₁ ((hst₁ key w).mpr hs)
      (hclean₁.not_hidden key) value
    refine ⟨t₂, ?_, hwf₂, by rw [hsize₂, hsize₁], fun k v => ?_⟩
    · rw [insert, insertWithin, if_pos hc, hre]
      exact hplace
    · rw [hup₂ k v, hst₁ k v]
  · obtain ⟨t₂, hplace, hwf₂, -, hsize₂, hup₂⟩ := place_present h hs (fun hd => hh ⟨hc, hd⟩) value
    exact ⟨t₂, (insertWithin_of_not_crowded hc 1 key value).trans hplace, hwf₂, hsize₂, hup₂⟩

theorem insert_clobbered (h : Wf hash t) {key : Bytes} (hh : Clobbered hash t key) (value : V) :
    ∃ t', insert hash t key value = some (true, t') ∧ erase hash t' key = (true, t) := by
  obtain ⟨t', hplace, hback⟩ := place_hidden h hh.2 value
  exact ⟨t', (insertWithin_of_not_crowded hh.1 1 key value).trans hplace, hback⟩

/-! ## Finite maps -/

/-- The operations of a map. -/
inductive Op (V : Type) where
  | insert (key : Bytes) (value : V)
  | find (key : Bytes)
  | erase (key : Bytes)
  | clear
deriving Repr, DecidableEq

/-- What an operation answers. -/
inductive Answer (V : Type) where
  | inserted (isNew : Bool)
  | found (value : Option V)
  | erased (wasPresent : Bool)
  | cleared
deriving Repr, DecidableEq

/-- An operation on a table.  There is no answer when it does not return. -/
def exec (hash : Bytes → UInt64) (op : Op V) (t : FlatHashMap V) :
    Option (Answer V) × FlatHashMap V :=
  match op with
  | .insert key value =>
      match t.insert hash key value with
      | some (isNew, t') => (some (.inserted isNew), t')
      | none => (none, t)
  | .find key => (some (.found (t.find hash key)), t)
  | .erase key => (some (.erased (t.erase hash key).1), (t.erase hash key).2)
  | .clear => (some .cleared, t.clear)

/-- The same operation on a finite map. -/
def specExec (op : Op V) (m : ExtTreeMap Bytes V) : Answer V × ExtTreeMap Bytes V :=
  match op with
  | .insert key value => (.inserted (!m.contains key), m.insert key value)
  | .find key => (.found m[key]?, m)
  | .erase key => (.erased (m.contains key), m.erase key)
  | .clear => (.cleared, ∅)

/-- The table after a sequence of operations, listed newest first. -/
abbrev table (hash : Bytes → UInt64) (cap : ℕ) (ops : List (Op V)) : FlatHashMap V :=
  Machine.final (exec hash) (new cap) ops

/-- The finite map after the same operations. -/
abbrev finite (ops : List (Op V)) : ExtTreeMap Bytes V := Machine.final specExec ∅ ops

/-- The value of the latest insertion of the key that no later erasure or clearing
removed. -/
def lastValue (key : Bytes) : List (Op V) → Option V
  | [] => none
  | .insert k v :: past => if key = k then some v else lastValue key past
  | .find _ :: past => lastValue key past
  | .erase k :: past => if key = k then none else lastValue key past
  | .clear :: _ => none

theorem finite_lookup (ops : List (Op V)) (key : Bytes) :
    (finite ops)[key]? = lastValue key ops := by
  induction ops with
  | nil => exact ExtTreeMap.getElem?_empty
  | cons op past ih =>
      cases op with
      | insert k v =>
          rw [lastValue, ← ih]
          exact getElem?_insert_eq _ _ _ _
      | find k => exact ih
      | erase k =>
          rw [lastValue, ← ih]
          exact getElem?_erase_eq _ _ _
      | clear => exact ExtTreeMap.getElem?_empty

/-! ## Simulation -/

/-- The table stands for the finite map. -/
structure Simulates (hash : Bytes → UInt64) (t : FlatHashMap V) (m : ExtTreeMap Bytes V) :
    Prop where
  wf : Wf hash t
  stored : ∀ k v, Stored t.slots k v ↔ m[k]? = some v
  size_eq : t.size = m.size

variable {m : ExtTreeMap Bytes V}

theorem simulates_new (hash : Bytes → UInt64) (cap : ℕ) :
    Simulates hash (new cap : FlatHashMap V) ∅ := by
  refine ⟨wf_blank ?_, fun k v => ?_, rfl⟩
  · split
    · exact le_rfl
    · omega
  · rw [ExtTreeMap.getElem?_empty]
    exact iff_of_false (not_stored_blank _ k v) (fun hc => by cases hc)

theorem Simulates.absent (h : Simulates hash t m) {key : Bytes} (hc : m.contains key = false)
    (v : V) : ¬ Stored t.slots key v := by
  rw [h.stored, ExtTreeMap.getElem?_eq_none_of_contains_eq_false hc]
  exact fun hc => by cases hc

theorem Simulates.present (h : Simulates hash t m) {key : Bytes} (hc : m.contains key = true) :
    ∃ v, Stored t.slots key v := by
  obtain ⟨v, hv⟩ := mem_iff_exists.mp (ExtTreeMap.contains_iff_mem.mp hc)
  exact ⟨v, (h.stored key v).mpr hv⟩

theorem Simulates.find_eq (h : Simulates hash t m) (key : Bytes) : find hash t key = m[key]? := by
  cases hm : m[key]? with
  | some v => exact find_stored h.wf ((h.stored key v).mpr hm)
  | none =>
      refine find_absent h.wf fun v hv => ?_
      rw [(h.stored key v).mp hv] at hm
      cases hm

/-- What is stored after an update is what the finite map has after it. -/
theorem Updates.stored {t' : FlatHashMap V} {key : Bytes} {value : V}
    (hup : Updates t t' key value) (h : Simulates hash t m) (k : Bytes) (v : V) :
    Stored t'.slots k v ↔ (m.insert key value)[k]? = some v := by
  rw [hup k v, h.stored, getElem?_insert_eq]
  by_cases hk : k = key
  · rw [if_pos hk]
    simp [hk, eq_comm]
  · rw [if_neg hk]
    simp [hk]

theorem simulates_insert (h : Simulates hash t m) {key : Bytes} (hh : ¬ Clobbered hash t key)
    (value : V) :
    ∃ t', insert hash t key value = some (!m.contains key, t') ∧
      Simulates hash t' (m.insert key value) := by
  cases hc : m.contains key with
  | false =>
      obtain ⟨t', hins, hwf, hsize, hup⟩ := insert_absent h.wf (h.absent hc) value
      refine ⟨t', hins, hwf, hup.stored h, ?_⟩
      rw [ExtTreeMap.size_insert, hc, hsize, h.size_eq]
      rfl
  | true =>
      obtain ⟨w, hw⟩ := h.present hc
      obtain ⟨t', hins, hwf, hsize, hup⟩ := insert_present h.wf hw hh value
      refine ⟨t', hins, hwf, hup.stored h, ?_⟩
      rw [ExtTreeMap.size_insert, hc, hsize, h.size_eq]
      rfl

theorem simulates_erase (h : Simulates hash t m) (key : Bytes) :
    (erase hash t key).1 = m.contains key ∧ Simulates hash (erase hash t key).2 (m.erase key) := by
  cases hc : m.contains key with
  | false =>
      have hnone := ExtTreeMap.getElem?_eq_none_of_contains_eq_false hc
      rw [erase_absent h.wf (h.absent hc), erase_of_none hnone]
      exact ⟨rfl, h⟩
  | true =>
      obtain ⟨w, hw⟩ := h.present hc
      obtain ⟨t', her, hwf, hsize, hst⟩ := erase_stored h.wf hw
      rw [her]
      refine ⟨rfl, hwf, fun k v => ?_, ?_⟩
      · rw [hst k v, h.stored, getElem?_erase_eq]
        by_cases hk : k = key
        · simp [hk]
        · simp [hk]
      · have hs := h.size_eq
        rw [ExtTreeMap.size_erase, hc, if_pos rfl]
        show t'.size = _
        omega

theorem simulates_clear (h : Simulates hash t m) : Simulates hash t.clear ∅ := by
  obtain ⟨hwf, hnone⟩ := wf_clear h.wf
  refine ⟨hwf, fun k v => ?_, rfl⟩
  rw [ExtTreeMap.getElem?_empty]
  exact iff_of_false (hnone k v) (fun hc => by cases hc)

/-- The operation is an insertion that stores a key twice. -/
def Clobbers (hash : Bytes → UInt64) (t : FlatHashMap V) : Op V → Prop
  | .insert key _ => Clobbered hash t key
  | _ => False

/-- An operation that does not clobber answers as the finite map does, and the
table goes on standing for it. -/
theorem simulates_step (h : Simulates hash t m) (op : Op V) (hh : ¬ Clobbers hash t op) :
    (exec hash op t).1 = some (specExec op m).1 ∧
      Simulates hash (exec hash op t).2 (specExec op m).2 := by
  cases op with
  | insert key value =>
      obtain ⟨t', hins, hsim⟩ := simulates_insert h hh value
      simp only [exec, hins, specExec, true_and]
      exact hsim
  | find key =>
      simp only [exec, specExec, h.find_eq key, true_and]
      exact h
  | erase key =>
      obtain ⟨hans, hsim⟩ := simulates_erase h key
      simp only [exec, specExec, hans, true_and]
      exact hsim
  | clear => exact ⟨rfl, simulates_clear h⟩

/-- An insertion that clobbers says that a stored key is new. -/
theorem clobbers_answer (h : Simulates hash t m) (op : Op V) (hh : Clobbers hash t op) :
    (exec hash op t).1 ≠ some (specExec op m).1 := by
  cases op with
  | insert key value =>
      obtain ⟨v, hv⟩ := hh.2.1
      have hc : m.contains key = true :=
        ExtTreeMap.contains_iff_mem.mpr (mem_iff_exists.mpr ⟨v, (h.stored key v).mp hv⟩)
      obtain ⟨t', hins, -⟩ := insert_clobbered h.wf hh value
      simp only [exec, hins, specExec, hc]
      exact fun hcontra => by cases hcontra
  | find key => exact hh.elim
  | erase key => exact hh.elim
  | clear => exact hh.elim

/-! ## Whole runs -/

/-- The run refines a finite map: every operation answers as the finite map does,
and at every point lookups give the latest value and the size is the number of
keys. -/
structure Refines (hash : Bytes → UInt64) (cap : ℕ) (ops : List (Op V)) : Prop where
  answers : ∀ op past, op :: past <:+ ops →
    (exec hash op (table hash cap past)).1 = some (specExec op (finite past)).1
  lookups : ∀ past, past <:+ ops → ∀ key, find hash (table hash cap past) key = lastValue key past
  sizes : ∀ past, past <:+ ops → (table hash cap past).size = (finite past).size

theorem simulates_run (hash : Bytes → UInt64) (cap : ℕ) (ops : List (Op V))
    (h : ∀ op past, op :: past <:+ ops → ¬ Clobbers hash (table hash cap past) op) :
    Simulates hash (table hash cap ops) (finite ops) := by
  induction ops with
  | nil => exact simulates_new hash cap
  | cons op past ih =>
      have hpast := ih fun op' past' hp => h op' past' (hp.trans (List.suffix_cons op past))
      exact (simulates_step hpast op (h op past List.suffix_rfl)).2

theorem Refines.suffix {cap : ℕ} {ops past : List (Op V)} (h : Refines hash cap ops)
    (hp : past <:+ ops) : Refines hash cap past :=
  ⟨fun op past' hp' => h.answers op past' (hp'.trans hp),
    fun past' hp' => h.lookups past' (hp'.trans hp), fun past' hp' => h.sizes past' (hp'.trans hp)⟩

theorem Refines.not_clobbers {cap : ℕ} {ops : List (Op V)} (h : Refines hash cap ops) :
    ∀ op past, op :: past <:+ ops → ¬ Clobbers hash (table hash cap past) op := by
  induction ops with
  | nil =>
      intro op past hp
      cases List.suffix_nil.mp hp
  | cons op₀ past₀ ih =>
      have hno := ih (h.suffix (List.suffix_cons op₀ past₀))
      intro op past hp
      cases List.suffix_cons_iff.mp hp with
      | inr hold => exact hno op past hold
      | inl heq =>
          cases heq
          intro hclob
          exact clobbers_answer (simulates_run hash cap past₀ hno) op₀ hclob
            (h.answers op₀ past₀ List.suffix_rfl)

/-- A run refines a finite map exactly when none of its insertions clobbers. -/
theorem refines_iff (hash : Bytes → UInt64) (cap : ℕ) (ops : List (Op V)) :
    Refines hash cap ops ↔
      ∀ op past, op :: past <:+ ops → ¬ Clobbers hash (table hash cap past) op := by
  refine ⟨Refines.not_clobbers, fun hno => ?_⟩
  have hsim : ∀ past, past <:+ ops → Simulates hash (table hash cap past) (finite past) :=
    fun past hp => simulates_run hash cap past fun op' past' hp' => hno op' past' (hp'.trans hp)
  refine ⟨fun op past hp => ?_, fun past hp key => ?_, fun past hp => (hsim past hp).size_eq⟩
  · have hpast := hsim past ((List.suffix_cons op past).trans hp)
    exact (simulates_step hpast op (hno op past hp)).1
  · rw [(hsim past hp).find_eq key, finite_lookup]

/-- Two keys on one path.  The first is erased, and the second inserted again. -/
def clobberRun : List (Op ℕ) :=
  [.insert (text "b") 3, .erase (text "a"), .insert (text "b") 2, .insert (text "a") 1]

/-- The last insertion of `clobberRun` answers that `b` is new. -/
theorem clobberRun_not_refines : ¬ Refines (fun _ => 0) 16 clobberRun := by
  intro h
  have hlast := h.answers (.insert (text "b") 3) (clobberRun.tail) List.suffix_rfl
  have hwrong : (exec (fun _ => 0) (.insert (text "b") 3)
      (table (fun _ => 0) 16 clobberRun.tail)).1 = some (.inserted true) := by decide +kernel
  have hright : (specExec (.insert (text "b") 3) (finite clobberRun.tail)).1 =
      .inserted false := by decide +kernel
  rw [hwrong, hright] at hlast
  exact absurd hlast (by decide)

end HiveNative.Perf.FlatHashMap
