import HiveNative.Perf.SchedulePartition

/-!
# The depth of a schedule

How many layers first-fit needs.  Operations that conflict with one another need a layer
each, so a schedule is at least as deep as the largest set of such operations.  And it is
at most one layer deeper than the largest number of earlier operations that any one
operation conflicts with (`schedule_depth`).
-/

namespace HiveNative.Perf

open Chain Layering

variable {ops : List OpTouch}

/-- The layer of every operation is there. -/
theorem placeAt_lt (i : Fin ops.length) : placeAt ops i < (buildParallelSchedule ops).length := by
  have hmem : (ops[i], placeAt ops i) ∈ leveled Conflict ops := by
    rw [leveled_eq_places]
    exact List.mem_ofFn.mpr ⟨i, rfl⟩
  have hlt := (layered_foldl ops).below _ hmem
  rwa [buildParallelSchedule, List.length_map]

/-- Every layer has an operation. -/
theorem exists_placeAt (h : Indexed ops) {k : ℕ} (hk : k < (buildParallelSchedule ops).length) :
    ∃ i, placeAt ops i = k := by
  have hlayer : layerAt ops k ∈ (buildParallelSchedule ops).map (·.opIndices) :=
    List.mem_of_getElem? ((getElem?_schedule h).mpr ⟨hk, rfl⟩)
  obtain ⟨layer, hl, heq⟩ := List.mem_map.mp hlayer
  obtain ⟨j, hj⟩ := List.exists_mem_of_ne_nil _ (heq ▸ schedule_nonempty hl)
  obtain ⟨hlt, hplace⟩ := mem_layerAt.mp hj
  exact ⟨⟨j, hlt⟩, hplace⟩

/-- The operations of the set conflict with one another. -/
def Clique (ops : List OpTouch) (set : Finset (Fin ops.length)) : Prop :=
  ∀ i ∈ set, ∀ j ∈ set, i ≠ j → Conflict (ops.get i) (ops.get j)

/-- The earlier operations that an operation conflicts with. -/
def earlierConflicts (ops : List OpTouch) (j : Fin ops.length) : Finset (Fin ops.length) :=
  Finset.univ.filter fun i => i < j ∧ Conflict (ops.get i) (ops.get j)

/-- Operations that conflict with one another are in layers of their own. -/
theorem Clique.card_le {set : Finset (Fin ops.length)} (h : Clique ops set) :
    set.card ≤ (buildParallelSchedule ops).length := by
  have hinj : Set.InjOn (placeAt ops) set := by
    intro i hi j hj hplace
    by_contra hne
    exact not_conflict_of_place hne hplace (h i hi j hj hne)
  have hmaps : ∀ i ∈ set, placeAt ops i ∈ Finset.range (buildParallelSchedule ops).length :=
    fun i _ => Finset.mem_range.mpr (placeAt_lt i)
  have hle := Finset.card_le_card_of_injOn (placeAt ops) hmaps hinj
  rwa [Finset.card_range] at hle

/-- An operation is kept out of each lower layer by an earlier one. -/
theorem placeAt_le_card (j : Fin ops.length) : placeAt ops j ≤ (earlierConflicts ops j).card := by
  have hsub : Finset.range (placeAt ops j) ⊆ (earlierConflicts ops j).image (placeAt ops) := by
    intro m hm
    obtain ⟨i, hi, hplace, hc⟩ := (placeAt_eq_iff.mp rfl).2 m (Finset.mem_range.mp hm)
    have hmem : i ∈ earlierConflicts ops j :=
      Finset.mem_filter.mpr ⟨Finset.mem_univ i, hi, hc⟩
    exact Finset.mem_image.mpr ⟨i, hmem, hplace⟩
  have hle := (Finset.card_le_card hsub).trans Finset.card_image_le
  rwa [Finset.card_range] at hle

theorem length_schedule_le (h : Indexed ops) {d : ℕ}
    (hd : ∀ j, (earlierConflicts ops j).card ≤ d) : (buildParallelSchedule ops).length ≤ d + 1 := by
  cases hlen : (buildParallelSchedule ops).length with
  | zero => exact Nat.zero_le _
  | succ k =>
      obtain ⟨j, hj⟩ := exists_placeAt h (k := k) (by omega)
      have hle := (placeAt_le_card j).trans (hd j)
      omega

/-- The operations fit into a box as long as the schedule and as wide as its largest layer. -/
theorem length_le_box (h : Indexed ops) :
    ops.length ≤ (buildParallelSchedule ops).length *
      parallelWidth (buildParallelSchedule ops) := by
  have hall := (schedule_partition h).partition.length_eq
  rw [List.length_range, List.length_flatten, List.map_map] at hall
  have hwidth : ∀ n ∈ (buildParallelSchedule ops).map (List.length ∘ (·.opIndices)),
      n ≤ parallelWidth (buildParallelSchedule ops) := by
    intro n hn
    rw [parallelWidth_eq]
    exact List.le_max_of_le' 0 hn (le_refl n)
  have hsum := List.sum_le_card_nsmul _ _ hwidth
  rw [List.length_map, smul_eq_mul] at hsum
  omega

/-! ## Main result -/

/-- The depth of the schedule of every list of operations is at least the size of every set
of operations that conflict with one another, at most one more than the largest number of
earlier conflicts of an operation, and no less than the operations divided by the width. -/
theorem schedule_depth (ops : List ScheduledOp) :
    (∀ set : Finset (Fin (classifyAll ops).length), Clique (classifyAll ops) set →
      set.card ≤ (planSchedule ops).layerCount) ∧
    (∀ d : ℕ, (∀ j, (earlierConflicts (classifyAll ops) j).card ≤ d) →
      (planSchedule ops).layerCount ≤ d + 1) ∧
    ops.length ≤ (planSchedule ops).layerCount * (planSchedule ops).parallelWidth := by
  have hplan : (planSchedule ops).layerCount =
        (buildParallelSchedule (classifyAll ops)).length ∧
      (planSchedule ops).parallelWidth =
        parallelWidth (buildParallelSchedule (classifyAll ops)) := by
    unfold planSchedule
    split
    · next hnil =>
        rw [List.isEmpty_iff.mp hnil]
        exact ⟨rfl, rfl⟩
    · exact ⟨rfl, rfl⟩
  have hindexed := classifyAll_indexed ops
  rw [hplan.1, hplan.2]
  refine ⟨fun set h => h.card_le, fun d hd => length_schedule_le hindexed hd, ?_⟩
  have hbox := length_le_box hindexed
  rwa [length_classifyAll] at hbox

/-- Two transfers of alice, one of bob and a global operation. -/
def threeLayers : List ScheduledOp :=
  [ .nftTransfer { «from» := text "alice", «to» := text "carol", nftId := 1 },
    .nftTransfer { «from» := text "bob", «to» := text "dave", nftId := 2 },
    .globalMarker {},
    .nftTransfer { «from» := text "alice", «to» := text "erin", nftId := 3 } ]

/-- The global operation and alice's transfers make three layers, and no operation needs a
fourth. -/
theorem schedule_depth_threeLayers : (planSchedule threeLayers).layerCount = 3 := by
  obtain ⟨hclique, hdegree, -⟩ := schedule_depth threeLayers
  have hset : Clique (classifyAll threeLayers)
      {⟨0, by decide⟩, ⟨2, by decide⟩, ⟨3, by decide⟩} := by
    unfold Clique
    decide +kernel
  exact le_antisymm (hdegree 2 (by decide +kernel)) (hclique _ hset)

end HiveNative.Perf
