import HiveNative.Perf.ApplyScheduler

/-!
# The schedule is a first-fit partition

What `plan_schedule` promises about its layers, for every list of operations:
`FirstFitPartition` and `ConflictFree`.  Everything is read off `placeAt`, the layer the
loop picks for an operation.  `placeAt_eq_iff` is its rule: the least layer in which no
earlier operation conflicts.

The schedule is built from touches.  `classify_spec` says which ones an operation has, so
that what holds of the touches holds of the accounts and objects the operations name.
-/

namespace HiveNative.Perf

open Chain Layering

variable {ops : List OpTouch}

/-! ## The place of an operation -/

theorem mem_leveled_take {j : Fin ops.length} {b : OpTouch} {m : ℕ} :
    (b, m) ∈ leveled Conflict (ops.take j) ↔ ∃ i, i < j ∧ ops.get i = b ∧ placeAt ops i = m := by
  have hat : ∀ i : Fin ops.length, i < j →
      (leveled Conflict (ops.take j))[i.val]? = some (ops.get i, placeAt ops i) := by
    intro i hi
    have hget : (ops.take j)[i.val]? = some (ops.get i) := by
      rw [List.getElem?_take_of_lt hi]
      exact List.getElem?_eq_getElem i.isLt
    rw [getElem?_leveled hget, List.take_take, Nat.min_eq_left (Nat.le_of_lt hi),
      ← (layered_foldl (ops.take i)).place]
    rfl
  constructor
  · intro h
    obtain ⟨i, hi, hb⟩ := List.getElem_of_mem h
    have hlt : i < j := by
      rw [leveled_length, List.length_take] at hi
      omega
    have hget := hat ⟨i, by omega⟩ hlt
    rw [List.getElem?_eq_getElem hi, hb, Option.some.injEq, Prod.mk.injEq] at hget
    exact ⟨⟨i, by omega⟩, hlt, hget.1.symm, hget.2.symm⟩
  · intro h
    obtain ⟨i, hi, rfl, rfl⟩ := h
    exact List.mem_of_getElem? (hat i hi)

/-- First fit: an operation goes to the least layer without an earlier operation it
conflicts with. -/
theorem placeAt_eq_iff {j : Fin ops.length} {n : ℕ} :
    placeAt ops j = n ↔
      (∀ i, i < j → placeAt ops i = n → ¬ Conflict (ops.get i) (ops.get j)) ∧
        ∀ m < n, ∃ i, i < j ∧ placeAt ops i = m ∧ Conflict (ops.get i) (ops.get j) := by
  have hplace : placeAt ops j = levelOf Conflict (leveled Conflict (ops.take j)) (ops.get j) :=
    (layered_foldl (ops.take j)).place (ops.get j)
  rw [hplace, levelOf_eq_iff]
  simp only [mem_leveled_take]
  refine and_congr ?_ (forall₂_congr fun m _ => ?_)
  · constructor
    · intro h i hi hn
      exact h _ ⟨i, hi, rfl, hn⟩
    · intro h b hb
      obtain ⟨i, hi, rfl, hn⟩ := hb
      exact h i hi hn
  · constructor
    · intro h
      obtain ⟨b, ⟨i, hi, rfl, hm⟩, hc⟩ := h
      exact ⟨i, hi, hm, hc⟩
    · intro h
      obtain ⟨i, hi, hm, hc⟩ := h
      exact ⟨_, ⟨i, hi, rfl, hm⟩, hc⟩

theorem Conflict.symm {a b : OpTouch} (h : Conflict a b) : Conflict b a := by
  cases h with
  | inl ha => exact Or.inr (Or.inl ha)
  | inr h =>
      cases h with
      | inl hb => exact Or.inl hb
      | inr hx =>
          obtain ⟨x, hxa, hxb⟩ := hx
          exact Or.inr (Or.inr ⟨x, hxb, hxa⟩)

/-- Two operations of one layer do not conflict. -/
theorem not_conflict_of_place {i j : Fin ops.length} (hne : i ≠ j)
    (h : placeAt ops i = placeAt ops j) : ¬ Conflict (ops.get i) (ops.get j) := by
  cases lt_or_gt_of_ne hne with
  | inl hlt => exact (placeAt_eq_iff.mp rfl).1 i hlt h
  | inr hgt => exact fun hc => (placeAt_eq_iff.mp rfl).1 j hgt h.symm hc.symm

/-! ## Layers -/

/-- The operations of a layer, in the order of the list. -/
def layerAt (ops : List OpTouch) (k : ℕ) : List ℕ :=
  ((List.finRange ops.length).filter fun i => placeAt ops i = k).map Fin.val

theorem mem_layerAt {j k : ℕ} :
    j ∈ layerAt ops k ↔ ∃ h : j < ops.length, placeAt ops ⟨j, h⟩ = k := by
  unfold layerAt
  simp only [List.mem_map, List.mem_filter, List.mem_finRange, true_and, decide_eq_true_eq]
  constructor
  · intro h
    obtain ⟨i, hi, rfl⟩ := h
    exact ⟨i.isLt, hi⟩
  · intro h
    obtain ⟨hlt, hk⟩ := h
    exact ⟨⟨j, hlt⟩, hk, rfl⟩

theorem layerAt_ascending (ops : List OpTouch) (k : ℕ) : (layerAt ops k).Pairwise (· < ·) := by
  refine List.Pairwise.map _ (fun _ _ h => h) (List.Pairwise.filter _ ?_)
  exact List.pairwise_lt_finRange ops.length

/-- The operations carry their positions. -/
def Indexed (ops : List OpTouch) : Prop := ops.map (·.index) = List.range ops.length

theorem Indexed.index (h : Indexed ops) (i : Fin ops.length) : (ops.get i).index = i := by
  have hget : (ops.map (·.index))[i.val]? = (List.range ops.length)[i.val]? := by rw [h]
  rw [List.getElem?_map, List.getElem?_eq_getElem i.isLt, List.getElem?_range i.isLt] at hget
  exact Option.some.inj hget

/-- The layers of the schedule, by their operations. -/
theorem schedule_layerAt (h : Indexed ops) :
    (buildParallelSchedule ops).map (·.opIndices) =
      (List.range (buildParallelSchedule ops).length).map (layerAt ops) := by
  rw [buildParallelSchedule_places]
  refine List.map_congr_left fun k _ => List.map_congr_left fun i _ => ?_
  exact h.index i

theorem getElem?_schedule (h : Indexed ops) {k : ℕ} {layer : List ℕ} :
    ((buildParallelSchedule ops).map (·.opIndices))[k]? = some layer ↔
      k < (buildParallelSchedule ops).length ∧ layer = layerAt ops k := by
  rw [schedule_layerAt h, List.getElem?_map, Option.map_eq_some_iff]
  constructor
  · intro hk
    obtain ⟨m, hm, rfl⟩ := hk
    obtain ⟨hlt, rfl⟩ := List.getElem?_eq_some_iff.mp hm
    rw [List.length_range] at hlt
    rw [List.getElem_range]
    exact ⟨hlt, rfl⟩
  · intro hk
    obtain ⟨hlt, rfl⟩ := hk
    exact ⟨k, List.getElem?_range hlt, rfl⟩

theorem mem_schedule (h : Indexed ops) {layer : List ℕ}
    (hl : layer ∈ (buildParallelSchedule ops).map (·.opIndices)) :
    ∃ k < (buildParallelSchedule ops).length, layer = layerAt ops k := by
  obtain ⟨k, hk⟩ := List.mem_iff_getElem?.mp hl
  exact ⟨k, (getElem?_schedule h).mp hk⟩

/-- The loop opens a layer for an operation only. -/
theorem schedule_nonempty {layer : ScheduleLayer} (hl : layer ∈ buildParallelSchedule ops) :
    layer.opIndices ≠ [] := by
  have hlayers := layered_foldl ops
  obtain ⟨state, hstate, rfl⟩ := List.mem_map.mp hl
  obtain ⟨k, hk⟩ := List.mem_iff_getElem?.mp hstate
  obtain ⟨hlt, -⟩ := List.getElem?_eq_some_iff.mp hk
  rw [(hlayers.holds k state hk).indices]
  exact fun hnil => hlayers.nonempty k hlt (List.map_eq_nil_iff.mp hnil)

/-! ## Partitions -/

/-- The layers are a first-fit partition of the items: each item is in one layer, at the
first place where nothing before it conflicts with it. -/
structure FirstFitPartition {α : Type} (conflicts : α → α → Prop) (items : List α)
    (layers : List (List ℕ)) : Prop where
  /-- Every item is in one layer. -/
  partition : layers.flatten.Perm (List.range items.length)
  nonempty : ∀ layer ∈ layers, layer ≠ []
  ascending : ∀ layer ∈ layers, layer.Pairwise (· < ·)
  apart : ∀ layer ∈ layers, ∀ i ∈ layer, ∀ j ∈ layer, i ≠ j → ∀ a b,
    items[i]? = some a → items[j]? = some b → ¬ conflicts a b
  /-- Each earlier layer has an earlier item that conflicts. -/
  first_fit : ∀ (k : ℕ) (layer : List ℕ), layers[k]? = some layer → ∀ j ∈ layer, ∀ m < k,
    ∃ earlier, layers[m]? = some earlier ∧ ∃ i ∈ earlier, i < j ∧
      ∃ a b, items[i]? = some a ∧ items[j]? = some b ∧ conflicts a b

namespace FirstFitPartition

variable {α : Type} {conflicts : α → α → Prop} {items : List α} {layers : List (List ℕ)}

/-- An index of a layer is a position of the list. -/
theorem lt_length (h : FirstFitPartition conflicts items layers) {layer : List ℕ}
    (hl : layer ∈ layers) {i : ℕ} (hi : i ∈ layer) : i < items.length := by
  have hmem : i ∈ layers.flatten := List.mem_flatten.mpr ⟨layer, hl, hi⟩
  simpa using h.partition.mem_iff.mp hmem

/-- What conflicts with everything is alone in its layer. -/
theorem alone (h : FirstFitPartition conflicts items layers) {layer : List ℕ} (hl : layer ∈ layers)
    {i : ℕ} (hi : i ∈ layer) {a : α} (ha : items[i]? = some a) (hall : ∀ b, conflicts a b) :
    layer = [i] := by
  have honly : ∀ j ∈ layer, j = i := by
    intro j hj
    by_contra hne
    have hb := List.getElem?_eq_getElem (h.lt_length hl hj)
    exact h.apart layer hl i hi j hj (Ne.symm hne) _ _ ha hb (hall _)
  have hnodup : layer.Nodup := (h.ascending layer hl).imp fun hlt => Nat.ne_of_lt hlt
  refine List.perm_singleton.mp ((List.perm_ext_iff_of_nodup hnodup (List.nodup_singleton i)).mpr
    fun j => ⟨fun hj => List.mem_singleton.mpr (honly j hj), fun hj => ?_⟩)
  rw [List.mem_singleton.mp hj]
  exact hi

end FirstFitPartition

/-! ## The schedule of touches -/

theorem layer_not_conflict {k i j : ℕ} (hi : i ∈ layerAt ops k) (hj : j ∈ layerAt ops k)
    (hne : i ≠ j) {a b : OpTouch} (ha : ops[i]? = some a) (hb : ops[j]? = some b) :
    ¬ Conflict a b := by
  obtain ⟨hilt, hik⟩ := mem_layerAt.mp hi
  obtain ⟨hjlt, hjk⟩ := mem_layerAt.mp hj
  rw [List.getElem?_eq_getElem hilt, Option.some.injEq] at ha
  rw [List.getElem?_eq_getElem hjlt, Option.some.injEq] at hb
  subst ha hb
  refine not_conflict_of_place ?_ (hik.trans hjk.symm)
  exact fun heq => hne (congrArg Fin.val heq)

theorem schedule_partition (h : Indexed ops) :
    FirstFitPartition Conflict ops ((buildParallelSchedule ops).map (·.opIndices)) := by
  refine ⟨?_, fun layer hl => ?_, fun layer hl => ?_, fun layer hl i hi j hj hne a b ha hb => ?_,
    fun k layer hk j hj m hm => ?_⟩
  · have hall : (buildParallelSchedule ops).flatMap (·.opIndices) = _ := schedule_levels ops
    rw [List.flatMap_def] at hall
    rw [hall, ← h]
    exact (byLevel_perm ops).map _
  · obtain ⟨x, hx, rfl⟩ := List.mem_map.mp hl
    exact schedule_nonempty hx
  · obtain ⟨k, -, rfl⟩ := mem_schedule h hl
    exact layerAt_ascending ops k
  · obtain ⟨k, -, rfl⟩ := mem_schedule h hl
    exact layer_not_conflict hi hj hne ha hb
  · obtain ⟨hlt, rfl⟩ := (getElem?_schedule h).mp hk
    obtain ⟨hjlt, hjk⟩ := mem_layerAt.mp hj
    obtain ⟨i, hi, him, hc⟩ := (placeAt_eq_iff.mp hjk).2 m hm
    exact ⟨layerAt ops m, (getElem?_schedule h).mpr ⟨by omega, rfl⟩, i,
      mem_layerAt.mpr ⟨i.isLt, him⟩, hi, ops[i], ops[j], List.getElem?_eq_getElem i.isLt,
      List.getElem?_eq_getElem hjlt, hc⟩

/-- `parallel_width` is the size of the largest layer. -/
theorem parallelWidth_eq (layers : List ScheduleLayer) :
    parallelWidth layers = (layers.map (·.opIndices.length)).foldr max 0 := by
  have hmax : ∀ (n : ℕ) (layer : ScheduleLayer),
      (if layer.opIndices.length > n then layer.opIndices.length else n) =
        max n layer.opIndices.length := by
    intro n layer
    split
    · omega
    · omega
  rw [← List.foldl_eq_foldr, List.foldl_map, parallelWidth]
  simp only [hmax]

/-! ## The schedule of operations -/

/-- What an operation works on. -/
inductive Resource where
  | account (name : AccountName)
  | nft (id : NftId)
  | htlc (id : HtlcId)
  | contract (id : ContractId)
deriving Repr, DecidableEq

/-- The touch key that stands for a resource. -/
def Resource.key : Resource → Bytes
  | account name => name
  | nft id => text "nft:" ++ decimal id
  | htlc id => text "htlc:" ++ decimal id
  | contract id => text "contract:" ++ decimal id

namespace ScheduledOp

/-- The accounts and objects that an operation names. -/
def resources : ScheduledOp → List Resource
  | nftTransfer op => [.account op.from, .account op.to, .nft op.nftId]
  | htlcRedeem op => [.account op.to, .htlc op.htlcId]
  | contractCall op => [.account op.caller, .contract op.contractId]
  | globalMarker _ => []

def isGlobal : ScheduledOp → Bool
  | globalMarker _ => true
  | _ => false

/-- One of the operations is global, or they name resources with one touch key. -/
def Excludes (a b : ScheduledOp) : Prop :=
  a.isGlobal = true ∨ b.isGlobal = true ∨
    ∃ x ∈ a.resources, ∃ y ∈ b.resources, x.key = y.key

end ScheduledOp

/-- The classification gives an operation its position and the keys of its resources, and
marks the global ones. -/
theorem classify_spec (i : ℕ) (op : ScheduledOp) :
    (classifyScheduledOp i op).index = i ∧
      (classifyScheduledOp i op).accounts = op.resources.map Resource.key ∧
      (classifyScheduledOp i op).touchesGlobal = op.isGlobal := by
  cases op with
  | _ => exact ⟨rfl, rfl, rfl⟩

theorem conflict_classify_iff {i j : ℕ} {a b : ScheduledOp} :
    Conflict (classifyScheduledOp i a) (classifyScheduledOp j b) ↔ a.Excludes b := by
  obtain ⟨-, hkeysA, hglobalA⟩ := classify_spec i a
  obtain ⟨-, hkeysB, hglobalB⟩ := classify_spec j b
  rw [Conflict, hkeysA, hkeysB, hglobalA, hglobalB]
  simp only [ScheduledOp.Excludes, List.mem_map, exists_exists_and_eq_and]
  simp only [eq_comm]

theorem getElem?_classifyAll (ops : List ScheduledOp) (i : ℕ) :
    (classifyAll ops)[i]? = ops[i]?.map (classifyScheduledOp i) := by
  rw [classifyAll, List.getElem?_map, List.getElem?_zipIdx, Option.map_map, Nat.zero_add]
  rfl

theorem length_classifyAll (ops : List ScheduledOp) : (classifyAll ops).length = ops.length := by
  rw [classifyAll, List.length_map, List.length_zipIdx]

theorem classifyAll_indexed (ops : List ScheduledOp) : Indexed (classifyAll ops) := by
  rw [Indexed, length_classifyAll]
  apply List.ext_getElem?
  intro i
  rw [List.getElem?_map, getElem?_classifyAll, Option.map_map]
  rcases lt_or_ge i ops.length with hlt | hge
  · rw [List.getElem?_eq_getElem hlt, List.getElem?_range hlt]
    exact congrArg some (classify_spec i _).1
  · rw [List.getElem?_eq_none hge, List.getElem?_eq_none (by simpa using hge)]
    rfl

/-- The layers of the touches are a partition of the operations. -/
theorem FirstFitPartition.of_classified {ops : List ScheduledOp} {layers : List (List ℕ)}
    (h : FirstFitPartition Conflict (classifyAll ops) layers) :
    FirstFitPartition ScheduledOp.Excludes ops layers := by
  refine ⟨length_classifyAll ops ▸ h.partition, h.nonempty, h.ascending,
    fun layer hl i hi j hj hne a b ha hb => ?_, fun k layer hk j hj m hm => ?_⟩
  · rw [← conflict_classify_iff (i := i) (j := j)]
    refine h.apart layer hl i hi j hj hne _ _ ?_ ?_
    · rw [getElem?_classifyAll, ha, Option.map_some]
    · rw [getElem?_classifyAll, hb, Option.map_some]
  · obtain ⟨earlier, hm, i, hi, hij, x, y, hx, hy, hc⟩ := h.first_fit k layer hk j hj m hm
    rw [getElem?_classifyAll, Option.map_eq_some_iff] at hx hy
    obtain ⟨a, ha, rfl⟩ := hx
    obtain ⟨b, hb, rfl⟩ := hy
    exact ⟨earlier, hm, i, hi, hij, a, b, ha, hb, conflict_classify_iff.mp hc⟩

/-! ## Main result -/

/-- No layer brings operations together that exclude one another. -/
structure ConflictFree (ops : List ScheduledOp) (layers : List (List ℕ)) : Prop where
  global_alone : ∀ layer ∈ layers, ∀ i ∈ layer, ∀ marker,
    ops[i]? = some (.globalMarker marker) → layer = [i]
  /-- No account and no object is named twice, nor any two that have one touch key. -/
  resources_apart : ∀ layer ∈ layers, ∀ i ∈ layer, ∀ j ∈ layer, i ≠ j → ∀ a b : ScheduledOp,
    ops[i]? = some a → ops[j]? = some b → ∀ x ∈ a.resources, ∀ y ∈ b.resources,
      x ≠ y ∧ x.key ≠ y.key

theorem FirstFitPartition.conflictFree {ops : List ScheduledOp} {layers : List (List ℕ)}
    (h : FirstFitPartition ScheduledOp.Excludes ops layers) : ConflictFree ops layers where
  global_alone _ hl _ hi _ hop := h.alone hl hi hop fun _ => Or.inl rfl
  resources_apart layer hl i hi j hj hne a b ha hb x hx y hy := by
    have hkey : x.key ≠ y.key := fun heq =>
      h.apart layer hl i hi j hj hne a b ha hb (Or.inr (Or.inr ⟨x, hx, y, hy, heq⟩))
    exact ⟨fun heq => hkey (congrArg Resource.key heq), hkey⟩

/-- The schedule of every list of operations is a first-fit partition of the operations.  A
global one has a layer of its own, two operations that name a common account, token, lock or
contract are in different layers, and the width is the size of the largest layer. -/
theorem planSchedule_partition (ops : List ScheduledOp) :
    FirstFitPartition ScheduledOp.Excludes ops ((planSchedule ops).layers.map (·.opIndices)) ∧
      ConflictFree ops ((planSchedule ops).layers.map (·.opIndices)) ∧
      (planSchedule ops).parallelWidth =
        ((planSchedule ops).layers.map (·.opIndices.length)).foldr max 0 := by
  have hplan : FirstFitPartition Conflict (classifyAll ops)
      ((planSchedule ops).layers.map (·.opIndices)) ∧
      (planSchedule ops).parallelWidth =
        ((planSchedule ops).layers.map (·.opIndices.length)).foldr max 0 := by
    unfold planSchedule
    split
    · next hnil =>
        rw [List.isEmpty_iff.mp hnil]
        exact ⟨schedule_partition (classifyAll_indexed []), rfl⟩
    · exact ⟨schedule_partition (classifyAll_indexed ops), parallelWidth_eq _⟩
  have hops := hplan.1.of_classified
  exact ⟨hops, hops.conflictFree, hplan.2⟩

/-- Two transfers of one token, two calls of one contract, carol in two operations, and a
global operation in front of the last one. -/
def sharedResources : List ScheduledOp :=
  [ .nftTransfer { «from» := text "alice", «to» := text "bob", nftId := 1 },
    .htlcRedeem { «to» := text "carol", htlcId := 1, preimage := text "secret" },
    .nftTransfer { «from» := text "dave", «to» := text "erin", nftId := 1 },
    .contractCall
      { caller := text "carol", contractId := 7, exportName := text "call", args := [] },
    .globalMarker {},
    .contractCall
      { caller := text "frank", contractId := 7, exportName := text "call", args := [] } ]

theorem planSchedule_partition_sharedResources :
    FirstFitPartition ScheduledOp.Excludes sharedResources [[0, 1, 5], [2, 3], [4]] ∧
      ConflictFree sharedResources [[0, 1, 5], [2, 3], [4]] ∧
      (planSchedule sharedResources).parallelWidth = 3 := by
  have hlayers : (planSchedule sharedResources).layers.map (·.opIndices) =
      [[0, 1, 5], [2, 3], [4]] := by decide +kernel
  obtain ⟨hfit, hfree, hwidth⟩ := planSchedule_partition sharedResources
  rw [hlayers] at hfit hfree
  exact ⟨hfit, hfree, by rw [hwidth]; decide +kernel⟩

end HiveNative.Perf
