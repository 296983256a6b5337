import HiveNative.Lib.Layering
import HiveNative.Util.Types

/-!
# Dependency layers

`build_parallel_schedule` of `perf/op_dependency.hpp`.  Each operation comes
with the set of strings it touches.  It goes to the first layer that holds
nothing it conflicts with, or to a new layer at the end.

The source keeps three vectors of one length, the layers, their account sets and
their global flags; here the three entries of one layer are one record.
`parallelism_factor` is a floating-point quotient that nothing reads and is left
out.

`schedule_levels` connects the loop to the first-fit levels of `Lib.Layering`:
the layer of an operation is its level under `Conflict`.
-/

namespace HiveNative.Perf

open Std (ExtTreeSet)
open Layering

inductive OpClass where
  | transfer
  | nftTransfer
  | htlcRedeem
  | vote
  | customJson
  | global
  | other
deriving Repr, DecidableEq

structure OpTouch where
  index : ℕ := 0
  cls : OpClass := .other
  accounts : List Bytes := []
  touchesGlobal : Bool := false
deriving Repr, DecidableEq

structure ScheduleLayer where
  opIndices : List ℕ := []
deriving Repr, DecidableEq

/-- A layer under construction. -/
structure LayerState where
  opIndices : List ℕ := []
  accounts : ExtTreeSet Bytes := ∅
  global : Bool := false

/-- The loop over the layers does not skip this one. -/
def LayerState.admits (layer : LayerState) (op : OpTouch) : Bool :=
  !(op.touchesGlobal || layer.global) && !(op.accounts.any fun a => layer.accounts.contains a)

def LayerState.add (layer : LayerState) (op : OpTouch) : LayerState :=
  { opIndices := layer.opIndices ++ [op.index]
    accounts := op.accounts.foldl (fun s a => s.insert a) layer.accounts
    global := if op.touchesGlobal then true else layer.global }

/-- One turn of the loop over the operations. -/
def placeOp (layers : List LayerState) (op : OpTouch) : List LayerState :=
  let place := layers.findIdx fun layer => layer.admits op
  let layers := if place = layers.length then layers ++ [({} : LayerState)] else layers
  layers.modify place fun layer => layer.add op

def buildParallelSchedule (ops : List OpTouch) : List ScheduleLayer :=
  (ops.foldl placeOp []).map fun layer => ⟨layer.opIndices⟩

/-! ## The layer of an operation is its level -/

/-- Two operations conflict: one of them is global, or they touch a common string. -/
def Conflict (a b : OpTouch) : Prop :=
  a.touchesGlobal = true ∨ b.touchesGlobal = true ∨ ∃ x ∈ a.accounts, x ∈ b.accounts

instance : DecidableRel Conflict := fun a b =>
  inferInstanceAs (Decidable (a.touchesGlobal = true ∨ b.touchesGlobal = true ∨ _))

/-- A layer holds the given operations. -/
structure LayerState.Holds (layer : LayerState) (ops : List OpTouch) : Prop where
  indices : layer.opIndices = ops.map (·.index)
  accounts : ∀ x, x ∈ layer.accounts ↔ ∃ b ∈ ops, x ∈ b.accounts
  global : layer.global = true ↔ ∃ b ∈ ops, b.touchesGlobal = true

/-- A layer with an operation in it admits what conflicts with none of its
operations. -/
theorem admits_iff {layer : LayerState} {ops : List OpTouch} (h : layer.Holds ops) (hne : ops ≠ [])
    (op : OpTouch) : layer.admits op = true ↔ ∀ b ∈ ops, ¬ Conflict b op := by
  obtain ⟨c, hc⟩ := List.exists_mem_of_ne_nil ops hne
  simp only [LayerState.admits, Bool.and_eq_true, Bool.not_eq_true', Bool.or_eq_false_iff,
    List.any_eq_false, ExtTreeSet.contains_iff_mem, h.accounts]
  constructor
  · rintro ⟨⟨hop, hlayer⟩, hfree⟩ b hb hconf
    cases hconf with
    | inl hg =>
        rw [h.global.mpr ⟨b, hb, hg⟩] at hlayer
        cases hlayer
    | inr hconf =>
        cases hconf with
        | inl hg =>
            rw [hop] at hg
            cases hg
        | inr hx =>
            obtain ⟨x, hxb, hxop⟩ := hx
            exact hfree x hxop ⟨b, hb, hxb⟩
  · intro hno
    refine ⟨⟨?_, ?_⟩, ?_⟩
    · exact Bool.eq_false_iff.mpr fun hg => hno c hc (Or.inr (Or.inl hg))
    · refine Bool.eq_false_iff.mpr fun hg => ?_
      obtain ⟨b, hb, hbg⟩ := h.global.mp hg
      exact hno b hb (Or.inl hbg)
    · rintro x hx ⟨b, hb, hxb⟩
      exact hno b hb (Or.inr (Or.inr ⟨x, hxb, hx⟩))

theorem mem_foldl_insert (accounts : List Bytes) (s : ExtTreeSet Bytes) (x : Bytes) :
    x ∈ accounts.foldl (fun s a => s.insert a) s ↔ x ∈ s ∨ x ∈ accounts := by
  induction accounts generalizing s with
  | nil => simp
  | cons a accounts ih =>
      rw [List.foldl_cons, ih, ExtTreeSet.mem_insert, List.mem_cons, Std.compare_eq_iff_eq,
        or_assoc, or_left_comm, eq_comm]

theorem holds_empty : ({} : LayerState).Holds [] := by
  refine ⟨rfl, fun x => ?_, ?_⟩
  · simp
  · simp

theorem LayerState.Holds.add {layer : LayerState} {ops : List OpTouch} (h : layer.Holds ops)
    (op : OpTouch) : (layer.add op).Holds (ops ++ [op]) := by
  refine ⟨?_, fun x => ?_, ?_⟩
  · rw [List.map_append, ← h.indices]
    rfl
  · unfold LayerState.add
    simp only [mem_foldl_insert, h.accounts, List.mem_append, List.mem_singleton, or_and_right,
      exists_or, exists_eq_left]
  · unfold LayerState.add
    simp only [List.mem_append, List.mem_singleton, or_and_right, exists_or, exists_eq_left,
      ← h.global]
    cases op.touchesGlobal with
    | true => simp
    | false => simp

/-- The items of one level. -/
def atLevel (p : List (OpTouch × ℕ)) (k : ℕ) : List OpTouch :=
  (p.filter fun b => b.2 = k).map Prod.fst

theorem mem_atLevel {p : List (OpTouch × ℕ)} {k : ℕ} {b : OpTouch} :
    b ∈ atLevel p k ↔ (b, k) ∈ p := by
  simp [atLevel]

theorem atLevel_concat (p : List (OpTouch × ℕ)) (op : OpTouch) (n k : ℕ) :
    atLevel (p ++ [(op, n)]) k = atLevel p k ++ if n = k then [op] else [] := by
  unfold atLevel
  rw [List.filter_append, List.map_append]
  split
  · next h => simp [h]
  · next h => simp [h]

/-- The layers built so far hold the operations placed so far, each in the layer
of its level, and none of them is empty. -/
structure Layered (layers : List LayerState) (p : List (OpTouch × ℕ)) : Prop where
  holds : ∀ k (layer : LayerState), layers[k]? = some layer → layer.Holds (atLevel p k)
  nonempty : ∀ k < layers.length, atLevel p k ≠ []
  below : ∀ b ∈ p, b.2 < layers.length

section Placing

variable {layers : List LayerState} {p : List (OpTouch × ℕ)}

theorem Layered.admits_iff (h : Layered layers p) {k : ℕ} (hk : k < layers.length) (op : OpTouch) :
    layers[k].admits op = true ↔ ∀ b, (b, k) ∈ p → ¬ Conflict b op := by
  rw [Perf.admits_iff (h.holds k _ (List.getElem?_eq_getElem hk)) (h.nonempty k hk)]
  simp only [mem_atLevel]

theorem Layered.atLevel_beyond (h : Layered layers p) {k : ℕ} (hk : layers.length ≤ k) :
    atLevel p k = [] := by
  rw [List.eq_nil_iff_forall_not_mem]
  intro b hb
  have hlt := h.below _ (mem_atLevel.mp hb)
  simp only at hlt
  omega

theorem Layered.indices (h : Layered layers p) :
    layers.map (·.opIndices) =
      (List.range layers.length).map fun k => (atLevel p k).map (·.index) := by
  apply List.ext_getElem?
  intro k
  rw [List.getElem?_map, List.getElem?_map]
  cases hk : layers[k]? with
  | none =>
      have hge := List.getElem?_eq_none_iff.mp hk
      rw [List.getElem?_eq_none (by simpa using hge)]
      rfl
  | some layer =>
      obtain ⟨hlt, -⟩ := List.getElem?_eq_some_iff.mp hk
      rw [List.getElem?_range hlt, Option.map_some, Option.map_some, (h.holds k layer hk).indices]

/-- The search for a place finds the level. -/
theorem Layered.place (h : Layered layers p) (op : OpTouch) :
    layers.findIdx (fun layer => layer.admits op) = levelOf Conflict p op := by
  refine (levelOf_eq_iff.mpr ⟨fun b hb => ?_, fun m hm => ?_⟩).symm
  · have hlt : layers.findIdx (fun layer => layer.admits op) < layers.length := h.below _ hb
    have hfound := List.findIdx_getElem (w := hlt)
    exact (h.admits_iff hlt op).mp hfound b hb
  · have hlt : m < layers.length := lt_of_lt_of_le hm List.findIdx_le_length
    have hskip : ¬ layers[m].admits op = true := by
      rw [Bool.not_eq_true]
      exact List.not_of_lt_findIdx hm
    have hno := mt (h.admits_iff hlt op).mpr hskip
    push Not at hno
    exact hno

theorem getElem?_placeOp (op : OpTouch) (k : ℕ) :
    (placeOp layers op)[k]? =
      if k = layers.findIdx (fun layer => layer.admits op) then
        some ((layers[k]?.getD {}).add op)
      else layers[k]? := by
  have hle : layers.findIdx (fun layer => layer.admits op) ≤ layers.length :=
    List.findIdx_le_length
  unfold placeOp
  generalize layers.findIdx (fun layer => layer.admits op) = place at hle
  rw [List.getElem?_modify]
  by_cases hk : k = place
  · subst hk
    rw [if_pos rfl]
    by_cases hnew : k = layers.length
    · subst hnew
      simp
    · have hlt : k < layers.length := by omega
      simp [hnew, hlt]
  · rw [if_neg hk]
    simp only [Ne.symm hk, if_false]
    by_cases hnew : place = layers.length
    · rw [if_pos hnew]
      cases Nat.lt_or_ge k layers.length with
      | inl hlt => simp [List.getElem?_append_left hlt]
      | inr hge =>
          have hout : (layers ++ [({} : LayerState)]).length ≤ k := by
            rw [List.length_append, List.length_singleton]
            omega
          rw [List.getElem?_eq_none hout, List.getElem?_eq_none hge]
          rfl
    · simp [hnew]

theorem length_placeOp (op : OpTouch) :
    (placeOp layers op).length =
      if layers.findIdx (fun layer => layer.admits op) = layers.length then layers.length + 1
      else layers.length := by
  simp only [placeOp, List.length_modify]
  split
  · rw [List.length_append, List.length_singleton]
  · rfl

theorem Layered.placeOp (h : Layered layers p) (op : OpTouch) :
    Layered (placeOp layers op) (p ++ [(op, levelOf Conflict p op)]) := by
  have hplace := h.place op
  have hle : levelOf Conflict p op ≤ layers.length := hplace ▸ List.findIdx_le_length
  have hlen : (Perf.placeOp layers op).length = _ := length_placeOp op
  rw [hplace] at hlen
  refine ⟨fun k layer hk => ?_, fun k hk => ?_, fun b hb => ?_⟩
  · rw [getElem?_placeOp, hplace] at hk
    rw [atLevel_concat]
    split at hk
    · next heq =>
        cases hk
        rw [if_pos heq.symm]
        refine LayerState.Holds.add ?_ op
        cases hget : layers[k]? with
        | some layer => exact h.holds k layer hget
        | none =>
            -- a new layer: nothing has this level yet
            rw [h.atLevel_beyond (List.getElem?_eq_none_iff.mp hget)]
            exact holds_empty
    · next hne =>
        rw [if_neg (Ne.symm hne), List.append_nil]
        exact h.holds k layer hk
  · rw [atLevel_concat]
    by_cases heq : levelOf Conflict p op = k
    · simp [heq]
    · rw [if_neg heq, List.append_nil]
      apply h.nonempty k
      split at hlen
      · omega
      · omega
  · rw [List.mem_append, List.mem_singleton] at hb
    have hold : layers.length ≤ (Perf.placeOp layers op).length := by
      rw [hlen]
      split
      · omega
      · omega
    cases hb with
    | inl hb => exact lt_of_lt_of_le (h.below b hb) hold
    | inr hb =>
        subst hb
        show levelOf Conflict p op < _
        rw [hlen]
        split
        · omega
        · omega

end Placing

theorem layered_foldl (ops : List OpTouch) :
    Layered (ops.foldl placeOp []) (leveled Conflict ops) := by
  induction ops using List.reverseRecOn with
  | nil =>
      refine ⟨?_, ?_, ?_⟩
      · intro k layer hk
        cases hk
      · intro k hk
        cases hk
      · intro b hb
        cases hb
  | append_singleton ops op ih =>
      rw [List.foldl_append, leveled_concat]
      exact ih.placeOp op

/-- The schedule lists the operations level by level. -/
theorem schedule_levels (ops : List OpTouch) :
    (buildParallelSchedule ops).flatMap (·.opIndices) =
      (byLevel (leveled Conflict ops)).map (·.index) := by
  have h := layered_foldl ops
  unfold buildParallelSchedule byLevel
  generalize ops.foldl placeOp [] = layers at h
  have hlen : layers.length ≤ (leveled Conflict ops).length := by
    cases hl : layers.length with
    | zero => exact Nat.zero_le _
    | succ k =>
        obtain ⟨b, hb⟩ := List.exists_mem_of_ne_nil _ (h.nonempty k (by omega))
        have hlt := level_lt (mem_atLevel.mp hb)
        rw [leveled_length]
        exact hlt
  have hempty : ∀ k, atLevel (leveled Conflict ops) (layers.length + k) = [] :=
    fun k => h.atLevel_beyond (Nat.le_add_right _ k)
  obtain ⟨more, hmore⟩ := Nat.exists_eq_add_of_le hlen
  calc (layers.map fun layer => (⟨layer.opIndices⟩ : ScheduleLayer)).flatMap (·.opIndices)
      = (layers.map (·.opIndices)).flatten := by rw [List.flatMap_map, List.flatMap_def]
    _ = (List.range layers.length).flatMap fun k =>
          (atLevel (leveled Conflict ops) k).map (·.index) := by rw [h.indices, ← List.flatMap_def]
    _ = (List.range (layers.length + more)).flatMap fun k =>
          (atLevel (leveled Conflict ops) k).map (·.index) := by
        rw [List.range_add, List.flatMap_append, List.flatMap_map]
        simp [hempty]
    _ = _ := by
        rw [← hmore, List.map_flatMap]
        rfl

/-! ## Causal order -/

/-- The layer the loop picks for the operation at a position. -/
def placeAt (ops : List OpTouch) (i : Fin ops.length) : ℕ :=
  ((ops.take i).foldl placeOp []).findIdx fun layer => layer.admits ops[i]

theorem leveled_eq_places (ops : List OpTouch) :
    leveled Conflict ops = List.ofFn fun i : Fin ops.length => (ops[i], placeAt ops i) := by
  apply List.ext_getElem?
  intro k
  rw [List.getElem?_ofFn]
  split
  · next hk =>
      rw [getElem?_leveled (List.getElem?_eq_getElem hk), ← (layered_foldl (ops.take k)).place]
      rfl
  · next hk =>
      rw [List.getElem?_eq_none (by rw [leveled_length]; omega)]

/-- Each layer of the schedule lists the operations whose place it is, in the
order of the list. -/
theorem buildParallelSchedule_places (ops : List OpTouch) :
    (buildParallelSchedule ops).map (·.opIndices) =
      (List.range (buildParallelSchedule ops).length).map fun k =>
        ((List.finRange ops.length).filter fun i => placeAt ops i = k).map fun i =>
          ops[i].index := by
  have hlayers := (layered_foldl ops).indices
  rw [buildParallelSchedule, List.map_map, List.length_map]
  refine hlayers.trans (List.map_congr_left fun k _ => ?_)
  rw [leveled_eq_places, atLevel, List.ofFn_eq_map, List.filter_map, List.map_map, List.map_map]
  rfl

/-- Of two operations that conflict, the earlier one is in the earlier layer. -/
def CausalOrder (ops : List OpTouch) : Prop :=
  ∀ i j : Fin ops.length, i < j → Conflict ops[i] ops[j] → placeAt ops i < placeAt ops j

/-- The schedule keeps the causal order exactly when no operation skips a depth:
where it conflicts with an earlier operation that ends a chain of `d` conflicts,
it also conflicts with an earlier one for every smaller number. -/
theorem causalOrder_iff (ops : List OpTouch) :
    CausalOrder ops ↔
      ∀ before op, before ++ [op] <+: ops →
        Gapless (taken Conflict (deepened Conflict before) op) := by
  rw [← ordered_leveled_iff, leveled_eq_places, Ordered, List.pairwise_ofFn]
  rfl

/-- An operation after a global one goes to a layer before it when the global one
had to open a new layer. -/
theorem global_overtaken :
    ¬ CausalOrder [{ accounts := [text "alice"] }, { touchesGlobal := true },
      { accounts := [text "bob"] }] := by
  intro h
  have hlt := h ⟨1, by decide⟩ ⟨2, by decide⟩ (by decide) (by decide)
  revert hlt
  decide +kernel

end HiveNative.Perf
