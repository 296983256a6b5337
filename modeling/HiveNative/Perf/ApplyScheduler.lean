import HiveNative.Chain.Evaluators
import HiveNative.Perf.OpDependency

/-!
# The apply scheduler

`perf/apply_scheduler.hpp`: four kinds of operation are classified by what they
touch, laid out in layers, and applied layer by layer.

The counters of the statistics are `size_t` and count operations held in memory,
so they are natural numbers here.  `parallelism_factor` is a floating-point
quotient that nothing reads and is left out.  `plan_schedule` and
`apply_scheduled` fill the statistics with the same lines, `scheduleOf` here.
-/

namespace HiveNative.Perf

open Chain

structure GlobalMarkerOperation where
  name : Bytes := text "global"
deriving Repr, DecidableEq

inductive ScheduledOp where
  | nftTransfer (op : NftTransferOperation)
  | htlcRedeem (op : HtlcRedeemOperation)
  | contractCall (op : ContractCallOperation)
  | globalMarker (op : GlobalMarkerOperation)
deriving Repr, DecidableEq

structure ApplyScheduleStats where
  layers : List ScheduleLayer := []
  /-- The largest number of operations in one layer. -/
  parallelWidth : ℕ := 0
  opsApplied : ℕ := 0
  layerCount : ℕ := 0
deriving Repr, DecidableEq

/-! ## Classification -/

def classifyNftTransfer (index : ℕ) (op : NftTransferOperation) : OpTouch :=
  { index := index
    cls := .nftTransfer
    accounts := [op.from, op.to, text "nft:" ++ decimal op.nftId]
    touchesGlobal := false }

def classifyHtlcRedeem (index : ℕ) (op : HtlcRedeemOperation) : OpTouch :=
  { index := index
    cls := .htlcRedeem
    accounts := [op.to, text "htlc:" ++ decimal op.htlcId]
    touchesGlobal := false }

def classifyContractCall (index : ℕ) (op : ContractCallOperation) : OpTouch :=
  { index := index
    cls := .customJson
    accounts := [op.caller, text "contract:" ++ decimal op.contractId]
    touchesGlobal := false }

def classifyGlobal (index : ℕ) (_op : GlobalMarkerOperation) : OpTouch :=
  { index := index
    cls := .global
    touchesGlobal := true }

def classifyScheduledOp (index : ℕ) : ScheduledOp → OpTouch
  | .nftTransfer op => classifyNftTransfer index op
  | .htlcRedeem op => classifyHtlcRedeem index op
  | .contractCall op => classifyContractCall index op
  | .globalMarker op => classifyGlobal index op

def classifyAll (ops : List ScheduledOp) : List OpTouch :=
  ops.zipIdx.map fun p => classifyScheduledOp p.2 p.1

/-! ## Execution -/

/-- A global marker writes a virtual operation and nothing else. -/
def applyOne : ScheduledOp → Eval Unit
  | .nftTransfer op => apply (.nftTransfer op)
  | .htlcRedeem op => apply (.htlcRedeem op)
  | .contractCall op => apply (.contractCall op)
  | .globalMarker op => pushVirtual "global_marker" (jsonObject [jsonStr "name" op.name])

/-- The operations of a list one by one. -/
def applySerial : List ScheduledOp → Eval Unit
  | [] => pure ()
  | op :: ops => do
      applyOne op
      applySerial ops

def parallelWidth (layers : List ScheduleLayer) : ℕ :=
  layers.foldl
    (fun width layer => if layer.opIndices.length > width then layer.opIndices.length else width) 0

/-- The statistics of a list that is not empty, before anything is applied. -/
def scheduleOf (ops : List ScheduledOp) : ApplyScheduleStats :=
  let layers := buildParallelSchedule (classifyAll ops)
  { layers := layers
    layerCount := layers.length
    parallelWidth := parallelWidth layers }

def planSchedule (ops : List ScheduledOp) : ApplyScheduleStats :=
  if ops.isEmpty then {} else scheduleOf ops

/-- `apply_one(db, ops[idx]); ++stats.ops_applied;`.  The vector is indexed
without a check. -/
def applyAt (ops : List ScheduledOp) (stats : ApplyScheduleStats) (idx : ℕ) :
    Eval ApplyScheduleStats :=
  match ops[idx]? with
  | none => throw .undefined
  | some op => do
      applyOne op
      return { stats with opsApplied := stats.opsApplied + 1 }

def applyScheduled (ops : List ScheduledOp) : Eval ApplyScheduleStats :=
  if ops.isEmpty then pure {}
  else
    let stats := scheduleOf ops
    stats.layers.foldlM (fun stats layer => layer.opIndices.foldlM (applyAt ops) stats) stats

end HiveNative.Perf
