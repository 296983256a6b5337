import HiveNative.Chain.WellFormed
import HiveNative.Contracts.Commands

/-!
# Calls are accounted for

A call that reaches the engine is meant to be charged and logged whatever the
engine says: `Accounted` is this promise.  An exception that the engine throws
skips both, since nothing between the engine and the caller of `apply` catches
it.  So a call is accounted for exactly when its command is not an unreadable
`BURN:` with the base charge paid (`call_accounted_iff`).
-/

namespace HiveNative.Chain

open Std (ExtTreeMap)
open EState OrderedMap Contracts

variable {db db' : Database} {op : ContractCallOperation} {c : ContractObject}

/-- The run of a call past the checks: the engine, and what follows it. -/
theorem applyContractCall_of_callable (h : Callable db op c) :
    applyContractCall op db =
      (Eval.lift (runCall db op c) >>= settleCall op (db.storageOf op.contractId))
        (db.touchStorage op.contractId) := by
  have hfork : requireHardfork hiveHardforkContracts db = .ok () db :=
    requireHardfork_ok.mpr ⟨h.active.hardfork, rfl⟩
  have hrun : requireContracts db = .ok () db := requireContracts_ok.mpr ⟨h.active.run, rfl⟩
  have hvalid : Eval.lift op.validate db = .ok () db :=
    lift_ok.mpr ⟨ContractCallOperation.validate_iff.mpr h.valid, rfl⟩
  have hget : (get : Eval Database) db = .ok db db := rfl
  have hcaller : Eval.throwIf (¬ db.accountExists op.caller = true) "account missing" db =
      .ok () db := throwIf_ok.mpr ⟨not_not.mpr h.caller_exists, rfl⟩
  have hfound : Eval.find db.contracts[op.contractId]? "unknown contract" db = .ok c db :=
    find_ok.mpr ⟨h.found, rfl⟩
  rw [applyContractCall, bind_of_ok hfork, bind_of_ok hrun, bind_of_ok hvalid, bind_of_ok hget,
    bind_of_ok hcaller, bind_of_ok hfound]
  rfl

/-! ## What a call owes -/

/-- The call ended, by returning or by a `protocol_error`, with the result `res` of
the engine charged and logged. -/
structure Settled (op : ContractCallOperation) (db : Database) (res : CallResult)
    (db' : Database) : Prop where
  ended : apply (.contractCall op) db = .ok () db' ∧ res.success = true ∨
    ∃ message, apply (.contractCall op) db = .error (.threw (.protocolError message)) db' ∧
      res.success = false
  charged : db'.lastRcCharged = Rc.costContractCall op res.fuelUsed
  logged : db'.pendingVirtualOps = db.pendingVirtualOps ++
    [⟨"contract_called", contractCalledPayload op.contractId res.success res.fuelUsed⟩]

/-- The engine gave a result for the call, and the call is settled with it. -/
def Accounted (op : ContractCallOperation) (c : ContractObject) (db : Database) : Prop :=
  ∃ res db', runCall db op c = .ok res ∧ Settled op db res db'

/-- A call is settled with any result the engine gives. -/
theorem settled_of_result (h : Callable db op c) {res : CallResult}
    (hres : runCall db op c = .ok res) : ∃ db', Settled op db res db' := by
  have hrun : apply (.contractCall op) db =
      settleCall op (db.storageOf op.contractId) res (db.touchStorage op.contractId) := by
    show applyContractCall op db = _
    rw [applyContractCall_of_callable h, hres]
    rfl
  cases hend : settleCall op (db.storageOf op.contractId) res (db.touchStorage op.contractId) with
  | ok u db' =>
      obtain ⟨hs, hdb⟩ := settleCall_ok.mp hend
      refine ⟨db', Or.inl ⟨hrun.trans hend, hs⟩, ?_, ?_⟩
      · rw [hdb]
      · rw [hdb, hs]
        rfl
  | error x db' =>
      obtain ⟨hs, hx, hdb⟩ := settleCall_error hend
      rw [hx] at hend
      refine ⟨db', Or.inr ⟨_, hrun.trans hend, hs⟩, ?_, ?_⟩
      · rw [hdb]
      · rw [hdb, hs]
        rfl

theorem accounted_iff_result (h : Callable db op c) :
    Accounted op c db ↔ ∃ res, runCall db op c = .ok res := by
  constructor
  · intro hacc
    obtain ⟨res, -, hres, -⟩ := hacc
    exact ⟨res, hres⟩
  · intro hex
    obtain ⟨res, hres⟩ := hex
    obtain ⟨db', hset⟩ := settled_of_result h hres
    exact ⟨res, db', hres, hset⟩

/-! ## Stored contracts have code -/

/-- Every stored contract has code. -/
def HasCode (db : Database) : Prop :=
  ∀ (id : ContractId) (c : ContractObject), db.contracts[id]? = some c → c.code ≠ []

theorem hasCode_step (s : Step) (hs : HasStorage db) (hc : HasCode db) :
    HasCode (Machine.event exec db s).after := by
  intro id c hfound
  cases contractsMove s hs with
  | idle same quiet =>
      rw [same.contracts] at hfound
      exact hc id c hfound
  | call done label guards contracts contractStorage next =>
      rw [contracts] at hfound
      exact hc id c hfound
  | deploy done label guards contracts contractStorage next =>
      rw [contracts, getElem?_insert_eq] at hfound
      split at hfound
      · cases hfound
        exact guards.valid.code_nonempty
      · exact hc id c hfound

theorem hasCode_run (config : NodeConfig) (steps : List Step) : HasCode (final config steps) := by
  induction steps with
  | nil =>
      intro id c hfound
      simp [Database.empty] at hfound
  | cons s steps ih => exact hasCode_step s (hasStorage_run config steps) ih

/-! ## Main result -/

/-- A call that reaches the engine is accounted for, unless its base charge is paid
and it is an unreadable `BURN:`. -/
theorem call_accounted_iff (config : NodeConfig) (steps : List Step) (op : ContractCallOperation)
    (c : ContractObject) (h : Callable (final config steps) op c) :
    Accounted op c (final config steps) ↔ ¬ (50 ≤ op.fuelLimit ∧ UnreadableBurn op.args) := by
  have hcode := hasCode_run config steps op.contractId c h.found
  have hthrows : (∃ ex, runCall (final config steps) op c = .error ex) ↔
      50 ≤ op.fuelLimit ∧ UnreadableBurn op.args :=
    call_throws_iff hcode h.valid.export_nonempty
  rw [accounted_iff_result h, ← hthrows]
  cases runCall (final config steps) op c with
  | ok res => simp
  | error ex => simp

/-- The contract of `contractRun`. -/
def runContract : ContractObject :=
  { id := 1, owner := text "alice", codeHash := sha256 [1, 2, 3], code := [1, 2, 3], created := 0 }

/-- A call of the contract of `contractRun`. -/
def callWith (args : Bytes) : ContractCallOperation :=
  { caller := text "alice", contractId := 1, exportName := text "run", args := args
    fuelLimit := 1000 }

theorem callable_contractRun {args : Bytes} (hargs : args.length ≤ maxContractArgs) :
    Callable (final {} contractRun) (callWith args) runContract where
  active := ⟨by decide +kernel, by decide +kernel⟩
  valid :=
    { caller := show ValidName (text "alice") from
        (assertAccountName_eq_ok (u := ())).mp (by decide)
      id_ne := show (1 : ContractId) ≠ 0 by decide
      fuel_ne := show (1000 : UInt64) ≠ 0 by decide
      export_short := show (text "run").length ≤ maxContractExport by decide
      export_nonempty := show text "run" ≠ [] by decide
      args_short := hargs }
  caller_exists := show (final {} contractRun).accountExists (text "alice") = true by
    decide +kernel
  found := show (final {} contractRun).contracts[(1 : ContractId)]? = some runContract by
    decide +kernel

/-- A call with a number is accounted for. -/
theorem call_accounted_iff_contractRun :
    Callable (final {} contractRun) (callWith (text "BURN:7")) runContract ∧
      Accounted (callWith (text "BURN:7")) runContract (final {} contractRun) := by
  have hcall := callable_contractRun (show (text "BURN:7").length ≤ _ by decide)
  exact ⟨hcall, (call_accounted_iff {} contractRun _ _ hcall).mpr (by decide +kernel)⟩

/-- A call with something else is not: `std::invalid_argument` leaves `apply`, with
nothing charged and nothing logged. -/
theorem call_not_accounted :
    Callable (final {} contractRun) (callWith (text "BURN:x")) runContract ∧
      ¬ Accounted (callWith (text "BURN:x")) runContract (final {} contractRun) ∧
      (exec (.apply (.contractCall (callWith (text "BURN:x")))) (final {} contractRun)).1 =
        .error (.threw (.invalidArgument "stoull")) := by
  refine ⟨callable_contractRun (by decide), fun hacc => ?_, by decide +kernel⟩
  obtain ⟨res, -, hres, -⟩ := hacc
  have hthrew : (runCall (final {} contractRun) (callWith (text "BURN:x"))
      runContract).toOption.isNone = true := by decide +kernel
  rw [hres] at hthrew
  cases hthrew

end HiveNative.Chain
