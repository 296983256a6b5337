import HiveNative.Chain.Run

/-!
# Failed operations

A failed operation leaves the consensus state as it was.  The one write that can
precede a failure is the storage entry that a contract call looks up by
`operator[]`; in a reachable database every contract already has its entry, so
the lookup creates nothing.
-/

namespace HiveNative.Chain

open Std (ExtTreeMap)
open EState OrderedMap

variable {db db' : Database}

/-- Everything but the charge and the pending virtual operations is the same. -/
structure SameConsensus (db db' : Database) : Prop where
  funds : SameFunds db db'
  tokens : SameTokens db db'
  contracts : SameContracts db db'
  headTime : db'.headTime = db.headTime
  config : db'.config = db.config

theorem Within.sameConsensus (h : Within db db') : SameConsensus db db' := by
  rw [h]
  exact ⟨⟨rfl, rfl, rfl⟩, ⟨rfl, rfl, rfl, rfl, rfl, rfl⟩, ⟨rfl, rfl, rfl⟩, rfl, rfl⟩

theorem HasStorage.of_same (h : HasStorage db) (same : SameContracts db db') : HasStorage db' := by
  unfold HasStorage
  rw [same.contracts, same.contractStorage]
  exact h

theorem HasStorage.insert {id : ContractId} {c : ContractObject} {st : Contracts.Storage}
    (h : HasStorage db) (hc : db'.contracts = db.contracts.insert id c)
    (hs : db'.contractStorage = db.contractStorage.insert id st) : HasStorage db' := by
  intro i x hx
  rw [hc, getElem?_insert_eq] at hx
  rw [hs, getElem?_insert_eq]
  split
  · exact ⟨st, rfl⟩
  · next hi =>
      rw [if_neg hi] at hx
      exact h i x hx

/-- A failed step of a database in which every contract has its storage entry. -/
theorem program_error_same {s : Step} {x : Stop} (hs : HasStorage db)
    (h : s.program db = .error x db') : SameConsensus db db' := by
  cases s with
  | createAccount name hive hbd =>
      exact Within.sameConsensus (atomic_createAccount name hive hbd _ _ _ h).1
  | setHeadTime t => exact (modify_error.mp h).elim
  | apply op => exact Within.sameConsensus (apply_error hs h)

theorem hasStorage_step (s : Step) (h : HasStorage db) :
    HasStorage (Machine.event exec db s).after := by
  cases event_cases db s with
  | inr hfail =>
      obtain ⟨x, -, hfail⟩ := hfail
      exact h.of_same (program_error_same h hfail).contracts
  | inl hok =>
      obtain ⟨-, hok⟩ := hok
      cases s with
      | createAccount name hive hbd =>
          obtain ⟨-, hdb⟩ := createAccount_ok.mp hok
          rw [hdb]
          exact h.of_same ⟨rfl, rfl, rfl⟩
      | setHeadTime t =>
          rw [← modify_ok.mp hok]
          exact h.of_same ⟨rfl, rfl, rfl⟩
      | apply op =>
          have hframe : Framed op db _ := apply_frame hok
          cases op with
          | contractDeploy op =>
              obtain ⟨-, hdb⟩ := applyContractDeploy_ok.mp hok
              rw [hdb]
              exact h.insert rfl rfl
          | contractCall op =>
              obtain ⟨c, res, hg, -, -, hdb⟩ := applyContractCall_ok.mp hok
              rw [hdb]
              exact h.insert (insert_getElem?_self hg.found).symm rfl
          | _ => exact h.of_same (hframe.contracts fun hp => by cases hp)

theorem hasStorage_run (config : NodeConfig) (steps : List Step) :
    HasStorage (final config steps) := by
  refine Machine.invariant (fun _ db => HasStorage db) ?_ (fun _ _ s h => hasStorage_step s h) steps
  intro id c hc
  simp [Database.empty] at hc

/-- An operation that throws leaves the consensus state of a reachable database
as it was. -/
theorem failed_operation_keeps_state (config : NodeConfig) (steps : List Step) (op : Operation)
    (ex : Exception) (db' : Database)
    (h : apply op (final config steps) = .error (.threw ex) db') :
    SameConsensus (final config steps) db' :=
  Within.sameConsensus (apply_error (hasStorage_run config steps) h)

/-- A contract and a value in its storage. -/
def contractRun : List Step :=
  [ .apply (.contractCall
      { caller := text "alice", contractId := 1, exportName := text "run"
        args := text "WRITE:k:v", fuelLimit := 1000 }),
    .apply (.contractDeploy { owner := text "alice", code := [1, 2, 3], fuelLimit := 1000 }),
    .createAccount (text "alice") 0 0 ]

/-- A call with an amount that `std::stoull` refuses. -/
def badBurn : Operation :=
  .contractCall
    { caller := text "alice", contractId := 1, exportName := text "run"
      args := text "BURN:x", fuelLimit := 1000 }

theorem failed_operation_keeps_state_badBurn :
    ∃ db', apply badBurn (final {} contractRun) =
        .error (.threw (.invalidArgument "stoull")) db' ∧
      SameConsensus (final {} contractRun) db' := by
  have hfail : apply badBurn (final {} contractRun) = .error (.threw (.invalidArgument "stoull"))
      (exec (.apply badBurn) (final {} contractRun)).2 := by
    have hout : exec (.apply badBurn) (final {} contractRun) =
        (.error (.threw (.invalidArgument "stoull")), _) := Prod.ext (by decide +kernel) rfl
    exact exec_error.mp hout
  exact ⟨_, hfail, failed_operation_keeps_state {} contractRun badBurn _ _ hfail⟩

end HiveNative.Chain
