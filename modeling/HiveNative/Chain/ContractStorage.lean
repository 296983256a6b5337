import HiveNative.Chain.CallAccounting
import HiveNative.Chain.EventLog
import HiveNative.Perf.ScheduledApply

/-!
# Contract storage

A value gets into the storage of a contract in one way: a call whose command is the
text of a write, that passes the checks of the operation and the size limits of the
engine and can pay for it (`WriteReady`).  `StorageMove` says that an event does
nothing to the storages, adds an empty one, or is such a write.

From it follow the round trip of a write together with its converse
(`storage_writes_isolated`), and the limits on what a contract stores.  The engine
checks the size of each key and value, but nothing adds them up: the quota of a
contract is kept exactly by the runs in which every write fits
(`storage_limits_iff`).
-/

namespace HiveNative.Chain

open Std (ExtTreeMap)
open EState OrderedMap Contracts

variable {db db' : Database}

/-! ## Writes -/

/-- The value stored at a key of a contract. -/
def Database.storedValue (db : Database) (id : ContractId) (key : Bytes) : Option Bytes :=
  db.contractStorage[id]?.bind (·[key]?)

/-- The command is the text of a write of `v` at `k`, within the limits and paid. -/
structure WriteText (op : ContractCallOperation) (k v : Bytes) : Prop where
  args : op.args = writeArgs k v
  plain : 58 ∉ k
  key_short : k.length ≤ 256
  value_short : v.length ≤ 4096
  paid : 250 + 2 * v.length ≤ op.fuelLimit.toNat

/-- The call passes the checks and writes `v` at `k`. -/
structure WriteReady (db : Database) (op : ContractCallOperation) (k v : Bytes) : Prop extends
    WriteText op k v where
  callable : ∃ c, Callable db op c

/-- The database with `v` stored at a key. -/
structure Wrote (db db' : Database) (id : ContractId) (k v : Bytes) : Prop where
  stored : db'.storedValue id k = some v
  keys : ∀ key, key ≠ k → db'.storedValue id key = db.storedValue id key
  others : ∀ id' : ContractId, id' ≠ id → db'.contractStorage[id']? = db.contractStorage[id']?

theorem getStorageKey_eq {db : Database} (h : db.config.contractsSkip = false) (id : ContractId)
    (key : Bytes) : Api.getStorageKey db id key = db.storedValue id key := by
  unfold Api.getStorageKey Database.storedValue
  rw [h, if_neg Bool.false_ne_true]
  cases db.contractStorage[id]? with
  | none => rfl
  | some storage => rfl

theorem storedValue_congr {db db' : Database} {id : ContractId}
    (h : db'.contractStorage[id]? = db.contractStorage[id]?) (key : Bytes) :
    db'.storedValue id key = db.storedValue id key :=
  congrArg (fun o => o.bind (·[key]?)) h

theorem storedValue_eq (db : Database) (id : ContractId) (key : Bytes) :
    db.storedValue id key = (db.storageOf id)[key]? := by
  unfold Database.storedValue Database.storageOf
  rw [ExtTreeMap.getD_eq_getD_getElem?]
  cases db.contractStorage[id]? with
  | none => exact ExtTreeMap.getElem?_empty.symm
  | some storage => rfl

theorem wrote_of_insert {id : ContractId} {k v : Bytes}
    (h : db'.contractStorage = db.contractStorage.insert id ((db.storageOf id).insert k v)) :
    Wrote db db' id k v := by
  have hid : ∀ key, db'.storedValue id key = ((db.storageOf id).insert k v)[key]? := by
    intro key
    rw [Database.storedValue, h, ExtTreeMap.getElem?_insert_self]
    rfl
  refine ⟨?_, fun key hne => ?_, fun id' hne => ?_⟩
  · rw [hid, ExtTreeMap.getElem?_insert_self]
  · rw [hid, getElem?_insert_ne hne.symm, storedValue_eq]
  · rw [h, getElem?_insert_ne hne.symm]

/-- What a call with the text of a write needs to succeed. -/
theorem callReady_write_iff (hc : HasCode db) {op : ContractCallOperation} {k v : Bytes}
    (hargs : op.args = writeArgs k v) (hplain : 58 ∉ k) :
    Perf.CallReady db op ↔ WriteReady db op k v := by
  constructor
  · intro h
    obtain ⟨c, res, hcall, hrun, hs⟩ := h
    rw [runCall, hargs] at hrun
    obtain ⟨hkey, hvalue, hpaid⟩ := (call_write_iff (hc _ _ hcall.found)
      hcall.valid.export_nonempty hplain).mp ⟨res, hrun, hs⟩
    exact ⟨⟨hargs, hplain, hkey, hvalue, hpaid⟩, c, hcall⟩
  · intro h
    obtain ⟨c, hcall⟩ := h.callable
    obtain ⟨res, hrun, hs⟩ := (call_write_iff (hc _ _ hcall.found)
      hcall.valid.export_nonempty hplain).mpr ⟨h.key_short, h.value_short, h.paid⟩
    exact ⟨c, res, hcall, by rw [runCall, hargs]; exact hrun, hs⟩

/-! ## Moves of the storages -/

/-- What an event can do to the storages of the contracts. -/
inductive StorageMove (e : Event) : Prop where
  | idle (same : e.after.contractStorage = e.before.contractStorage)
  | deploy {op : ContractDeployOperation} (label : e.label = .apply (.contractDeploy op))
      (contractStorage : e.after.contractStorage =
        e.before.contractStorage.insert e.before.nextContractId ∅)
  | write {op : ContractCallOperation} {k v : Bytes} (done : Succeeded e)
      (label : e.label = .apply (.contractCall op)) (ready : WriteReady e.before op k v)
      (contractStorage : e.after.contractStorage = e.before.contractStorage.insert op.contractId
        ((e.before.storageOf op.contractId).insert k v))

theorem applyContractCall_storage {op : ContractCallOperation} {u : Unit}
    (h : applyContractCall op db = .ok u db') :
    Perf.CallReady db op ∧ db'.contractStorage =
      db.contractStorage.insert op.contractId
        (Perf.written (db.storageOf op.contractId) op.args) := by
  obtain ⟨c, res, hcall, hrun, hs, hdb⟩ := applyContractCall_ok.mp h
  refine ⟨⟨c, res, hcall, hrun, hs⟩, ?_⟩
  rw [hdb, call_writes hrun hs, Perf.commitWrites_staged]

theorem storageMove (s : Step) (hs : HasStorage db) (hc : HasCode db) :
    StorageMove (Machine.event exec db s) := by
  cases contractsMove s hs with
  | idle same quiet => exact .idle same.contractStorage
  | deploy done label guards contracts contractStorage next => exact .deploy label contractStorage
  | @call op c storage done label guards contracts contractStorage next =>
      have hok : applyContractCall op db = .ok () (Machine.event exec db s).after := by
        cases event_cases db s with
        | inl hok =>
            have hprogram : s.program = applyContractCall op :=
              congrArg Step.program (show s = .apply (.contractCall op) from label)
            exact hprogram ▸ hok.2
        | inr hfail =>
            obtain ⟨x, ho, -⟩ := hfail
            rw [Succeeded, ho] at done
            cases done
      obtain ⟨hready, hstorage⟩ := applyContractCall_storage hok
      cases hstaged : staged op.args with
      | none =>
          obtain ⟨st, hst⟩ := hs _ _ guards.found
          refine .idle ?_
          rw [hstorage, Perf.written, hstaged]
          show db.contractStorage.insert _ (db.storageOf op.contractId) = db.contractStorage
          rw [Database.storageOf, ExtTreeMap.getD_eq_getD_getElem?, hst]
          exact insert_getElem?_self hst
      | some kv =>
          obtain ⟨hargs, hplain⟩ := staged_eq_some.mp hstaged
          refine .write done label ((callReady_write_iff hc hargs hplain).mp hready) ?_
          rw [hstorage, Perf.written, hstaged]
          rfl

/-! ## Round trip and isolation -/

/-- A call that should write `v` at `k`, by what its sender knows. -/
structure WriteRequest (db : Database) (op : ContractCallOperation) (k v : Bytes) : Prop extends
    WriteText op k v where
  hardfork : hiveHardforkContracts ≤ db.config.hardfork
  run : db.config.contractsSkip = false
  caller_exists : db.accountExists op.caller = true
  deployed : op.contractId ∈ db.contracts
  export_nonempty : op.exportName ≠ []
  export_short : op.exportName.length ≤ 64

theorem length_writeArgs (k v : Bytes) : (writeArgs k v).length = 7 + k.length + v.length := by
  rw [writeArgs_eq, List.length_append, List.length_append, List.length_cons]
  have hprefix : (text "WRITE:").length = 6 := by decide
  omega

/-- In a reachable database such a call passes every check. -/
theorem WriteRequest.ready {config : NodeConfig} {steps : List Step}
    (hcount : created Step.isContractDeploy (trace config steps) < 2 ^ 64 - 1)
    {op : ContractCallOperation} {k v : Bytes} (h : WriteRequest (final config steps) op k v) :
    WriteReady (final config steps) op k v := by
  obtain ⟨c, hfound⟩ := mem_iff_exists.mp h.deployed
  have hid := ((contractsWf_run config steps hcount).allocated.below _ _ hfound).1
  have hfuel : op.fuelLimit ≠ 0 := by
    intro hzero
    have hpaid := h.paid
    rw [hzero] at hpaid
    simp at hpaid
  have hargs : op.args.length ≤ maxContractArgs := by
    rw [h.args, length_writeArgs]
    have hkey := h.key_short
    have hvalue := h.value_short
    have hmax : maxContractArgs = 65536 := rfl
    omega
  refine ⟨h.toWriteText, c, ⟨h.hardfork, ?_⟩, ?_, h.caller_exists, hfound⟩
  · rw [h.run]
    exact fun hskip => Bool.false_ne_true hskip.1
  · exact
      { caller := accountsValid_run config steps _ h.caller_exists
        id_ne := hid
        fuel_ne := hfuel
        export_short := h.export_short
        export_nonempty := h.export_nonempty
        args_short := hargs }

/-- A call that is ready succeeds and writes. -/
theorem WriteReady.writes (hc : HasCode db) {op : ContractCallOperation} {k v : Bytes}
    (h : WriteReady db op k v) :
    ∃ db', apply (.contractCall op) db = .ok () db' ∧ db'.config = db.config ∧
      db'.contractStorage = db.contractStorage.insert op.contractId
        ((db.storageOf op.contractId).insert k v) := by
  obtain ⟨c, res, hcall, hrun, hs⟩ := (callReady_write_iff hc h.args h.plain).mpr h
  have hok : apply (.contractCall op) db = .ok () _ :=
    applyContractCall_ok.mpr ⟨c, res, hcall, hrun, hs, rfl⟩
  have hstorage := (applyContractCall_storage hok).2
  rw [Perf.written, staged_eq_some.mpr ⟨h.args, h.plain⟩] at hstorage
  exact ⟨_, hok, (apply_frame hok).config, hstorage⟩

/-- The storage of a deployed contract is not the one a deployment makes. -/
theorem fresh_ne {config : NodeConfig} {steps : List Step}
    (hcount : created Step.isContractDeploy (trace config steps) < 2 ^ 64 - 1) {id : ContractId}
    (h : id ∈ (final config steps).contracts) : id ≠ (final config steps).nextContractId := by
  intro heq
  have hfresh := (contractsWf_run config steps hcount).allocated.fresh
  rw [← heq] at hfresh
  exact not_mem_iff.mpr hfresh h

/-- A requested write is done and touches nothing else.  Conversely an operation that
changes a stored value of a deployed contract is such a write, at the changed key. -/
theorem storage_writes_isolated (config : NodeConfig) (steps : List Step)
    (hcount : created Step.isContractDeploy (trace config steps) < 2 ^ 64 - 1) :
    (∀ op k v, WriteRequest (final config steps) op k v →
      ∃ db', apply (.contractCall op) (final config steps) = .ok () db' ∧
        Api.getStorageKey db' op.contractId k = some v ∧
        Wrote (final config steps) db' op.contractId k v) ∧
    (∀ op db' id key, (exec (.apply op) (final config steps)).2 = db' →
      id ∈ (final config steps).contracts →
      db'.storedValue id key ≠ (final config steps).storedValue id key →
      ∃ call v, op = .contractCall call ∧ call.contractId = id ∧
        apply op (final config steps) = .ok () db' ∧
        WriteReady (final config steps) call key v ∧ Wrote (final config steps) db' id key v) := by
  have hs := hasStorage_run config steps
  have hc := hasCode_run config steps
  constructor
  · intro op k v h
    obtain ⟨db', hok, hconfig, hstorage⟩ := (h.ready hcount).writes hc
    have hwrote := wrote_of_insert hstorage
    have hskip : db'.config.contractsSkip = false := hconfig ▸ h.run
    refine ⟨db', hok, ?_, hwrote⟩
    rw [getStorageKey_eq hskip]
    exact hwrote.stored
  · intro op db' id key hdb hdeployed hchanged
    subst hdb
    cases storageMove (.apply op) hs hc with
    | idle same =>
        exact absurd (storedValue_congr (congrArg (·[id]?) same) key) hchanged
    | deploy label contractStorage =>
        have hother := getElem?_insert_ne (m := (final config steps).contractStorage)
          (v := (∅ : Storage)) (fresh_ne hcount hdeployed).symm
        have hget := (congrArg (·[id]?) contractStorage).trans hother
        exact absurd (storedValue_congr hget key) hchanged
    | @write call k v done label ready contractStorage =>
        have hwrote := wrote_of_insert contractStorage
        have hid : id = call.contractId := by
          by_contra hne
          exact hchanged (storedValue_congr (hwrote.others id hne) key)
        subst hid
        have hkey : key = k := by
          by_contra hne
          exact hchanged (hwrote.keys key hne)
        subst hkey
        have hop : op = .contractCall call := Step.apply.inj label
        exact ⟨call, v, hop, rfl, exec_ok.mp (Prod.ext done rfl), ready, hwrote⟩

/-- A value with a colon in it is written into the contract of `contractRun`, next to
the value that is there. -/
theorem storage_writes_isolated_contractRun :
    created Step.isContractDeploy (trace {} contractRun) < 2 ^ 64 - 1 ∧
      WriteRequest (final {} contractRun) (callWith (writeArgs (text "a") (text "b:c"))) (text "a")
        (text "b:c") ∧
      ∃ db', apply (.contractCall (callWith (writeArgs (text "a") (text "b:c"))))
          (final {} contractRun) = .ok () db' ∧
        Api.getStorageKey db' 1 (text "a") = some (text "b:c") ∧
        db'.storedValue 1 (text "k") = some (text "v") := by
  have hcount : created Step.isContractDeploy (trace {} contractRun) < 2 ^ 64 - 1 := by
    decide +kernel
  have hrequest : WriteRequest (final {} contractRun)
      (callWith (writeArgs (text "a") (text "b:c"))) (text "a") (text "b:c") :=
    ⟨⟨rfl, by decide, by decide, by decide, by decide⟩, by decide +kernel, by decide +kernel,
      by decide +kernel, by decide +kernel, by decide, by decide⟩
  obtain ⟨db', hok, hget, hwrote⟩ :=
    (storage_writes_isolated {} contractRun hcount).1 _ _ _ hrequest
  refine ⟨hcount, hrequest, db', hok, hget, ?_⟩
  have hkept := hwrote.keys (text "k") (by decide)
  have hold : (final {} contractRun).storedValue 1 (text "k") = some (text "v") := by
    decide +kernel
  exact hkept.trans hold

/-! ## Limits -/

/-- The sizes of the keys and the values of a storage, summed up. -/
def storageTotal (storage : Storage) : ℕ :=
  (storage.toList.map fun kv => kv.1.length + kv.2.length).sum

theorem storageTotal_insert (storage : Storage) (k v : Bytes) :
    storageTotal (storage.insert k v) =
      storageTotal (storage.erase k) + (k.length + v.length) := by
  have hperm := (toList_insert_perm storage k v).map fun kv => kv.1.length + kv.2.length
  rw [storageTotal, hperm.sum_eq, List.map_cons, List.sum_cons, Nat.add_comm]
  rfl

/-- A storage within `host_limits`. -/
structure StorageLimits (storage : Storage) : Prop where
  keys : ∀ k v : Bytes, storage[k]? = some v → k.length ≤ 256
  values : ∀ k v : Bytes, storage[k]? = some v → v.length ≤ 4096
  total : storageTotal storage ≤ 65536

/-- Every contract stores within the limits. -/
def InLimits (db : Database) : Prop :=
  ∀ (id : ContractId) (storage : Storage), db.contractStorage[id]? = some storage →
    StorageLimits storage

/-- The written entry and the other entries of the contract fit into its quota. -/
def FitsQuota (e : Event) : Prop :=
  ∀ op k v, e.label = .apply (.contractCall op) → WriteReady e.before op k v →
    storageTotal ((e.before.storageOf op.contractId).erase k) + (k.length + v.length) ≤ 65536

theorem storageLimits_empty : StorageLimits ∅ := by
  refine ⟨fun k v h => ?_, fun k v h => ?_, ?_⟩
  · simp at h
  · simp at h
  · rw [storageTotal, ExtTreeMap.toList_eq_nil_iff.mpr rfl]
    exact Nat.zero_le _

theorem InLimits.storageOf (h : InLimits db) (id : ContractId) :
    StorageLimits (db.storageOf id) := by
  rw [Database.storageOf, ExtTreeMap.getD_eq_getD_getElem?]
  cases hst : db.contractStorage[id]? with
  | none => exact storageLimits_empty
  | some storage => exact h id storage hst

theorem InLimits.insert (h : InLimits db) {id : ContractId} {storage : Storage}
    (hst : StorageLimits storage)
    (heq : db'.contractStorage = db.contractStorage.insert id storage) : InLimits db' := by
  intro i st hi
  rw [heq, getElem?_insert_eq] at hi
  split at hi
  · cases hi
    exact hst
  · exact h i st hi

/-- A write keeps the limits when it fits into the quota. -/
theorem StorageLimits.insert {storage : Storage} (h : StorageLimits storage) {k v : Bytes}
    (hkey : k.length ≤ 256) (hvalue : v.length ≤ 4096)
    (hfits : storageTotal (storage.erase k) + (k.length + v.length) ≤ 65536) :
    StorageLimits (storage.insert k v) := by
  refine ⟨fun a x hx => ?_, fun a x hx => ?_, ?_⟩
  · rw [getElem?_insert_eq] at hx
    split at hx
    · next ha => exact ha ▸ hkey
    · exact h.keys a x hx
  · rw [getElem?_insert_eq] at hx
    split at hx
    · cases hx
      exact hvalue
    · exact h.values a x hx
  · rw [storageTotal_insert]
    exact hfits

/-- A step keeps the limits exactly when it fits into the quota. -/
theorem inLimits_step_iff (s : Step) (hs : HasStorage db) (hc : HasCode db) (h : InLimits db) :
    InLimits (exec s db).2 ↔ FitsQuota (Machine.event exec db s) := by
  constructor
  · intro hafter op k v label ready
    have hstep : s = .apply (.contractCall op) := label
    subst hstep
    obtain ⟨db', hok, -, hstorage⟩ := WriteReady.writes hc ready
    have hexec : exec (.apply (.contractCall op)) db = (.ok (), db') := exec_ok.mpr hok
    rw [hexec] at hafter
    have htotal := (hafter op.contractId _ (by
      rw [hstorage, ExtTreeMap.getElem?_insert_self])).total
    rw [storageTotal_insert] at htotal
    exact htotal
  · intro hfits
    cases storageMove s hs hc with
    | idle same =>
        intro id storage hst
        exact h id storage ((congrArg (·[id]?) same).symm.trans hst)
    | deploy label contractStorage => exact h.insert storageLimits_empty contractStorage
    | @write op k v done label ready contractStorage =>
        have hst := (h.storageOf op.contractId).insert ready.key_short ready.value_short
          (hfits op k v label ready)
        exact h.insert hst contractStorage

/-- The limits hold in every state of a run exactly when every write of the run fits
into the quota of its contract. -/
theorem storage_limits_iff (config : NodeConfig) (steps : List Step) :
    (∀ past, past <:+ steps → InLimits (final config past)) ↔
      ∀ e ∈ trace config steps, FitsQuota e := by
  have hempty : InLimits (final config []) := by
    intro id storage hst
    simp [Database.empty] at hst
  induction steps with
  | nil =>
      refine iff_of_true (fun past hpast => ?_) (List.forall_mem_nil _)
      rw [List.suffix_nil.mp hpast]
      exact hempty
  | cons s steps ih =>
      have hsplit : (∀ past, past <:+ s :: steps → InLimits (final config past)) ↔
          InLimits (final config (s :: steps)) ∧
            ∀ past, past <:+ steps → InLimits (final config past) := by
        simp only [List.suffix_cons_iff, or_imp, forall_and, forall_eq]
      have htrace : trace config (s :: steps) =
          Machine.event exec (final config steps) s :: trace config steps := rfl
      rw [hsplit, htrace, List.forall_mem_cons]
      refine (and_congr_left fun hpast => ?_).trans (and_congr_right fun _ => ih)
      exact inLimits_step_iff s (hasStorage_run config steps) (hasCode_run config steps)
        (hpast steps (List.suffix_refl _))

/-- Alice deploys a contract and writes `n` values of the greatest size into it, each
at a key of its own. -/
def fillRun (n : ℕ) : List Step :=
  (List.range n).map (fun i => .apply (.contractCall
    { caller := text "alice", contractId := 1, exportName := text "run"
      args := writeArgs [UInt8.ofNat i] (List.replicate 4096 0), fuelLimit := 10000 })) ++
  [ .apply (.contractDeploy { owner := text "alice", code := [1, 2, 3], fuelLimit := 1000 }),
    .createAccount (text "alice") 0 0 ]

/-- The seventeenth value takes the contract over its quota. -/
theorem storage_over_quota : ¬ InLimits (final {} (fillRun 17)) := by
  intro h
  have hover : 65536 < storageTotal ((final {} (fillRun 17)).storageOf 1) := by decide +kernel
  exact absurd (h.storageOf 1).total (Nat.not_le.mpr hover)

end HiveNative.Chain
