import HiveNative.Chain.ContractStorage

/-!
# Storage as a register of the last writes

The storages are the only state that the engine computes.  Read as an abstract object
they are registers: the value at a key of a contract is the value of the last successful
call whose command writes there, and no value without one (`storage_is_last_write`).
Failed calls, calls with other commands and calls of other contracts leave no trace.
-/

namespace HiveNative.Chain

open Std (ExtTreeMap)
open EState OrderedMap Contracts

variable {db db' : Database} {e : Event} {tr : List Event} {id : ContractId} {key : Bytes}

/-- What an event writes at a key of a contract, by its command. -/
def writeTo (id : ContractId) (key : Bytes) (e : Event) : Option Bytes :=
  match e.label with
  | .apply (.contractCall op) =>
      if Succeeded e ∧ op.contractId = id then
        (staged op.args).bind fun kv => if kv.1 = key then some kv.2 else none
      else none
  | _ => none

/-- The value of the last write at a key of a contract. -/
def lastWrite (tr : List Event) (id : ContractId) (key : Bytes) : Option Bytes :=
  tr.findSome? (writeTo id key)

theorem lastWrite_cons_some {v : Bytes} (h : writeTo id key e = some v) :
    lastWrite (e :: tr) id key = some v := by
  rw [lastWrite, List.findSome?_cons, h]

theorem lastWrite_cons_none (h : writeTo id key e = none) :
    lastWrite (e :: tr) id key = lastWrite tr id key := by
  rw [lastWrite, List.findSome?_cons, h, lastWrite]

/-- A successful call with the text of a write writes at one key of one contract. -/
theorem writeTo_of_write {op : ContractCallOperation} {k v : Bytes} (done : Succeeded e)
    (label : e.label = .apply (.contractCall op)) (write : WriteText op k v) :
    writeTo id key e = if op.contractId = id ∧ k = key then some v else none := by
  have hstaged : staged op.args = some (k, v) := staged_eq_some.mpr ⟨write.args, write.plain⟩
  rw [writeTo, label]
  simp only [hstaged, Option.bind_some, and_iff_right done]
  by_cases hid : op.contractId = id
  · rw [if_pos hid]
    simp only [hid, true_and]
  · rw [if_neg hid, if_neg fun h => hid h.1]

/-- An event that writes is a successful call. -/
theorem writeTo_some {v : Bytes} (h : writeTo id key e = some v) :
    Succeeded e ∧ ∃ op, e.label = .apply (.contractCall op) ∧ op.contractId = id ∧
      staged op.args = some (key, v) := by
  unfold writeTo at h
  split at h
  · next op hlabel =>
      rw [Option.ite_none_right_eq_some] at h
      obtain ⟨⟨hdone, hid⟩, hwrite⟩ := h
      obtain ⟨kv, hkv, hvalue⟩ := Option.bind_eq_some_iff.mp hwrite
      rw [Option.ite_none_right_eq_some, Option.some.injEq] at hvalue
      obtain ⟨rfl, rfl⟩ := hvalue
      exact ⟨hdone, op, hlabel, hid, hkv⟩
  · cases h

/-- The storages are registers of the last writes. -/
def IsLastWrite (tr : List Event) (db : Database) : Prop :=
  ∀ id key, db.storedValue id key = lastWrite tr id key

/-- A successful call that writes is a move that writes. -/
theorem write_of_writeTo {s : Step} {v : Bytes}
    (h : writeTo id key (Machine.event exec db s) = some v) :
    (exec s db).2.storedValue id key = some v := by
  obtain ⟨done, op, label, rfl, hstaged⟩ := writeTo_some h
  have hs' : s = .apply (.contractCall op) := label
  subst hs'
  obtain ⟨hargs, hplain⟩ := staged_eq_some.mp hstaged
  have hok : applyContractCall op db = .ok () (exec (.apply (.contractCall op)) db).2 :=
    exec_ok.mp (Prod.ext done rfl)
  obtain ⟨-, hstorage⟩ := applyContractCall_storage hok
  rw [Perf.written, hstaged] at hstorage
  exact (wrote_of_insert hstorage).stored

/-- No step but a write changes what is stored. -/
theorem storedValue_of_not_write (wf : ContractsWf tr db) (hc : HasCode db) {s : Step}
    (h : writeTo id key (Machine.event exec db s) = none) :
    (exec s db).2.storedValue id key = db.storedValue id key := by
  cases storageMove s wf.hasStorage hc with
  | idle same => exact storedValue_congr (congrArg (·[id]?) same) key
  | deploy label contractStorage =>
      by_cases hid : db.nextContractId = id
      · subst hid
        -- the id is fresh, so nothing is stored under it before or after
        have hfresh : db.contractStorage[db.nextContractId]? = none := by
          refine not_mem_iff.mp fun hmem => ?_
          exact not_mem_iff.mpr wf.allocated.fresh ((wf.storage _).mp hmem)
        have hempty : (exec s db).2.contractStorage[db.nextContractId]? = some ∅ :=
          (congrArg (·[db.nextContractId]?) contractStorage).trans
            ExtTreeMap.getElem?_insert_self
        rw [Database.storedValue, Database.storedValue, hfresh, hempty]
        exact ExtTreeMap.getElem?_empty
      · have hother := (congrArg (·[id]?) contractStorage).trans (getElem?_insert_ne hid)
        exact storedValue_congr hother key
  | @write op k v done label ready contractStorage =>
      have hwrote : Wrote db (exec s db).2 op.contractId k v := wrote_of_insert contractStorage
      rw [writeTo_of_write done label ready.toWriteText] at h
      by_cases hid : op.contractId = id
      · subst hid
        have hkey : key ≠ k := by
          intro heq
          rw [if_pos ⟨rfl, heq.symm⟩] at h
          cases h
        exact hwrote.keys key hkey
      · exact storedValue_congr (hwrote.others id (Ne.symm hid)) key

theorem isLastWrite_step (wf : ContractsWf tr db) (hc : HasCode db) (s : Step)
    (h : IsLastWrite tr db) : IsLastWrite (Machine.event exec db s :: tr) (exec s db).2 := by
  intro id key
  cases hwrite : writeTo id key (Machine.event exec db s) with
  | some v => rw [lastWrite_cons_some hwrite, write_of_writeTo hwrite]
  | none => rw [lastWrite_cons_none hwrite, storedValue_of_not_write wf hc hwrite, h id key]

theorem isLastWrite_run (config : NodeConfig) (steps : List Step)
    (hcount : created Step.isContractDeploy (trace config steps) < 2 ^ 64 - 1) :
    IsLastWrite (trace config steps) (final config steps) := by
  induction steps with
  | nil =>
      intro id key
      simp [Database.storedValue, Database.empty, lastWrite]
  | cons s steps ih =>
      have hcount' := lt_of_le_of_lt (created_le_cons _ _ _) hcount
      exact isLastWrite_step (contractsWf_run config steps hcount') (hasCode_run config steps) s
        (ih hcount')

/-- What a node answers for a key of a contract is the value of the last successful write
there, whatever else happened, or nothing when it skips contracts. -/
theorem storage_is_last_write (config : NodeConfig) (steps : List Step)
    (hcount : created Step.isContractDeploy (trace config steps) < 2 ^ 64 - 1)
    (id : ContractId) (key : Bytes) :
    Api.getStorageKey (final config steps) id key =
      if config.contractsSkip then none else lastWrite (trace config steps) id key := by
  cases hskip : config.contractsSkip with
  | true =>
      rw [Api.getStorageKey, config_run, hskip]
      rfl
  | false =>
      have hconfig : (final config steps).config.contractsSkip = false := by
        rw [config_run, hskip]
      rw [getStorageKey_eq hconfig]
      exact isLastWrite_run config steps hcount id key

/-- A key is written twice, with a call in between that cannot pay for its write. -/
def rewriteRun : List Step :=
  [ .apply (.contractCall { callWith (writeArgs (text "k") (text "w")) with fuelLimit := 100 }),
    .apply (.contractCall (callWith (writeArgs (text "k") (text "new")))) ] ++ contractRun

theorem storage_is_last_write_rewriteRun :
    Api.getStorageKey (final {} rewriteRun) 1 (text "k") = some (text "new") := by
  rw [storage_is_last_write {} rewriteRun (by decide +kernel) 1 (text "k")]
  decide +kernel

end HiveNative.Chain
