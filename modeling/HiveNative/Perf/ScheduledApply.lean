import HiveNative.Lib.Replay
import HiveNative.Chain.Run
import HiveNative.Perf.ApplyScheduler

/-!
# What a scheduled list does

Two reductions of `apply_scheduled` that the comparison with serial apply rests
on.

The scheduler applies the operations one by one in the order of their levels
(`applyScheduled_ok`), so it is serial apply of a permuted list.

Serial apply of any list is a replay over cells (`applySerial_replays` and its
converse): the rest of the database is read but never written, and each
operation acts on one cell only.
-/

namespace HiveNative.Perf

open Std (ExtTreeMap)
open Chain EState OrderedMap Layering Replay

/-! ## The order of execution -/

/-- Two operations of a list conflict. -/
def Clash (a b : ScheduledOp) : Prop :=
  Conflict (classifyScheduledOp 0 a) (classifyScheduledOp 0 b)

instance : DecidableRel Clash := fun _ _ => inferInstanceAs (Decidable (Conflict _ _))

/-- The operations in the order of their levels. -/
def inLayers (ops : List ScheduledOp) : List ScheduledOp := byLevel (leveled Clash ops)

theorem inLayers_perm (ops : List ScheduledOp) : (inLayers ops).Perm ops := byLevel_perm ops

theorem conflict_classify (i j : ℕ) (a b : ScheduledOp) :
    Conflict (classifyScheduledOp i a) (classifyScheduledOp j b) ↔ Clash a b := by
  cases a with
  | _ => cases b with
    | _ => rfl

theorem classify_index (i : ℕ) (op : ScheduledOp) : (classifyScheduledOp i op).index = i := by
  cases op with
  | _ => rfl

variable {db db' : Database} {stats stats' : ApplyScheduleStats}

theorem applySerial_nil {u : Unit} : applySerial [] db = .ok u db' ↔ db = db' := by
  simp only [applySerial, pure_ok, true_and]

theorem applySerial_cons {op : ScheduledOp} {ops : List ScheduledOp} {u : Unit} :
    applySerial (op :: ops) db = .ok u db' ↔
      ∃ db₁, applyOne op db = .ok () db₁ ∧ applySerial ops db₁ = .ok u db' := by
  simp only [applySerial, bind_ok]
  exact ⟨fun ⟨_, h⟩ => h, fun h => ⟨(), h⟩⟩

/-- Applying by index is applying one by one, with a count. -/
theorem foldlM_applyAt {ops : List ScheduledOp} {run : List (ScheduledOp × ℕ)}
    (h : ∀ p ∈ run, ops[p.2]? = some p.1) :
    (run.map Prod.snd).foldlM (applyAt ops) stats db = .ok stats' db' ↔
      applySerial (run.map Prod.fst) db = .ok () db' ∧
        stats' = { stats with opsApplied := stats.opsApplied + run.length } := by
  induction run generalizing stats db with
  | nil =>
      simp only [List.map_nil, List.foldlM_nil, pure_ok, applySerial_nil, List.length_nil,
        Nat.add_zero]
      exact ⟨fun h => ⟨h.2, h.1.symm⟩, fun h => ⟨h.2.symm, h.1⟩⟩
  | cons p run ih =>
      have hp := h p List.mem_cons_self
      have hrun : ∀ q ∈ run, ops[q.2]? = some q.1 := fun q hq => h q (List.mem_cons_of_mem p hq)
      simp only [List.map_cons, List.foldlM_cons, bind_ok, applyAt, hp, pure_ok, ih hrun,
        applySerial_cons, List.length_cons]
      have hcount : stats.opsApplied + 1 + run.length = stats.opsApplied + (run.length + 1) := by
        omega
      constructor
      · rintro ⟨_, _, ⟨_, _, hone, rfl, rfl⟩, hrest, rfl⟩
        exact ⟨⟨_, hone, hrest⟩, by rw [hcount]⟩
      · rintro ⟨⟨_, hone, hrest⟩, rfl⟩
        exact ⟨_, _, ⟨_, _, hone, rfl, rfl⟩, hrest, by rw [hcount]⟩

theorem foldlM_layers (ops : List ScheduledOp) (layers : List ScheduleLayer) :
    layers.foldlM (fun stats layer => layer.opIndices.foldlM (applyAt ops) stats) stats =
      (layers.flatMap (·.opIndices)).foldlM (applyAt ops) stats := by
  induction layers generalizing stats with
  | nil => rfl
  | cons layer layers ih =>
      rw [List.foldlM_cons, List.flatMap_cons, List.foldlM_append]
      simp only [ih]

/-- The scheduler applies the operations one by one in the order of their levels,
and counts them. -/
theorem applyScheduled_ok (ops : List ScheduledOp) :
    applyScheduled ops db = .ok stats db' ↔
      applySerial (inLayers ops) db = .ok () db' ∧
        stats = { planSchedule ops with opsApplied := ops.length } := by
  cases ops with
  | nil =>
      simp only [applyScheduled, planSchedule, List.isEmpty_nil, if_true, pure_ok,
        List.length_nil]
      exact ⟨fun h => ⟨applySerial_nil.mpr h.2, h.1.symm⟩,
        fun h => ⟨h.2.symm, applySerial_nil.mp h.1⟩⟩
  | cons op rest =>
      generalize hops : op :: rest = ops
      have hne : ops.isEmpty = false := by rw [← hops]; rfl
      let run := byLevel (leveled (fun p q : ScheduledOp × ℕ => Clash p.1 q.1) ops.zipIdx)
      have hrun : run.Perm ops.zipIdx := byLevel_perm _
      have hindices : (scheduleOf ops).layers.flatMap (·.opIndices) = run.map Prod.snd := by
        show (buildParallelSchedule (classifyAll ops)).flatMap (·.opIndices) = _
        rw [schedule_levels, classifyAll, leveled_map fun p q => conflict_classify p.2 q.2 p.1 q.1,
          byLevel_map, List.map_map]
        apply List.map_congr_left
        intro p _
        exact classify_index p.2 p.1
      have horder : inLayers ops = run.map Prod.fst := by
        unfold inLayers
        conv_lhs => rw [← List.zipIdx_map_fst 0 ops]
        rw [leveled_map fun p q => Iff.rfl, byLevel_map]
      have hget : ∀ p ∈ run, ops[p.2]? = some p.1 := by
        intro p hp
        exact List.mk_mem_zipIdx_iff_getElem?.mp (hrun.mem_iff.mp hp)
      have hlen : run.length = ops.length := by rw [hrun.length_eq, List.length_zipIdx]
      unfold applyScheduled planSchedule
      rw [hne, horder]
      simp only [Bool.false_eq_true, if_false, foldlM_layers]
      rw [hindices, foldlM_applyAt hget, hlen]
      show _ ∧ stats = { scheduleOf ops with opsApplied := 0 + ops.length } ↔ _
      rw [Nat.zero_add]

/-! ## Cells

What the four kinds of operation write falls into cells, and each operation works
on one of them: a transfer on its token, a call on the storage of its contract.
Redeems share the balances and the locks, one cell for all of them. -/

inductive Cell where
  | token (id : NftId)
  | funds
  | storage (id : ContractId)
  | marker
deriving DecidableEq

structure Funds where
  balances : ExtTreeMap AccountName AccountBalance
  htlcs : ExtTreeMap HtlcId HtlcObject

def Cell.Value : Cell → Type
  | .token _ => Option NftObject
  | .funds => Funds
  | .storage _ => Option Contracts.Storage
  | .marker => Unit

/-- The contents of the cells. -/
def cells (db : Database) : (k : Cell) → k.Value
  | .token id => db.nfts[id]?
  | .funds => ⟨db.balances, db.htlcs⟩
  | .storage id => db.contractStorage[id]?
  | .marker => ()

/-- The cell an operation works on. -/
def ScheduledOp.cell : ScheduledOp → Cell
  | .nftTransfer op => .token op.nftId
  | .htlcRedeem _ => .funds
  | .contractCall op => .storage op.contractId
  | .globalMarker _ => .marker

/-- What the operations read and none of them writes. -/
structure Rules where
  headTime : TimePointSec
  config : NodeConfig
  collections : ExtTreeMap CollectionId NftCollectionObject
  operators : ExtTreeMap OperatorKey NftOperatorObject
  contracts : ExtTreeMap ContractId ContractObject
  accounts : AccountName → Bool

def rules (db : Database) : Rules :=
  { headTime := db.headTime
    config := db.config
    collections := db.collections
    operators := db.operators
    contracts := db.contracts
    accounts := db.accountExists }

/-- The guards of a transfer that do not depend on the token. -/
structure TransferReady (db : Database) (op : NftTransferOperation) : Prop where
  active : NftActive db
  valid : op.Valid
  dest_exists : db.accountExists op.to = true

/-- The token in the hands of a new owner. -/
def handedTo (n : NftObject) (owner : AccountName) : NftObject :=
  { n with owner := owner, approved := [] }

/-- A transfer of the token in a cell. -/
def TransferActs (db : Database) (op : NftTransferOperation) (o o' : Option NftObject) : Prop :=
  ∃ n, o = some n ∧ TransferReady db op ∧ Authorised db n op.from ∧ n.soulbound = false ∧
    o' = some (handedTo n op.to)

/-- The database with other funds. -/
def withFunds (db : Database) (f : Funds) : Database :=
  { db with balances := f.balances, htlcs := f.htlcs }

/-- A redeem out of the given funds. -/
def RedeemActs (db : Database) (op : HtlcRedeemOperation) (f f' : Funds) : Prop :=
  ∃ h b, Redeemable (withFunds db f) op h b ∧
    f' = ⟨f.balances.insert h.to (b.adjusted h.amount),
      f.htlcs.insert op.htlcId { h with status := .redeemed }⟩

/-- A call that passes its guards and that the engine lets succeed. -/
def CallReady (db : Database) (op : ContractCallOperation) : Prop :=
  ∃ c res, Callable db op c ∧ runCall db op c = .ok res ∧ res.success = true

/-- The storage after the write of a command. -/
def written (storage : Contracts.Storage) (cmd : Bytes) : Contracts.Storage :=
  (Contracts.staged cmd).elim storage fun kv => storage.insert kv.1 kv.2

/-- A call on the storage in a cell. -/
def CallActs (db : Database) (op : ContractCallOperation) (o o' : Option Contracts.Storage) :
    Prop :=
  CallReady db op ∧ o' = some (written (o.getD ∅) op.args)

/-- What an operation does to a cell. -/
def Acts (db : Database) : (k : Cell) → ScheduledOp → k.Value → k.Value → Prop
  | .token _, .nftTransfer op, o, o' => TransferActs db op o o'
  | .funds, .htlcRedeem op, f, f' => RedeemActs db op f f'
  | .storage _, .contractCall op, o, o' => CallActs db op o o'
  | .marker, .globalMarker _, _, _ => True
  | _, _, _, _ => False

section Rules

variable (hr : rules db = rules db')
include hr

theorem accountExists_of_rules (name : AccountName) :
    db.accountExists name = db'.accountExists name := congrFun (congrArg Rules.accounts hr) name

theorem authorised_of_rules {n : NftObject} {account : AccountName}
    (h : Authorised db n account) : Authorised db' n account := by
  have hoperators : db.operators = db'.operators := congrArg Rules.operators hr
  unfold Authorised Database.isOperatorApproved Database.grants at h ⊢
  rw [← hoperators]
  exact h

theorem transferActs_of_rules {op : NftTransferOperation} {o o' : Option NftObject}
    (h : TransferActs db op o o') : TransferActs db' op o o' := by
  have hconfig : db.config = db'.config := congrArg Rules.config hr
  obtain ⟨n, hn, hready, hauth, hrest⟩ := h
  refine ⟨n, hn, ⟨⟨?_, ?_⟩, hready.valid, ?_⟩, authorised_of_rules hr hauth, hrest⟩
  · rw [← hconfig]
    exact hready.active.hardfork
  · rw [← hconfig]
    exact hready.active.full
  · rw [← accountExists_of_rules hr]
    exact hready.dest_exists

theorem redeemActs_of_rules {op : HtlcRedeemOperation} {f f' : Funds}
    (h : RedeemActs db op f f') : RedeemActs db' op f f' := by
  have hconfig : db.config = db'.config := congrArg Rules.config hr
  have htime : db.headTime = db'.headTime := congrArg Rules.headTime hr
  obtain ⟨l, b, hg, hf⟩ := h
  refine ⟨l, b, { hg with active := ⟨?_, ?_⟩, in_time := ?_ }, hf⟩
  · show hiveHardforkHtlc ≤ db'.config.hardfork
    rw [← hconfig]
    exact hg.active.hardfork
  · show db'.config.htlcSkipState = false
    rw [← hconfig]
    exact hg.active.full
  · show db'.headTime < l.expiration
    rw [← htime]
    exact hg.in_time

/-- The engine does not read the storage. -/
theorem callReady_of_rules {op : ContractCallOperation} (h : CallReady db op) :
    CallReady db' op := by
  have hconfig : db.config = db'.config := congrArg Rules.config hr
  have hcontracts : db.contracts = db'.contracts := congrArg Rules.contracts hr
  obtain ⟨c, res, hg, hrun, hs⟩ := h
  refine ⟨c, res, ⟨⟨?_, ?_⟩, hg.valid, ?_, ?_⟩, hrun, hs⟩
  · rw [← hconfig]
    exact hg.active.hardfork
  · rw [← hconfig]
    exact hg.active.run
  · rw [← accountExists_of_rules hr]
    exact hg.caller_exists
  · rw [← hcontracts]
    exact hg.found

theorem acts_of_rules {k : Cell} {op : ScheduledOp} {v v' : k.Value} (h : Acts db k op v v') :
    Acts db' k op v v' := by
  cases k with
  | token id =>
      cases op with
      | nftTransfer op => exact transferActs_of_rules hr h
      | _ => exact h
  | funds =>
      cases op with
      | htlcRedeem op => exact redeemActs_of_rules hr h
      | _ => exact h
  | storage id =>
      cases op with
      | contractCall op => exact ⟨callReady_of_rules hr h.1, h.2⟩
      | _ => exact h
  | marker =>
      cases op with
      | _ => exact h

theorem acts_eq : Acts db = Acts db' := by
  funext k op v v'
  exact propext ⟨acts_of_rules hr, acts_of_rules hr.symm⟩

end Rules

/-- An operation leaves a cell in one way. -/
theorem Acts.deterministic {k : Cell} {op : ScheduledOp} {v w w' : k.Value}
    (h : Acts db k op v w) (h' : Acts db k op v w') : w = w' := by
  cases k with
  | token id =>
      cases op with
      | nftTransfer op =>
          obtain ⟨n, hn, -, -, -, hw⟩ := h
          obtain ⟨n', hn', -, -, -, hw'⟩ := h'
          rw [hn] at hn'
          cases hn'
          rw [hw, hw']
      | _ => exact h.elim
  | funds =>
      cases op with
      | htlcRedeem op =>
          obtain ⟨l, b, hg, hw⟩ := h
          obtain ⟨l', b', hg', hw'⟩ := h'
          have hl := hg.found.symm.trans hg'.found
          cases hl
          have hb := hg.account.symm.trans hg'.account
          cases hb
          rw [hw, hw']
      | _ => exact h.elim
  | storage id =>
      cases op with
      | contractCall op => rw [h.2, h'.2]
      | _ => exact h.elim
  | marker => rfl

/-! ## One operation -/

theorem commitWrites_staged (storage : Contracts.Storage) (cmd : Bytes) :
    commitWrites storage
      ((Contracts.staged cmd).elim ∅ fun kv => (∅ : Contracts.Storage).insert kv.1 kv.2) =
      written storage cmd := by
  unfold commitWrites written
  cases Contracts.staged cmd with
  | none =>
      simp only [Option.elim_none]
      rw [ExtTreeMap.foldl_eq_foldl_toList, ExtTreeMap.toList_eq_nil_iff.mpr rfl]
      rfl
  | some kv =>
      simp only [Option.elim_some]
      rw [ExtTreeMap.foldl_eq_foldl_toList, toList_singleton]
      rfl

theorem applyOne_acts {op : ScheduledOp} {u : Unit} (h : applyOne op db = .ok u db') :
    OnCell ScheduledOp.cell (Acts db) op (cells db) (cells db') ∧ rules db = rules db' := by
  cases op with
  | nftTransfer op =>
      obtain ⟨n, hg, rfl⟩ := applyNftTransfer_ok.mp h
      refine ⟨⟨⟨n, hg.found, ⟨hg.active, hg.valid, hg.dest_exists⟩, hg.authorised, hg.free,
        ExtTreeMap.getElem?_insert_self⟩, fun k hk => ?_⟩, rfl⟩
      cases k with
      | token id => exact getElem?_insert_ne fun hid => hk (congrArg Cell.token hid.symm)
      | _ => rfl
  | htlcRedeem op =>
      obtain ⟨l, b, hg, rfl⟩ := applyHtlcRedeem_ok.mp h
      refine ⟨⟨⟨l, b, hg, rfl⟩, fun k hk => ?_⟩, ?_⟩
      · cases k with
        | funds => exact absurd rfl hk
        | _ => rfl
      · have hacc : db.accountExists = fun name =>
            (db.balances.insert l.to (b.adjusted l.amount)).contains name := by
          funext name
          rw [ExtTreeMap.contains_insert]
          by_cases hname : l.to = name
          · rw [← hname, accountExists_iff.mpr ⟨b, hg.account⟩]
            simp
          · simp [hname, Database.accountExists]
        unfold rules
        rw [hacc]
        rfl
  | contractCall op =>
      obtain ⟨c, res, hg, hrun, hs, rfl⟩ := applyContractCall_ok.mp h
      refine ⟨⟨⟨⟨c, res, hg, hrun, hs⟩, ?_⟩, fun k hk => ?_⟩, rfl⟩
      · have hstorage : db.storageOf op.contractId = db.contractStorage[op.contractId]?.getD ∅ :=
          ExtTreeMap.getD_eq_getD_getElem?
        show (db.contractStorage.insert op.contractId _)[op.contractId]? = _
        rw [ExtTreeMap.getElem?_insert_self, Contracts.call_writes hrun hs, commitWrites_staged,
          hstorage]
        rfl
      · cases k with
        | storage id => exact getElem?_insert_ne fun hid => hk (congrArg Cell.storage hid.symm)
        | _ => rfl
  | globalMarker op =>
      obtain rfl := pushVirtual_ok.mp h
      refine ⟨⟨trivial, fun k hk => ?_⟩, rfl⟩
      cases k with
      | _ => rfl

theorem acts_succeeds {op : ScheduledOp} {v : op.cell.Value}
    (h : Acts db op.cell op (cells db op.cell) v) : Succeeds (applyOne op) db := by
  cases op with
  | nftTransfer op =>
      obtain ⟨n, hn, hready, hauth, hfree, -⟩ := h
      exact ⟨_, applyNftTransfer_ok.mpr ⟨n, ⟨hready.active, hready.valid, hready.dest_exists, hn,
        hauth, hfree⟩, rfl⟩⟩
  | htlcRedeem op =>
      obtain ⟨l, b, hg, -⟩ := h
      exact ⟨_, applyHtlcRedeem_ok.mpr ⟨l, b, hg, rfl⟩⟩
  | contractCall op =>
      obtain ⟨⟨c, res, hg, hrun, hs⟩, -⟩ := h
      exact ⟨_, applyContractCall_ok.mpr ⟨c, res, hg, hrun, hs, rfl⟩⟩
  | globalMarker op => exact ⟨_, pushVirtual_ok.mpr rfl⟩

/-- An operation that can act on the cells can be applied, and leaves the cells so. -/
theorem acts_applyOne {op : ScheduledOp} {g : (k : Cell) → k.Value}
    (h : OnCell ScheduledOp.cell (Acts db) op (cells db) g) :
    ∃ db', applyOne op db = .ok () db' ∧ cells db' = g := by
  obtain ⟨db', happ⟩ := acts_succeeds h.acts
  obtain ⟨⟨hacts, hframe⟩, -⟩ := applyOne_acts happ
  refine ⟨db', happ, funext fun k => ?_⟩
  by_cases hk : k = op.cell
  · subst hk
    exact hacts.deterministic h.acts
  · rw [hframe k hk, h.frame k hk]

/-! ## A list of operations -/

theorem applySerial_replays {ops : List ScheduledOp} {u : Unit}
    (h : applySerial ops db = .ok u db') :
    Replays (OnCell ScheduledOp.cell (Acts db)) ops (cells db) (cells db') ∧
      rules db = rules db' := by
  induction ops generalizing db with
  | nil =>
      obtain rfl := applySerial_nil.mp h
      exact ⟨.nil _, rfl⟩
  | cons op ops ih =>
      obtain ⟨db₁, hone, hrest⟩ := applySerial_cons.mp h
      obtain ⟨hacts, hrules⟩ := applyOne_acts hone
      obtain ⟨hreplay, hrules'⟩ := ih hrest
      rw [← acts_eq hrules] at hreplay
      exact ⟨.cons hacts hreplay, hrules.trans hrules'⟩

theorem replays_applySerial {ops : List ScheduledOp} {g : (k : Cell) → k.Value}
    (h : Replays (OnCell ScheduledOp.cell (Acts db)) ops (cells db) g) :
    ∃ db', applySerial ops db = .ok () db' ∧ cells db' = g := by
  induction ops generalizing db with
  | nil => exact ⟨db, applySerial_nil.mpr rfl, replays_nil.mp h⟩
  | cons op ops ih =>
      obtain ⟨f, hacts, hreplay⟩ := replays_cons.mp h
      obtain ⟨db₁, hone, hcells⟩ := acts_applyOne hacts
      obtain ⟨-, hrules⟩ := applyOne_acts hone
      rw [← hcells, acts_eq hrules] at hreplay
      obtain ⟨db', hrest, hg⟩ := ih hreplay
      exact ⟨db', applySerial_cons.mpr ⟨db₁, hone, hrest⟩, hg⟩

/-- The tables of the chain are the same. -/
structure SameChain (db db' : Database) : Prop where
  balances : db'.balances = db.balances
  nfts : db'.nfts = db.nfts
  collections : db'.collections = db.collections
  operators : db'.operators = db.operators
  htlcs : db'.htlcs = db.htlcs
  contracts : db'.contracts = db.contracts
  contractStorage : db'.contractStorage = db.contractStorage

theorem SameChain.cells_eq (h : SameChain db db') : cells db' = cells db := by
  funext k
  cases k with
  | token id =>
      show db'.nfts[id]? = db.nfts[id]?
      rw [h.nfts]
  | funds =>
      show Funds.mk db'.balances db'.htlcs = ⟨db.balances, db.htlcs⟩
      rw [h.balances, h.htlcs]
  | storage id =>
      show db'.contractStorage[id]? = db.contractStorage[id]?
      rw [h.contractStorage]
  | marker => rfl

theorem sameChain_of_cells (hcells : cells db' = cells db) (hrules : rules db = rules db') :
    SameChain db db' := by
  have hfunds : Funds.mk db'.balances db'.htlcs = ⟨db.balances, db.htlcs⟩ := congrFun hcells .funds
  have htoken : ∀ id, db'.nfts[id]? = db.nfts[id]? := fun id => congrFun hcells (.token id)
  have hstorage : ∀ id, db'.contractStorage[id]? = db.contractStorage[id]? :=
    fun id => congrFun hcells (.storage id)
  exact
    { balances := congrArg Funds.balances hfunds
      nfts := ExtTreeMap.ext_getElem? htoken
      collections := (congrArg Rules.collections hrules).symm
      operators := (congrArg Rules.operators hrules).symm
      htlcs := congrArg Funds.htlcs hfunds
      contracts := (congrArg Rules.contracts hrules).symm
      contractStorage := ExtTreeMap.ext_getElem? hstorage }

end HiveNative.Perf
