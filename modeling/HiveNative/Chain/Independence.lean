import HiveNative.Chain.Atomicity
import HiveNative.Chain.Settlement

/-!
# Independent operations

Six kinds of operation work on an object that exists already: a token, a lock or
a contract.  What such an operation does to the consensus state is an `Effect`, a
write to the table of its object and, for a burn, a smaller supply, for a settled
lock, a credit.  Effects on different objects commute, also when they lower the
supply of one collection or credit one account.

Whether the operation succeeds, and which effect it has, depends on its own
object and on what none of the six kinds changes: the configuration, the head
time, the operators, the contracts and which accounts exist.  There is one
exception, the sum in a credit, and in a funded run it always fits.
-/

namespace HiveNative.Chain

open Std (ExtTreeMap)
open EState OrderedMap

variable {tr : List Event} {db db' : Database}

/-! ## Effects -/

/-- An object an operation can name. -/
inductive ObjectKey where
  | nft (id : NftId)
  | htlc (id : HtlcId)
  | contract (id : ContractId)
deriving DecidableEq

/-- The object an operation of the six kinds works on. -/
def Operation.object : Operation → Option ObjectKey
  | .nftTransfer op => some (.nft op.nftId)
  | .nftApprove op => some (.nft op.nftId)
  | .nftBurn op => some (.nft op.nftId)
  | .htlcRedeem op => some (.htlc op.htlcId)
  | .htlcRefund op => some (.htlc op.htlcId)
  | .contractCall op => some (.contract op.contractId)
  | _ => none

/-- Two operations of the six kinds that do not name the same object. -/
structure Independent (a b : Operation) : Prop where
  left : a.object.isSome
  right : b.object.isSome
  distinct : a.object ≠ b.object

theorem Independent.symm {a b : Operation} (h : Independent a b) : Independent b a :=
  ⟨h.right, h.left, h.distinct.symm⟩

/-- What a successful operation writes. -/
inductive Effect where
  /-- A token gets a new state or none, and a collection may count one less. -/
  | token (id : NftId) (o : Option NftObject) (burned : Option CollectionId)
  /-- A lock gets a new state and an account its amount. -/
  | settle (id : HtlcId) (h : HtlcObject) (account : AccountName)
  /-- A contract gets a new storage. -/
  | storage (id : ContractId) (storage : Contracts.Storage)

namespace Effect

def key : Effect → ObjectKey
  | token id _ _ => .nft id
  | settle id _ _ => .htlc id
  | storage id _ => .contract id

/-- The balances after a credit. -/
def credit (balances : ExtTreeMap AccountName AccountBalance) (account : AccountName)
    (amount : Asset) : ExtTreeMap AccountName AccountBalance :=
  balances.insert account ((balances.getD account {}).adjusted amount)

def run : Effect → Database → Database
  | token id o burned, db =>
      { db with
        nfts := put db.nfts id o
        collections := burned.elim db.collections (decrementSupply db.collections) }
  | settle id h account, db =>
      { db with
        balances := credit db.balances account h.amount
        htlcs := db.htlcs.insert id h }
  | storage id st, db => { db with contractStorage := db.contractStorage.insert id st }

theorem credit_comm (balances : ExtTreeMap AccountName AccountBalance) (a b : AccountName)
    (x y : Asset) : credit (credit balances a x) b y = credit (credit balances b y) a x := by
  have hget : ∀ {c d : AccountName} (v : AccountBalance), c ≠ d →
      (balances.insert c v).getD d {} = balances.getD d {} := by
    intro c d v hne
    rw [ExtTreeMap.getD_eq_getD_getElem?, getElem?_insert_ne hne, ExtTreeMap.getD_eq_getD_getElem?]
  unfold credit
  by_cases h : a = b
  · subst h
    rw [ExtTreeMap.getD_insert_self, ExtTreeMap.getD_insert_self, insert_insert_self,
      insert_insert_self, adjusted_comm]
  · rw [hget _ h, hget _ (Ne.symm h), insert_comm h]

theorem decrementSupply_other {m : ExtTreeMap CollectionId NftCollectionObject}
    {id a : CollectionId} (h : id ≠ a) : (decrementSupply m id)[a]? = m[a]? := by
  unfold decrementSupply
  split
  · rfl
  · split
    · exact getElem?_insert_ne h
    · rfl

theorem decrementSupply_congr {m m' : ExtTreeMap CollectionId NftCollectionObject}
    {id : CollectionId} (h : m[id]? = m'[id]?) :
    (decrementSupply m id)[id]? = (decrementSupply m' id)[id]? := by
  unfold decrementSupply
  cases hc : m[id]? with
  | none =>
      rw [hc] at h
      simp [hc, ← h]
  | some c =>
      rw [hc] at h
      simp only [← h]
      split
      · simp
      · rw [hc, h]

theorem decrementSupply_comm (m : ExtTreeMap CollectionId NftCollectionObject)
    (a b : CollectionId) :
    decrementSupply (decrementSupply m a) b = decrementSupply (decrementSupply m b) a := by
  by_cases h : a = b
  · rw [h]
  · apply ExtTreeMap.ext_getElem?
    intro k
    by_cases ha : k = a
    · subst ha
      rw [decrementSupply_other (Ne.symm h)]
      exact decrementSupply_congr (decrementSupply_other (Ne.symm h)).symm
    · by_cases hb : k = b
      · subst hb
        rw [decrementSupply_other h]
        exact decrementSupply_congr (decrementSupply_other h)
      · rw [decrementSupply_other (Ne.symm hb), decrementSupply_other (Ne.symm ha),
          decrementSupply_other (Ne.symm ha), decrementSupply_other (Ne.symm hb)]

/-- Effects on different objects commute. -/
theorem run_comm {x y : Effect} (h : x.key ≠ y.key) (db : Database) :
    x.run (y.run db) = y.run (x.run db) := by
  cases x with
  | token id o burned =>
      cases y with
      | token id' o' burned' =>
          have hid : id' ≠ id := fun heq => h (by rw [key, key, heq])
          have hcol : burned.elim (burned'.elim db.collections (decrementSupply db.collections))
              (decrementSupply (burned'.elim db.collections (decrementSupply db.collections))) =
            burned'.elim (burned.elim db.collections (decrementSupply db.collections))
              (decrementSupply (burned.elim db.collections (decrementSupply db.collections))) := by
            cases burned with
            | none => rfl
            | some c =>
                cases burned' with
                | none => rfl
                | some c' => exact decrementSupply_comm db.collections c' c
          simp only [run]
          rw [put_comm hid, hcol]
      | _ => rfl
  | settle id l account =>
      cases y with
      | settle id' l' account' =>
          have hid : id' ≠ id := fun heq => h (by rw [key, key, heq])
          simp only [run]
          rw [credit_comm, insert_comm hid]
      | _ => rfl
  | storage id st =>
      cases y with
      | storage id' st' =>
          have hid : id' ≠ id := fun heq => h (by rw [key, key, heq])
          simp only [run]
          rw [insert_comm hid]
      | _ => rfl

end Effect

/-! ## The effect of an operation -/

/-- The consensus part of a database. -/
def consensus (db : Database) : Database := { db with pendingVirtualOps := [], lastRcCharged := 0 }

theorem consensus_eq_iff : consensus db = consensus db' ↔ SameConsensus db' db := by
  constructor
  · intro h
    have hfield {α : Type} (f : Database → α) : f (consensus db) = f (consensus db') :=
      congrArg f h
    exact
      { funds := ⟨hfield (·.balances), hfield (·.htlcs), hfield (·.nextHtlcId)⟩
        tokens := ⟨hfield (·.collections), hfield (·.collectionBySymbol), hfield (·.nfts),
          hfield (·.operators), hfield (·.nextCollectionId), hfield (·.nextNftId)⟩
        contracts := ⟨hfield (·.contracts), hfield (·.contractStorage),
          hfield (·.nextContractId)⟩
        headTime := hfield (·.headTime)
        config := hfield (·.config) }
  · intro h
    unfold consensus
    rw [h.funds.balances, h.funds.htlcs, h.funds.next, h.tokens.collections,
      h.tokens.collectionBySymbol, h.tokens.nfts, h.tokens.operators, h.tokens.nextCollection,
      h.tokens.nextNft, h.contracts.contracts, h.contracts.contractStorage, h.contracts.next,
      h.headTime, h.config]

theorem consensus_run (x : Effect) (db : Database) :
    consensus (x.run db) = x.run (consensus db) := by
  cases x with
  | _ => rfl

/-- The storage a call leaves when the engine returns. -/
def calledStorage (db : Database) (op : ContractCallOperation) : Option Contracts.Storage :=
  match db.contracts[op.contractId]? with
  | none => none
  | some c =>
      match runCall db op c with
      | .ok res => some (commitWrites (db.storageOf op.contractId) res.storageWrites)
      | .error _ => none

/-- What an operation of the six kinds writes if it succeeds. -/
def effectOf (db : Database) : Operation → Option Effect
  | .nftTransfer op => db.nfts[op.nftId]?.map fun n =>
      .token op.nftId (some { n with owner := op.to, approved := [] }) none
  | .nftApprove op => db.nfts[op.nftId]?.map fun n =>
      .token op.nftId (some { n with approved := op.approved }) none
  | .nftBurn op => db.nfts[op.nftId]?.map fun n => .token op.nftId none (some n.collection)
  | .htlcRedeem op => db.htlcs[op.htlcId]?.map fun h =>
      .settle op.htlcId { h with status := .redeemed } h.to
  | .htlcRefund op => db.htlcs[op.htlcId]?.map fun h =>
      .settle op.htlcId { h with status := .refunded } h.from
  | .contractCall op => (calledStorage db op).map fun st => .storage op.contractId st
  | _ => none

/-- What applying the operation writes: nothing when it fails. -/
def effect (db : Database) (op : Operation) : Option Effect :=
  if Succeeds (apply op) db then effectOf db op else none

/-- Write an effect, if there is one. -/
def runEffect (x : Option Effect) (db : Database) : Database := x.elim db fun x => x.run db

theorem consensus_runEffect (x : Option Effect) (db : Database) :
    consensus (runEffect x db) = runEffect x (consensus db) := by
  cases x with
  | none => rfl
  | some x => exact consensus_run x db

theorem effectOf_key {op : Operation} {x : Effect} (h : effectOf db op = some x) :
    op.object = some x.key := by
  cases op with
  | nftTransfer op =>
      obtain ⟨n, -, rfl⟩ := Option.map_eq_some_iff.mp h
      rfl
  | nftApprove op =>
      obtain ⟨n, -, rfl⟩ := Option.map_eq_some_iff.mp h
      rfl
  | nftBurn op =>
      obtain ⟨n, -, rfl⟩ := Option.map_eq_some_iff.mp h
      rfl
  | htlcRedeem op =>
      obtain ⟨n, -, rfl⟩ := Option.map_eq_some_iff.mp h
      rfl
  | htlcRefund op =>
      obtain ⟨n, -, rfl⟩ := Option.map_eq_some_iff.mp h
      rfl
  | contractCall op =>
      obtain ⟨n, -, rfl⟩ := Option.map_eq_some_iff.mp h
      rfl
  | _ => cases h

theorem effect_key {op : Operation} {x : Effect} (h : effect db op = some x) :
    op.object = some x.key := by
  unfold effect at h
  split at h
  · exact effectOf_key h
  · cases h

/-- The credit of a settled lock, written with the balance found. -/
theorem credit_eq {balances : ExtTreeMap AccountName AccountBalance} {account : AccountName}
    {b : AccountBalance} (h : balances[account]? = some b) (amount : Asset) :
    Effect.credit balances account amount = balances.insert account (b.adjusted amount) := by
  rw [Effect.credit, ExtTreeMap.getD_eq_getD_getElem?, h, Option.getD_some]

theorem applied_effect {op : Operation} (hop : op.object.isSome) (h : apply op db = .ok () db') :
    consensus db' = runEffect (effectOf db op) (consensus db) := by
  cases op with
  | nftTransfer op =>
      obtain ⟨n, hg, rfl⟩ := applyNftTransfer_ok.mp h
      rw [effectOf, hg.found]
      rfl
  | nftApprove op =>
      obtain ⟨n, hg, rfl⟩ := applyNftApprove_ok.mp h
      rw [effectOf, hg.found]
      rfl
  | nftBurn op =>
      obtain ⟨n, hg, rfl⟩ := applyNftBurn_ok.mp h
      rw [effectOf, hg.found]
      rfl
  | htlcRedeem op =>
      obtain ⟨l, b, hg, rfl⟩ := applyHtlcRedeem_ok.mp h
      rw [effectOf, hg.found, ← credit_eq hg.account]
      rfl
  | htlcRefund op =>
      obtain ⟨l, b, hg, rfl⟩ := applyHtlcRefund_ok.mp h
      rw [effectOf, hg.found, ← credit_eq hg.account]
      rfl
  | contractCall op =>
      obtain ⟨c, res, hg, hrun, -, rfl⟩ := applyContractCall_ok.mp h
      rw [effectOf, calledStorage, hg.found]
      simp only [hrun]
      rfl
  | _ => cases hop

/-- Applying an operation of the six kinds writes its effect. -/
theorem exec_effect {op : Operation} (hs : HasStorage db) (hop : op.object.isSome) :
    consensus (exec (.apply op) db).2 = runEffect (effect db op) (consensus db) := by
  unfold effect
  cases event_cases db (.apply op) with
  | inl hok =>
      obtain ⟨-, hok⟩ := hok
      rw [if_pos ⟨_, hok⟩]
      exact applied_effect hop hok
  | inr hfail =>
      obtain ⟨x, -, hfail⟩ := hfail
      rw [if_neg]
      · exact (consensus_eq_iff.mpr (program_error_same hs hfail))
      · intro hok
        obtain ⟨db', hok⟩ := hok
        rw [Step.program] at hfail
        rw [hok] at hfail
        cases hfail

/-! ## What an operation reads -/

/-- The object has the same state in both databases. -/
def SameObject (db db' : Database) : ObjectKey → Prop
  | .nft id => db'.nfts[id]? = db.nfts[id]?
  | .htlc id => db'.htlcs[id]? = db.htlcs[id]?
  | .contract id => db'.contractStorage[id]? = db.contractStorage[id]?

/-- The account an operation pays the amount of an open lock to. -/
def Operation.Pays (db : Database) : Operation → HtlcObject → AccountName → Prop
  | .htlcRedeem op, l, account =>
      db.htlcs[op.htlcId]? = some l ∧ l.status = .open ∧ account = l.to ∧ l.to = op.to
  | .htlcRefund op, l, account =>
      db.htlcs[op.htlcId]? = some l ∧ l.status = .open ∧ account = l.from
  | _, _, _ => False

/-- What an operation on an object reads is the same, but for the amounts of the
balances. -/
structure SameReads (db db' : Database) (key : ObjectKey) : Prop where
  config : db'.config = db.config
  headTime : db'.headTime = db.headTime
  operators : db'.operators = db.operators
  contracts : db'.contracts = db.contracts
  accounts : ∀ name, db'.accountExists name = db.accountExists name
  object : SameObject db db' key

namespace SameReads

variable {key : ObjectKey}

theorem symm (h : SameReads db db' key) : SameReads db' db key :=
  { config := h.config.symm
    headTime := h.headTime.symm
    operators := h.operators.symm
    contracts := h.contracts.symm
    accounts := fun name => (h.accounts name).symm
    object := by
      have hobject := h.object
      cases key with
      | _ => exact hobject.symm }

theorem nftActive (h : SameReads db db' key) (ha : NftActive db) : NftActive db' :=
  ⟨by rw [h.config]; exact ha.hardfork, by rw [h.config]; exact ha.full⟩

theorem htlcActive (h : SameReads db db' key) (ha : HtlcActive db) : HtlcActive db' :=
  ⟨by rw [h.config]; exact ha.hardfork, by rw [h.config]; exact ha.full⟩

theorem contractsActive (h : SameReads db db' key) (ha : ContractsActive db) :
    ContractsActive db' :=
  ⟨by rw [h.config]; exact ha.hardfork, by rw [h.config]; exact ha.run⟩

theorem exists_of (h : SameReads db db' key) {name : AccountName}
    (hn : db.accountExists name = true) : db'.accountExists name = true := by
  rw [h.accounts]
  exact hn

theorem authorised (h : SameReads db db' key) {n : NftObject} {account : AccountName}
    (ha : Authorised db n account) : Authorised db' n account := by
  unfold Authorised Database.isOperatorApproved Database.grants at ha ⊢
  rw [h.operators]
  exact ha

/-- The storage a call starts from. -/
theorem storageOf {id : ContractId} (h : SameReads db db' (.contract id)) :
    db'.storageOf id = db.storageOf id := by
  have hobject : db'.contractStorage[id]? = db.contractStorage[id]? := h.object
  unfold Database.storageOf
  rw [ExtTreeMap.getD_eq_getD_getElem?, hobject, ExtTreeMap.getD_eq_getD_getElem?]

theorem runCall {op : ContractCallOperation} (h : SameReads db db' (.contract op.contractId))
    (c : ContractObject) : Chain.runCall db' op c = Chain.runCall db op c := by
  unfold Chain.runCall
  rw [h.storageOf]

/-- An operation would write the same. -/
theorem effectOf {op : Operation} (h : SameReads db db' key) (hop : op.object = some key) :
    Chain.effectOf db' op = Chain.effectOf db op := by
  have hobject := h.object
  cases op with
  | contractCall op =>
      cases hop
      rw [Chain.effectOf, Chain.effectOf, calledStorage, calledStorage, h.contracts, h.storageOf]
      simp only [h.runCall]
  | _ =>
      first
        | cases hop
          exact congrArg (Option.map _) hobject
        | cases hop

/-- An operation that succeeds also succeeds where what it reads is the same and
the amount it pays still fits. -/
theorem succeeds_of_fits {op : Operation} (h : SameReads db db' key) (hop : op.object = some key)
    (hfits : ∀ l account b b', op.Pays db' l account → db.balances[account]? = some b →
      db'.balances[account]? = some b' → Adjustable b l.amount → Adjustable b' l.amount)
    (hok : Succeeds (apply op) db) : Succeeds (apply op) db' := by
  have hobject := h.object
  obtain ⟨after, hok⟩ := hok
  cases op with
  | nftTransfer op =>
      cases hop
      obtain ⟨n, hg, -⟩ := applyNftTransfer_ok.mp hok
      exact ⟨_, applyNftTransfer_ok.mpr ⟨n, ⟨h.nftActive hg.active, hg.valid,
        h.exists_of hg.dest_exists, hobject.trans hg.found, h.authorised hg.authorised,
        hg.free⟩, rfl⟩⟩
  | nftApprove op =>
      cases hop
      obtain ⟨n, hg, -⟩ := applyNftApprove_ok.mp hok
      exact ⟨_, applyNftApprove_ok.mpr ⟨n, ⟨h.nftActive hg.active, hg.valid,
        hobject.trans hg.found, hg.owner, fun ha => h.exists_of (hg.approved_exists ha)⟩, rfl⟩⟩
  | nftBurn op =>
      cases hop
      obtain ⟨n, hg, -⟩ := applyNftBurn_ok.mp hok
      exact ⟨_, applyNftBurn_ok.mpr ⟨n, ⟨h.nftActive hg.active, hg.valid,
        hobject.trans hg.found, hg.owner⟩, rfl⟩⟩
  | htlcRedeem op =>
      cases hop
      obtain ⟨l, b, hg, -⟩ := applyHtlcRedeem_ok.mp hok
      have hfound := hobject.trans hg.found
      obtain ⟨b', hb'⟩ := accountExists_iff.mp
        (h.exists_of (accountExists_iff.mpr ⟨b, hg.account⟩))
      exact ⟨_, applyHtlcRedeem_ok.mpr ⟨l, b', { hg with
        active := h.htlcActive hg.active
        found := hfound
        in_time := by rw [h.headTime]; exact hg.in_time
        account := hb'
        adjustable := hfits l l.to b b' ⟨hfound, hg.still_open, rfl, hg.dest⟩ hg.account hb'
          hg.adjustable }, rfl⟩⟩
  | htlcRefund op =>
      cases hop
      obtain ⟨l, b, hg, -⟩ := applyHtlcRefund_ok.mp hok
      have hfound := hobject.trans hg.found
      obtain ⟨b', hb'⟩ := accountExists_iff.mp
        (h.exists_of (accountExists_iff.mpr ⟨b, hg.account⟩))
      exact ⟨_, applyHtlcRefund_ok.mpr ⟨l, b', { hg with
        active := h.htlcActive hg.active
        found := hfound
        expired := by rw [h.headTime]; exact hg.expired
        account := hb'
        adjustable := hfits l l.from b b' ⟨hfound, hg.still_open, rfl⟩ hg.account hb'
          hg.adjustable }, rfl⟩⟩
  | contractCall op =>
      cases hop
      obtain ⟨c, res, hg, hrun, hs, -⟩ := applyContractCall_ok.mp hok
      have hfound : db'.contracts[op.contractId]? = some c := by
        rw [h.contracts]
        exact hg.found
      exact ⟨_, applyContractCall_ok.mpr ⟨c, res, ⟨h.contractsActive hg.active, hg.valid,
        h.exists_of hg.caller_exists, hfound⟩, (h.runCall c).trans hrun, hs, rfl⟩⟩
  | _ => cases hop

/-- In a funded run every amount fits. -/
theorem succeeds {op : Operation} (h : SameReads db db' key) (hop : op.object = some key)
    (inv : FundsInv tr db') (hf : Funded tr) (hok : Succeeds (apply op) db) :
    Succeeds (apply op) db' := by
  refine h.succeeds_of_fits hop (fun l account b b' hpays _ hb' _ => ?_) hok
  cases op with
  | htlcRedeem op => exact inv.adjustable hf hpays.1 hpays.2.1 hb'
  | htlcRefund op => exact inv.adjustable hf hpays.1 hpays.2.1 hb'
  | _ => exact hpays.elim

end SameReads

/-! ## What an operation leaves -/

/-- A credit to an account that exists leaves the accounts that exist. -/
theorem contains_credit {balances : ExtTreeMap AccountName AccountBalance} {account : AccountName}
    (h : balances.contains account = true) (amount : Asset) (name : AccountName) :
    (Effect.credit balances account amount).contains name = balances.contains name := by
  rw [Effect.credit, ExtTreeMap.contains_insert]
  by_cases heq : account = name
  · rw [← heq, h, Bool.or_true]
  · simp [heq]

/-- The account an effect credits exists. -/
def Effect.Pays (db : Database) : Effect → Prop
  | settle _ _ account => db.accountExists account = true
  | _ => True

theorem effect_pays {op : Operation} {x : Effect} (h : effect db op = some x) : x.Pays db := by
  unfold effect at h
  split at h
  · next hok =>
      obtain ⟨db', hok⟩ := hok
      cases op with
      | htlcRedeem op =>
          obtain ⟨l, b, hg, -⟩ := applyHtlcRedeem_ok.mp hok
          rw [effectOf, hg.found] at h
          cases h
          exact accountExists_iff.mpr ⟨b, hg.account⟩
      | htlcRefund op =>
          obtain ⟨l, b, hg, -⟩ := applyHtlcRefund_ok.mp hok
          rw [effectOf, hg.found] at h
          cases h
          exact accountExists_iff.mpr ⟨b, hg.account⟩
      | nftTransfer op =>
          obtain ⟨n, -, rfl⟩ := Option.map_eq_some_iff.mp h
          trivial
      | nftApprove op =>
          obtain ⟨n, -, rfl⟩ := Option.map_eq_some_iff.mp h
          trivial
      | nftBurn op =>
          obtain ⟨n, -, rfl⟩ := Option.map_eq_some_iff.mp h
          trivial
      | contractCall op =>
          obtain ⟨n, -, rfl⟩ := Option.map_eq_some_iff.mp h
          trivial
      | _ => cases h
  · cases h

/-- An effect leaves what an operation on another object reads. -/
theorem sameReads_run {x : Effect} {key : ObjectKey} (hne : x.key ≠ key) (hpays : x.Pays db) :
    SameReads db (x.run db) key := by
  cases x with
  | token id o burned =>
      refine ⟨rfl, rfl, rfl, rfl, fun _ => rfl, ?_⟩
      cases key with
      | nft i =>
          refine (getElem?_put _ _ _ _).trans (if_neg fun heq => hne ?_)
          rw [Effect.key, heq]
      | _ => rfl
  | settle id l account =>
      refine ⟨rfl, rfl, rfl, rfl, contains_credit hpays l.amount, ?_⟩
      cases key with
      | htlc i => exact getElem?_insert_ne fun heq => hne (by rw [Effect.key, heq])
      | _ => rfl
  | storage id st =>
      refine ⟨rfl, rfl, rfl, rfl, fun _ => rfl, ?_⟩
      cases key with
      | contract i => exact getElem?_insert_ne fun heq => hne (by rw [Effect.key, heq])
      | _ => rfl

theorem SameReads.refl (db : Database) (key : ObjectKey) : SameReads db db key := by
  refine ⟨rfl, rfl, rfl, rfl, fun _ => rfl, ?_⟩
  cases key with
  | _ => rfl

/-- The reads are part of the consensus state. -/
theorem SameReads.of_consensus {x y : Database} {key : ObjectKey} (h : SameReads db x key)
    (hxy : consensus y = consensus x) : SameReads db y key := by
  have same := consensus_eq_iff.mp hxy
  refine ⟨same.config.trans h.config, same.headTime.trans h.headTime,
    same.tokens.operators.trans h.operators, same.contracts.contracts.trans h.contracts,
    fun name => ?_, ?_⟩
  · rw [Database.accountExists, same.funds.balances]
    exact h.accounts name
  · have hobject := h.object
    cases key with
    | nft id => exact (congrArg (·[id]?) same.tokens.nfts).trans hobject
    | htlc id => exact (congrArg (·[id]?) same.funds.htlcs).trans hobject
    | contract id => exact (congrArg (·[id]?) same.contracts.contractStorage).trans hobject

/-- An operation leaves what an operation on another object reads. -/
theorem sameReads_exec {a : Operation} {key : ObjectKey} (hs : HasStorage db)
    (ha : a.object.isSome) (hne : a.object ≠ some key) :
    SameReads db (exec (.apply a) db).2 key := by
  have hexec := exec_effect hs ha
  rw [← consensus_runEffect] at hexec
  refine SameReads.of_consensus ?_ hexec
  cases he : effect db a with
  | none => exact SameReads.refl db key
  | some x =>
      exact sameReads_run (fun heq => hne (by rw [effect_key he, heq])) (effect_pays he)

/-! ## Main result -/

/-- Applying an operation keeps a run funded: it creates no account and no lock. -/
theorem funded_apply {config : NodeConfig} {steps : List Step} {op : Operation}
    (hf : Funded (trace config steps)) (hop : op.object.isSome) :
    Funded (trace config (.apply op :: steps)) := by
  have hcredit : ∀ sym, credit sym (Machine.event exec (final config steps) (.apply op)) = 0 :=
    fun sym => rfl
  refine ⟨?_, fun sym hsym => ?_, ?_⟩
  · exact List.forall_mem_cons.mpr ⟨fun name hive hbd h => (by cases h), hf.nonneg⟩
  · rw [trace, Machine.trace_cons, credited_cons, hcredit, zero_add]
    exact hf.bounded sym hsym
  · rw [trace, Machine.trace_cons, created_of_quiet]
    · exact hf.locks
    · intro _
      cases op with
      | htlcCreate op => cases hop
      | _ => rfl

/-- An operation on one object neither makes an operation on another one succeed
or fail nor changes what it writes. -/
theorem effect_after {config : NodeConfig} {steps : List Step} {a b : Operation}
    (hf : Funded (trace config steps)) (h : Independent a b) :
    (Succeeds (apply b) (final config steps) ↔
        Succeeds (apply b) (final config (.apply a :: steps))) ∧
      effect (final config (.apply a :: steps)) b = effect (final config steps) b := by
  obtain ⟨key, hkey⟩ := Option.isSome_iff_exists.mp h.right
  have hreads : SameReads (final config steps) (final config (.apply a :: steps)) key :=
    sameReads_exec (hasStorage_run config steps) h.left (hkey ▸ h.distinct)
  have hf' := funded_apply hf h.left
  have hiff : Succeeds (apply b) (final config steps) ↔
      Succeeds (apply b) (final config (.apply a :: steps)) :=
    ⟨hreads.succeeds hkey (fundsInv_run config _ hf') hf',
      hreads.symm.succeeds hkey (fundsInv_run config _ hf) hf⟩
  refine ⟨hiff, ?_⟩
  unfold effect
  rw [hreads.effectOf hkey]
  simp only [hiff]

theorem runEffect_comm {x y : Option Effect}
    (h : ∀ u v, x = some u → y = some v → u.key ≠ v.key) (db : Database) :
    runEffect x (runEffect y db) = runEffect y (runEffect x db) := by
  cases x with
  | none => rfl
  | some u =>
      cases y with
      | none => rfl
      | some v => exact Effect.run_comm (h u v rfl rfl) db

/-- Two operations on different objects commute in every reachable database:
neither changes whether the other succeeds, and both orders end in the same
consensus state. -/
theorem independent_commute (config : NodeConfig) (steps : List Step)
    (hfunded : Funded (trace config steps)) (a b : Operation) (h : Independent a b) :
    (Succeeds (apply a) (final config steps) ↔
        Succeeds (apply a) (final config (.apply b :: steps))) ∧
      (Succeeds (apply b) (final config steps) ↔
        Succeeds (apply b) (final config (.apply a :: steps))) ∧
      SameConsensus (final config (.apply b :: .apply a :: steps))
        (final config (.apply a :: .apply b :: steps)) := by
  obtain ⟨hb, heb⟩ := effect_after hfunded h
  obtain ⟨ha, hea⟩ := effect_after hfunded h.symm
  refine ⟨ha, hb, consensus_eq_iff.mp ?_⟩
  have horder {x y : Operation} (hx : x.object.isSome) (hy : y.object.isSome)
      (he : effect (final config (.apply x :: steps)) y = effect (final config steps) y) :
      consensus (final config (.apply y :: .apply x :: steps)) =
        runEffect (effect (final config steps) y)
          (runEffect (effect (final config steps) x) (consensus (final config steps))) := by
    calc consensus (final config (.apply y :: .apply x :: steps))
        = runEffect (effect (final config (.apply x :: steps)) y)
            (consensus (final config (.apply x :: steps))) :=
          exec_effect (hasStorage_run config (.apply x :: steps)) hy
      _ = _ := by
          rw [he]
          exact congrArg _ (exec_effect (hasStorage_run config steps) hx)
  rw [horder h.right h.left hea, horder h.left h.right heb]
  refine runEffect_comm (fun u v hu hv heq => h.distinct ?_) _
  rw [effect_key hu, effect_key hv, heq]

/-- Two locks for Bob under the SHA-256 digest of `abc`. -/
def twoLocksRun : List Step :=
  [ .apply (.htlcCreate
      { «from» := text "alice", «to» := text "bob", amount := ⟨10, .hive⟩
        preimageHash := abcLock.preimageHash, preimageSize := 3, expiration := 3600 }) ]
    ++ lockRun

/-- A redeem of a lock by Bob. -/
def bobRedeems (id : HtlcId) : Operation :=
  .htlcRedeem { «to» := text "bob", htlcId := id, preimage := text "abc" }

/-- Bob redeems both locks, in either order. -/
theorem independent_commute_twoLocks :
    Succeeds (apply (bobRedeems 2)) (final {} (.apply (bobRedeems 1) :: twoLocksRun)) ∧
      SameConsensus
        (final {} (.apply (bobRedeems 2) :: .apply (bobRedeems 1) :: twoLocksRun))
        (final {} (.apply (bobRedeems 1) :: .apply (bobRedeems 2) :: twoLocksRun)) := by
  have hfunded : Funded (trace {} twoLocksRun) := by
    refine funded_of_steps (fun name hive hbd hmem => ?_) (by decide +kernel) (by decide +kernel)
      (by decide +kernel)
    simp [twoLocksRun, lockRun] at hmem
    obtain ⟨-, rfl, rfl⟩ | ⟨-, rfl, rfl⟩ := hmem
    · decide
    · decide
  obtain ⟨-, hb, hsame⟩ := independent_commute {} twoLocksRun hfunded (bobRedeems 1) (bobRedeems 2)
    ⟨rfl, rfl, by decide⟩
  exact ⟨hb.mp (by decide +kernel), hsame⟩

end HiveNative.Chain
