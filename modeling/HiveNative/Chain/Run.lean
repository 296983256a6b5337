import HiveNative.Lib.Machine
import HiveNative.Lib.Allocation
import HiveNative.Chain.Failure

/-!
# Runs of the database

A run starts from an empty database with some configuration and takes steps: an
account is created, the head time is set to any value, or one of the eleven
operations is applied.  A step may fail, and the run goes on from the database
the failed step left.

The state of the database falls into three parts that no evaluator mixes: the
funds (balances and locks), the tokens (collections, tokens and operators) and
the contracts.  For each part there is one inversion lemma that says what an
event can do to it: nothing, or one of a few named moves.  The invariants are
proved by going through these moves.
-/

namespace HiveNative.Chain

open Std (ExtTreeMap)
open EState OrderedMap

/-- One step of a run. -/
inductive Step where
  | createAccount (name : AccountName) (hive hbd : ShareType)
  | setHeadTime (t : TimePointSec)
  | apply (op : Operation)
deriving Repr, DecidableEq

/-- The program a step runs. -/
def Step.program : Step → Eval Unit
  | .createAccount name hive hbd => Chain.createAccount name hive hbd
  | .setHeadTime t => modify fun db => { db with headTime := t }
  | .apply op => Chain.apply op

/-- Execute one step.  A failed step leaves what its program wrote. -/
def exec (s : Step) (db : Database) : Except Stop Unit × Database :=
  match s.program db with
  | .ok _ db' => (.ok (), db')
  | .error e db' => (.error e, db')

/-- One executed step of a run. -/
abbrev Event := Machine.Event Database Step (Except Stop Unit)

/-- The step of this event finished. -/
def Succeeded (e : Event) : Prop := e.outcome = .ok ()

instance (e : Event) : Decidable (Succeeded e) := inferInstanceAs (Decidable (_ = _))

/-- The program ends with an exception. -/
def Throws (x : Eval Unit) (db : Database) : Prop := ∃ ex db', x db = .error (.threw ex) db'

/-- The program finishes. -/
def Succeeds (x : Eval Unit) (db : Database) : Prop := ∃ db', x db = .ok () db'

instance (x : Eval Unit) (db : Database) : Decidable (Succeeds x db) :=
  match h : x db with
  | .ok () db' => .isTrue ⟨db', h⟩
  | .error _ _ => .isFalse fun hs => by
      obtain ⟨db', hok⟩ := hs
      rw [h] at hok
      cases hok

/-- The database before the first step. -/
def Database.empty (config : NodeConfig) : Database := { config := config }

/-- The database a run ends in.  The steps are listed newest first. -/
abbrev final (config : NodeConfig) (steps : List Step) : Database :=
  Machine.final exec (.empty config) steps

/-- The events of a run, newest first. -/
abbrev trace (config : NodeConfig) (steps : List Step) : List Event :=
  Machine.trace exec (.empty config) steps

variable {db db' : Database} {s : Step}

theorem exec_ok : exec s db = (.ok (), db') ↔ s.program db = .ok () db' := by
  unfold exec
  cases h : s.program db with
  | ok u db'' => simp
  | error e db'' => simp

theorem exec_error {e : Stop} : exec s db = (.error e, db') ↔ s.program db = .error e db' := by
  unfold exec
  cases h : s.program db with
  | ok u db'' => simp
  | error e db'' => simp

/-- An event either succeeded or failed, and its states are those of the program. -/
theorem event_cases (db : Database) (s : Step) :
    let e : Event := Machine.event exec db s
    (Succeeded e ∧ s.program db = .ok () e.after) ∨
      ∃ x, e.outcome = .error x ∧ s.program db = .error x e.after := by
  intro e
  cases h : exec s db with
  | mk outcome after =>
      have ho : e.outcome = outcome := congrArg Prod.fst h
      have ha : e.after = after := congrArg Prod.snd h
      cases outcome with
      | ok u => exact Or.inl ⟨ho, ha ▸ exec_ok.mp h⟩
      | error x => exact Or.inr ⟨x, ho, ha ▸ exec_error.mp h⟩

/-! ## What a run created -/

/-- The number of steps of a kind that succeeded. -/
def created (kind : Step → Bool) (tr : List Event) : ℕ :=
  tr.countP fun e => decide (Succeeded e) && kind e.label

@[simp] theorem created_nil (kind : Step → Bool) : created kind [] = 0 := rfl

theorem created_cons (kind : Step → Bool) (e : Event) (tr : List Event) :
    created kind (e :: tr) =
      created kind tr + if Succeeded e ∧ kind e.label = true then 1 else 0 := by
  unfold created
  rw [List.countP_cons]
  simp

theorem created_of_quiet {kind : Step → Bool} {e : Event} (tr : List Event)
    (h : Succeeded e → kind e.label = false) : created kind (e :: tr) = created kind tr := by
  rw [created_cons, if_neg, Nat.add_zero]
  rintro ⟨hs, hk⟩
  rw [h hs] at hk
  cases hk

theorem created_of_kind {kind : Step → Bool} {e : Event} (tr : List Event) (hs : Succeeded e)
    (h : kind e.label = true) : created kind (e :: tr) = created kind tr + 1 := by
  rw [created_cons, if_pos ⟨hs, h⟩]

theorem created_le_cons (kind : Step → Bool) (e : Event) (tr : List Event) :
    created kind tr ≤ created kind (e :: tr) := by
  rw [created_cons]
  omega

def Step.isHtlcCreate : Step → Bool
  | .apply (.htlcCreate _) => true
  | _ => false

def Step.isNftMint : Step → Bool
  | .apply (.nftMint _) => true
  | _ => false

def Step.isNftCreateCollection : Step → Bool
  | .apply (.nftCreateCollection _) => true
  | _ => false

def Step.isContractDeploy : Step → Bool
  | .apply (.contractDeploy _) => true
  | _ => false

/-! ## Frames -/

theorem createAccount_ok {name : AccountName} {hive hbd : ShareType} {u : Unit} :
    createAccount name hive hbd db = .ok u db' ↔
      ValidName name ∧
        db' = { db with balances := db.balances.insert name ⟨hive, hbd⟩ } := by
  simp only [createAccount, bind_ok, lift_ok, assertAccountName_eq_ok, modify_ok, exists_and_left,
    exists_eq_left', exists_const, and_assoc]
  exact and_congr_right fun _ => eq_comm

theorem Still.createAccount {R : Database → Database → Prop} (hR : Still R) (name : AccountName)
    (hive hbd : ShareType) :
    FailsWithin R (· ≠ .undefined) (Chain.createAccount name hive hbd) :=
  hR.bind (hR.lift _) fun _ => failsWithin_of_total (total_modify _)

theorem atomic_createAccount (name : AccountName) (hive hbd : ShareType) :
    Atomic (createAccount name hive hbd) := still_within.createAccount name hive hbd

/-- A failed step writes nothing but the charge, the pending virtual operations
and, in a contract call, a storage entry. -/
theorem program_error {x : Stop} (h : s.program db = .error x db') :
    Within { db with contractStorage := db'.contractStorage } db' := by
  have widen : Within db db' → Within { db with contractStorage := db'.contractStorage } db' := by
    intro hw
    have hc : db'.contractStorage = db.contractStorage := by rw [hw]
    rw [hc]
    exact hw
  cases s with
  | createAccount name hive hbd => exact widen (atomic_createAccount name hive hbd _ _ _ h).1
  | setHeadTime t => exact (modify_error.mp h).elim
  | apply op =>
      rw [Step.program] at h
      cases op with
      | contractCall op =>
          obtain ⟨-, -, hw⟩ := applyContractCall_error h
          cases hw with
          | inl hw => exact widen hw
          | inr hw =>
              obtain ⟨-, hw⟩ := hw
              unfold Within at hw ⊢
              rw [hw]
              rfl
      | _ => exact widen (contained_apply (by simp) _ _ _ h).1

/-- The parts of the database an operation can be about. -/
inductive Part where
  | tokens
  | locks
  | contracts
deriving DecidableEq

def Operation.part : Operation → Part
  | .nftCreateCollection _ => .tokens
  | .nftMint _ => .tokens
  | .nftTransfer _ => .tokens
  | .nftApprove _ => .tokens
  | .nftSetApprovalForAll _ => .tokens
  | .nftBurn _ => .tokens
  | .htlcCreate _ => .locks
  | .htlcRedeem _ => .locks
  | .htlcRefund _ => .locks
  | .contractDeploy _ => .contracts
  | .contractCall _ => .contracts

/-- The balances, the locks and their counter are the same. -/
structure SameFunds (db db' : Database) : Prop where
  balances : db'.balances = db.balances
  htlcs : db'.htlcs = db.htlcs
  next : db'.nextHtlcId = db.nextHtlcId

/-- The collections, the tokens, the operators and their counters are the same. -/
structure SameTokens (db db' : Database) : Prop where
  collections : db'.collections = db.collections
  collectionBySymbol : db'.collectionBySymbol = db.collectionBySymbol
  nfts : db'.nfts = db.nfts
  operators : db'.operators = db.operators
  nextCollection : db'.nextCollectionId = db.nextCollectionId
  nextNft : db'.nextNftId = db.nextNftId

/-- The contracts, their storage and their counter are the same. -/
structure SameContracts (db db' : Database) : Prop where
  contracts : db'.contracts = db.contracts
  contractStorage : db'.contractStorage = db.contractStorage
  next : db'.nextContractId = db.nextContractId

/-- A successful operation leaves the parts it is not about.  No operation moves
the head time or the configuration. -/
structure Framed (op : Operation) (db db' : Database) : Prop where
  funds : op.part ≠ .locks → SameFunds db db'
  tokens : op.part ≠ .tokens → SameTokens db db'
  contracts : op.part ≠ .contracts → SameContracts db db'
  headTime : db'.headTime = db.headTime
  config : db'.config = db.config

theorem apply_frame {op : Operation} {u : Unit} (h : apply op db = .ok u db') :
    Framed op db db' := by
  have nft : op.part = .tokens → SameFunds db db' → SameContracts db db' →
      db'.headTime = db.headTime → db'.config = db.config → Framed op db db' :=
    fun hp hf hc ht hg => ⟨fun _ => hf, fun hn => absurd hp hn, fun _ => hc, ht, hg⟩
  have htlc : op.part = .locks → SameTokens db db' → SameContracts db db' →
      db'.headTime = db.headTime → db'.config = db.config → Framed op db db' :=
    fun hp ht hc hh hg => ⟨fun hn => absurd hp hn, fun _ => ht, fun _ => hc, hh, hg⟩
  have contract : op.part = .contracts → SameFunds db db' → SameTokens db db' →
      db'.headTime = db.headTime → db'.config = db.config → Framed op db db' :=
    fun hp hf ht hh hg => ⟨fun _ => hf, fun _ => ht, fun hn => absurd hp hn, hh, hg⟩
  cases op with
  | nftCreateCollection op =>
      obtain ⟨-, rfl⟩ := applyNftCreateCollection_ok.mp h
      exact nft rfl ⟨rfl, rfl, rfl⟩ ⟨rfl, rfl, rfl⟩ rfl rfl
  | nftMint op =>
      obtain ⟨_, -, rfl⟩ := applyNftMint_ok.mp h
      exact nft rfl ⟨rfl, rfl, rfl⟩ ⟨rfl, rfl, rfl⟩ rfl rfl
  | nftTransfer op =>
      obtain ⟨_, -, rfl⟩ := applyNftTransfer_ok.mp h
      exact nft rfl ⟨rfl, rfl, rfl⟩ ⟨rfl, rfl, rfl⟩ rfl rfl
  | nftApprove op =>
      obtain ⟨_, -, rfl⟩ := applyNftApprove_ok.mp h
      exact nft rfl ⟨rfl, rfl, rfl⟩ ⟨rfl, rfl, rfl⟩ rfl rfl
  | nftSetApprovalForAll op =>
      obtain ⟨-, rfl⟩ := applyNftSetApprovalForAll_ok.mp h
      exact nft rfl ⟨rfl, rfl, rfl⟩ ⟨rfl, rfl, rfl⟩ rfl rfl
  | nftBurn op =>
      obtain ⟨_, -, rfl⟩ := applyNftBurn_ok.mp h
      exact nft rfl ⟨rfl, rfl, rfl⟩ ⟨rfl, rfl, rfl⟩ rfl rfl
  | htlcCreate op =>
      obtain ⟨_, -, rfl⟩ := applyHtlcCreate_ok.mp h
      exact htlc rfl ⟨rfl, rfl, rfl, rfl, rfl, rfl⟩ ⟨rfl, rfl, rfl⟩ rfl rfl
  | htlcRedeem op =>
      obtain ⟨_, _, -, rfl⟩ := applyHtlcRedeem_ok.mp h
      exact htlc rfl ⟨rfl, rfl, rfl, rfl, rfl, rfl⟩ ⟨rfl, rfl, rfl⟩ rfl rfl
  | htlcRefund op =>
      obtain ⟨_, _, -, rfl⟩ := applyHtlcRefund_ok.mp h
      exact htlc rfl ⟨rfl, rfl, rfl, rfl, rfl, rfl⟩ ⟨rfl, rfl, rfl⟩ rfl rfl
  | contractDeploy op =>
      obtain ⟨-, rfl⟩ := applyContractDeploy_ok.mp h
      exact contract rfl ⟨rfl, rfl, rfl⟩ ⟨rfl, rfl, rfl, rfl, rfl, rfl⟩ rfl rfl
  | contractCall op =>
      obtain ⟨_, _, -, -, -, rfl⟩ := applyContractCall_ok.mp h
      exact contract rfl ⟨rfl, rfl, rfl⟩ ⟨rfl, rfl, rfl, rfl, rfl, rfl⟩ rfl rfl

theorem program_error_funds {x : Stop} (h : s.program db = .error x db') : SameFunds db db' := by
  rw [program_error h]
  exact ⟨rfl, rfl, rfl⟩

theorem program_error_tokens {x : Stop} (h : s.program db = .error x db') : SameTokens db db' := by
  rw [program_error h]
  exact ⟨rfl, rfl, rfl, rfl, rfl, rfl⟩

/-- No step changes the configuration. -/
theorem config_step (db : Database) (s : Step) : (exec s db).2.config = db.config := by
  show (Machine.event exec db s).after.config = db.config
  cases event_cases db s with
  | inr hfail =>
      obtain ⟨x, -, hfail⟩ := hfail
      rw [program_error hfail]
  | inl hok =>
      obtain ⟨-, hok⟩ := hok
      cases s with
      | createAccount name hive hbd => rw [(createAccount_ok.mp hok).2]
      | setHeadTime t => rw [← modify_ok.mp hok]
      | apply op => exact (apply_frame hok).config

theorem config_run (config : NodeConfig) (steps : List Step) :
    (final config steps).config = config := by
  induction steps with
  | nil => rfl
  | cons s steps ih => exact (config_step _ s).trans ih

/-! ## Moves of the funds -/

/-- What an event can do to the balances and the locks. -/
inductive FundsMove (e : Event) : Prop where
  | idle (same : SameFunds e.before e.after)
      (quiet : Succeeded e → e.label.isHtlcCreate = false ∧
        ∀ name hive hbd, e.label ≠ .createAccount name hive hbd)
  | account {name : AccountName} {hive hbd : ShareType} (done : Succeeded e)
      (label : e.label = .createAccount name hive hbd) (valid : ValidName name)
      (balances : e.after.balances = e.before.balances.insert name ⟨hive, hbd⟩)
      (htlcs : e.after.htlcs = e.before.htlcs) (next : e.after.nextHtlcId = e.before.nextHtlcId)
  | lock {op : HtlcCreateOperation} {b : AccountBalance} (done : Succeeded e)
      (label : e.label = .apply (.htlcCreate op)) (guards : Lockable e.before op b)
      (balances : e.after.balances = e.before.balances.insert op.from (b.debited op.amount))
      (htlcs : e.after.htlcs = e.before.htlcs.insert e.before.nextHtlcId (newHtlc e.before op))
      (next : e.after.nextHtlcId = e.before.nextHtlcId + 1)
  | redeem {op : HtlcRedeemOperation} {h : HtlcObject} {b : AccountBalance} (done : Succeeded e)
      (label : e.label = .apply (.htlcRedeem op)) (guards : Redeemable e.before op h b)
      (balances : e.after.balances = e.before.balances.insert h.to (b.adjusted h.amount))
      (htlcs : e.after.htlcs = e.before.htlcs.insert op.htlcId { h with status := .redeemed })
      (next : e.after.nextHtlcId = e.before.nextHtlcId)
  | refund {op : HtlcRefundOperation} {h : HtlcObject} {b : AccountBalance} (done : Succeeded e)
      (label : e.label = .apply (.htlcRefund op)) (guards : Refundable e.before op h b)
      (balances : e.after.balances = e.before.balances.insert h.from (b.adjusted h.amount))
      (htlcs : e.after.htlcs = e.before.htlcs.insert op.htlcId { h with status := .refunded })
      (next : e.after.nextHtlcId = e.before.nextHtlcId)

theorem fundsMove (db : Database) (s : Step) : FundsMove (Machine.event exec db s) := by
  cases event_cases db s with
  | inr hfail =>
      obtain ⟨x, ho, hfail⟩ := hfail
      refine .idle (program_error_funds hfail) fun hs => ?_
      rw [Succeeded, ho] at hs
      cases hs
  | inl hok =>
      obtain ⟨hs, hok⟩ := hok
      cases s with
      | createAccount name hive hbd =>
          obtain ⟨hv, hdb⟩ := createAccount_ok.mp hok
          exact .account hs rfl hv (by rw [hdb]; rfl) (by rw [hdb]; rfl) (by rw [hdb]; rfl)
      | setHeadTime t =>
          have hdb := (modify_ok.mp hok).symm
          exact .idle (by rw [hdb]; exact ⟨rfl, rfl, rfl⟩)
            fun _ => ⟨rfl, fun _ _ _ h => by cases h⟩
      | apply op =>
          have hframe : Framed op db _ := apply_frame hok
          cases op with
          | htlcCreate op =>
              obtain ⟨b, hg, hdb⟩ := applyHtlcCreate_ok.mp hok
              exact .lock hs rfl hg (by rw [hdb]; rfl) (by rw [hdb]; rfl) (by rw [hdb]; rfl)
          | htlcRedeem op =>
              obtain ⟨h, b, hg, hdb⟩ := applyHtlcRedeem_ok.mp hok
              exact .redeem hs rfl hg (by rw [hdb]; rfl) (by rw [hdb]; rfl) (by rw [hdb]; rfl)
          | htlcRefund op =>
              obtain ⟨h, b, hg, hdb⟩ := applyHtlcRefund_ok.mp hok
              exact .refund hs rfl hg (by rw [hdb]; rfl) (by rw [hdb]; rfl) (by rw [hdb]; rfl)
          | _ =>
              exact .idle (hframe.funds fun h => by cases h)
                fun _ => ⟨rfl, fun _ _ _ h => by cases h⟩

/-! ## Moves of the tokens -/

/-- An operation on collections, tokens or operators. -/
def Step.isTokenOperation : Step → Bool
  | .apply op => op.part = .tokens
  | _ => false

/-- What an event can do to the collections, the tokens and the operators. -/
inductive TokenMove (e : Event) : Prop where
  | idle (same : SameTokens e.before e.after)
      (quiet : Succeeded e → e.label.isTokenOperation = false)
  | createCollection {op : NftCreateCollectionOperation} (done : Succeeded e)
      (label : e.label = .apply (.nftCreateCollection op))
      (creator_exists : e.before.accountExists op.creator = true)
      (symbol_free : e.before.collectionBySymbol.contains op.symbol = false)
      (collections : e.after.collections =
        e.before.collections.insert e.before.nextCollectionId (newCollection e.before op))
      (collectionBySymbol : e.after.collectionBySymbol =
        e.before.collectionBySymbol.insert op.symbol e.before.nextCollectionId)
      (nfts : e.after.nfts = e.before.nfts) (operators : e.after.operators = e.before.operators)
      (nextCollection : e.after.nextCollectionId = e.before.nextCollectionId + 1)
      (nextNft : e.after.nextNftId = e.before.nextNftId)
  | mint {op : NftMintOperation} {col : NftCollectionObject} (done : Succeeded e)
      (label : e.label = .apply (.nftMint op)) (guards : Mintable e.before op col)
      (collections : e.after.collections =
        e.before.collections.insert op.collection { col with supply := col.supply + 1 })
      (nfts : e.after.nfts = e.before.nfts.insert e.before.nextNftId (newNft e.before op col))
      (operators : e.after.operators = e.before.operators)
      (nextCollection : e.after.nextCollectionId = e.before.nextCollectionId)
      (nextNft : e.after.nextNftId = e.before.nextNftId + 1)
  | transfer {op : NftTransferOperation} {n : NftObject} (done : Succeeded e)
      (label : e.label = .apply (.nftTransfer op)) (guards : Transferable e.before op n)
      (collections : e.after.collections = e.before.collections)
      (nfts : e.after.nfts =
        e.before.nfts.insert op.nftId { n with owner := op.to, approved := [] })
      (operators : e.after.operators = e.before.operators)
      (nextCollection : e.after.nextCollectionId = e.before.nextCollectionId)
      (nextNft : e.after.nextNftId = e.before.nextNftId)
  | approve {op : NftApproveOperation} {n : NftObject} (done : Succeeded e)
      (label : e.label = .apply (.nftApprove op)) (guards : Approvable e.before op n)
      (collections : e.after.collections = e.before.collections)
      (nfts : e.after.nfts = e.before.nfts.insert op.nftId { n with approved := op.approved })
      (operators : e.after.operators = e.before.operators)
      (nextCollection : e.after.nextCollectionId = e.before.nextCollectionId)
      (nextNft : e.after.nextNftId = e.before.nextNftId)
  | setOperator {op : NftSetApprovalForAllOperation} (done : Succeeded e)
      (label : e.label = .apply (.nftSetApprovalForAll op)) (guards : Settable e.before op)
      (collections : e.after.collections = e.before.collections)
      (nfts : e.after.nfts = e.before.nfts)
      (operators : e.after.operators = setOperator e.before.operators op)
      (nextCollection : e.after.nextCollectionId = e.before.nextCollectionId)
      (nextNft : e.after.nextNftId = e.before.nextNftId)
  | burn {op : NftBurnOperation} {n : NftObject} (done : Succeeded e)
      (label : e.label = .apply (.nftBurn op)) (guards : Burnable e.before op n)
      (collections : e.after.collections = decrementSupply e.before.collections n.collection)
      (nfts : e.after.nfts = e.before.nfts.erase op.nftId)
      (operators : e.after.operators = e.before.operators)
      (nextCollection : e.after.nextCollectionId = e.before.nextCollectionId)
      (nextNft : e.after.nextNftId = e.before.nextNftId)

theorem tokenMove (db : Database) (s : Step) : TokenMove (Machine.event exec db s) := by
  cases event_cases db s with
  | inr hfail =>
      obtain ⟨x, ho, hfail⟩ := hfail
      refine .idle (program_error_tokens hfail) fun hs => ?_
      rw [Succeeded, ho] at hs
      cases hs
  | inl hok =>
      obtain ⟨hs, hok⟩ := hok
      cases s with
      | createAccount name hive hbd =>
          obtain ⟨-, hdb⟩ := createAccount_ok.mp hok
          exact .idle (by rw [hdb]; exact ⟨rfl, rfl, rfl, rfl, rfl, rfl⟩) fun _ => rfl
      | setHeadTime t =>
          have hdb := (modify_ok.mp hok).symm
          exact .idle (by rw [hdb]; exact ⟨rfl, rfl, rfl, rfl, rfl, rfl⟩) fun _ => rfl
      | apply op =>
          have hframe : Framed op db _ := apply_frame hok
          cases op with
          | nftCreateCollection op =>
              obtain ⟨⟨-, -, hc, hf⟩, hdb⟩ := applyNftCreateCollection_ok.mp hok
              exact .createCollection hs rfl hc hf (by rw [hdb]; rfl) (by rw [hdb]; rfl)
                (by rw [hdb]; rfl) (by rw [hdb]; rfl) (by rw [hdb]; rfl) (by rw [hdb]; rfl)
          | nftMint op =>
              obtain ⟨col, hg, hdb⟩ := applyNftMint_ok.mp hok
              exact .mint hs rfl hg (by rw [hdb]; rfl) (by rw [hdb]; rfl) (by rw [hdb]; rfl)
                (by rw [hdb]; rfl) (by rw [hdb]; rfl)
          | nftTransfer op =>
              obtain ⟨n, hg, hdb⟩ := applyNftTransfer_ok.mp hok
              exact .transfer hs rfl hg (by rw [hdb]; rfl) (by rw [hdb]; rfl) (by rw [hdb]; rfl)
                (by rw [hdb]; rfl) (by rw [hdb]; rfl)
          | nftApprove op =>
              obtain ⟨n, hg, hdb⟩ := applyNftApprove_ok.mp hok
              exact .approve hs rfl hg (by rw [hdb]; rfl) (by rw [hdb]; rfl) (by rw [hdb]; rfl)
                (by rw [hdb]; rfl) (by rw [hdb]; rfl)
          | nftSetApprovalForAll op =>
              obtain ⟨hg, hdb⟩ := applyNftSetApprovalForAll_ok.mp hok
              exact .setOperator hs rfl hg (by rw [hdb]; rfl) (by rw [hdb]; rfl) (by rw [hdb]; rfl)
                (by rw [hdb]; rfl) (by rw [hdb]; rfl)
          | nftBurn op =>
              obtain ⟨n, hg, hdb⟩ := applyNftBurn_ok.mp hok
              exact .burn hs rfl hg (by rw [hdb]; rfl) (by rw [hdb]; rfl) (by rw [hdb]; rfl)
                (by rw [hdb]; rfl) (by rw [hdb]; rfl)
          | _ => exact .idle (hframe.tokens fun h => by cases h) fun _ => rfl

end HiveNative.Chain
