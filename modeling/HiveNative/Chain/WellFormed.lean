import HiveNative.Api.DatabaseApi
import HiveNative.Chain.Atomicity
import HiveNative.Chain.Conservation
import HiveNative.Chain.Supply

/-!
# Well-formed databases

The tables of the database refer to one another: an object stores the key it is
kept under, a collection and its symbol point at each other, an operator entry
names the key it has, every account that is named somewhere exists.  Each part of
the database has an invariant of its own, `TokensWf`, `LocksWf` and
`ContractsWf`, and is changed by its own operations only.

Accounts are never removed (`accountExists_step`), so what an object owes to the
existence of accounts stays true.  Ids are handed out by counters that never go
back, so an id is assigned once, also when its token is burned (`HandsOut`).
-/

namespace HiveNative.Chain

open Std (ExtTreeMap)
open EState OrderedMap

variable {tr : List Event} {e : Event} {db db' : Database}

/-! ## Accounts stay -/

theorem accountExists_step (db : Database) (s : Step) (name : AccountName)
    (h : db.accountExists name = true) : (exec s db).2.accountExists name = true := by
  cases fundsMove db s with
  | idle same quiet => exact (congrArg (·.contains name) same.balances).trans h
  | account done label valid balances htlcs next => exact accountExists_insert balances name h
  | lock done label guards balances htlcs next => exact accountExists_insert balances name h
  | redeem done label guards balances htlcs next => exact accountExists_insert balances name h
  | refund done label guards balances htlcs next => exact accountExists_insert balances name h

/-! ## Collections, tokens and operators -/

/-- What a stored collection satisfies. -/
structure CollectionOk (db : Database) (id : CollectionId) (c : NftCollectionObject) : Prop where
  id_eq : c.id = id
  creator_exists : db.accountExists c.creator = true
  by_symbol : db.collectionBySymbol[c.symbol]? = some id
  full : db.config.nftSkipState = false

/-- What a stored token satisfies. -/
structure NftOk (db : Database) (id : NftId) (n : NftObject) : Prop where
  id_eq : n.id = id
  owner_exists : db.accountExists n.owner = true
  approved_exists : n.approved ≠ [] → db.accountExists n.approved = true

/-- What a stored operator entry satisfies. -/
structure OperatorOk (db : Database) (key : OperatorKey) (o : NftOperatorObject) : Prop where
  key_eq : key = (o.owner, o.operatorAccount, o.collection)
  approved : o.approved = true
  owner_exists : db.accountExists o.owner = true
  operator_exists : db.accountExists o.operatorAccount = true
  collection_exists : o.collection = 0 ∨ o.collection ∈ db.collections

structure TokensWf (db : Database) : Prop where
  collections : ∀ (id : CollectionId) (c : NftCollectionObject),
    db.collections[id]? = some c → CollectionOk db id c
  symbols : ∀ (symbol : Bytes) (id : CollectionId), db.collectionBySymbol[symbol]? = some id →
    ∃ c, db.collections[id]? = some c ∧ c.symbol = symbol
  nfts : ∀ (id : NftId) (n : NftObject), db.nfts[id]? = some n → NftOk db id n
  operators : ∀ (key : OperatorKey) (o : NftOperatorObject), db.operators[key]? = some o →
    OperatorOk db key o

/-- A collection without its supply. -/
def NftCollectionObject.terms (c : NftCollectionObject) : NftCollectionObject :=
  { c with supply := 0 }

/-- The collections are the same but for their supplies. -/
def SupplyOnly (m m' : ExtTreeMap CollectionId NftCollectionObject) : Prop :=
  ∀ id : CollectionId, m'[id]?.map NftCollectionObject.terms = m[id]?.map NftCollectionObject.terms

/-- What grows at every step: the accounts, and under the same configuration. -/
structure Grows (db db' : Database) : Prop where
  accounts : ∀ name, db.accountExists name = true → db'.accountExists name = true
  config : db'.config = db.config

theorem grows_step (db : Database) (s : Step) : Grows db (exec s db).2 :=
  ⟨accountExists_step db s, config_step db s⟩

theorem NftOk.mono {id : NftId} {n : NftObject} (h : NftOk db id n) (hg : Grows db db') :
    NftOk db' id n :=
  ⟨h.id_eq, hg.accounts _ h.owner_exists, fun ha => hg.accounts _ (h.approved_exists ha)⟩

theorem OperatorOk.mono {key : OperatorKey} {o : NftOperatorObject} (h : OperatorOk db key o)
    (hg : Grows db db') (hcol : ∀ id, id ∈ db.collections → id ∈ db'.collections) :
    OperatorOk db' key o :=
  ⟨h.key_eq, h.approved, hg.accounts _ h.owner_exists, hg.accounts _ h.operator_exists,
    h.collection_exists.imp_right (hcol _)⟩

namespace SupplyOnly

variable {m m' : ExtTreeMap CollectionId NftCollectionObject}

theorem of_eq (h : m' = m) : SupplyOnly m m' := by
  intro id
  rw [h]

/-- Writing back a collection with another supply. -/
theorem insert {id : CollectionId} {c : NftCollectionObject} (hc : m[id]? = some c)
    (supply : UInt64) : SupplyOnly m (m.insert id { c with supply := supply }) := by
  intro i
  rw [getElem?_insert_eq]
  split
  · next hi =>
      subst hi
      rw [hc]
      rfl
  · rfl

theorem decrement (id : CollectionId) : SupplyOnly m (decrementSupply m id) := by
  unfold decrementSupply
  split
  · exact of_eq rfl
  · next c hc =>
      split
      · exact insert hc _
      · exact of_eq rfl

/-- A collection after the change was there before, with another supply. -/
theorem back (h : SupplyOnly m m') {id : CollectionId} {c' : NftCollectionObject}
    (hc : m'[id]? = some c') : ∃ c, m[id]? = some c ∧ c' = { c with supply := c'.supply } := by
  have heq := h id
  rw [hc, Option.map_some, eq_comm, Option.map_eq_some_iff] at heq
  obtain ⟨c, hm, hstrip⟩ := heq
  refine ⟨c, hm, ?_⟩
  have := congrArg (fun x : NftCollectionObject => { x with supply := c'.supply }) hstrip
  exact this.symm

theorem symm (h : SupplyOnly m m') : SupplyOnly m' m := fun id => (h id).symm

theorem mem (h : SupplyOnly m m') {id : CollectionId} (hid : id ∈ m) : id ∈ m' := by
  obtain ⟨c, hc⟩ := mem_iff_exists.mp hid
  obtain ⟨c', hc', -⟩ := h.symm.back hc
  exact mem_iff_exists.mpr ⟨c', hc'⟩

end SupplyOnly

/-- A step that creates no collection: the collections change in their supplies
only, and what it stores is checked. -/
theorem TokensWf.keep (wf : TokensWf db) (hg : Grows db db')
    (hcol : SupplyOnly db.collections db'.collections)
    (hsym : db'.collectionBySymbol = db.collectionBySymbol)
    (hnfts : ∀ (id : NftId) (n : NftObject), db'.nfts[id]? = some n → NftOk db' id n)
    (hops : ∀ (key : OperatorKey) (o : NftOperatorObject), db'.operators[key]? = some o →
      OperatorOk db' key o) : TokensWf db' := by
  refine ⟨fun id c' hc' => ?_, fun symbol id hid => ?_, hnfts, hops⟩
  · obtain ⟨c, hc, heq⟩ := hcol.back hc'
    have hok := wf.collections id c hc
    rw [heq]
    exact ⟨hok.id_eq, hg.accounts _ hok.creator_exists, by rw [hsym]; exact hok.by_symbol,
      by rw [hg.config]; exact hok.full⟩
  · rw [hsym] at hid
    obtain ⟨c, hc, hs⟩ := wf.symbols symbol id hid
    obtain ⟨c', hc', heq⟩ := hcol.symm.back hc
    exact ⟨c', hc', by rw [← hs, heq]⟩

theorem TokensWf.nfts_mono (wf : TokensWf db) (hg : Grows db db') (h : db'.nfts = db.nfts)
    (id : NftId) (n : NftObject) (hn : db'.nfts[id]? = some n) : NftOk db' id n := by
  rw [h] at hn
  exact (wf.nfts id n hn).mono hg

/-- A token is written, the others stay. -/
theorem TokensWf.nfts_insert (wf : TokensWf db) (hg : Grows db db') {i : NftId} {x : NftObject}
    (h : db'.nfts = db.nfts.insert i x) (hx : NftOk db' i x) (id : NftId) (n : NftObject)
    (hn : db'.nfts[id]? = some n) : NftOk db' id n := by
  rw [h, getElem?_insert_eq] at hn
  split at hn
  · next hid =>
      cases hn
      subst hid
      exact hx
  · exact (wf.nfts id n hn).mono hg

theorem TokensWf.operators_mono (wf : TokensWf db) (hg : Grows db db')
    (hcol : ∀ id, id ∈ db.collections → id ∈ db'.collections) (h : db'.operators = db.operators)
    (key : OperatorKey) (o : NftOperatorObject) (ho : db'.operators[key]? = some o) :
    OperatorOk db' key o := by
  rw [h] at ho
  exact (wf.operators key o ho).mono hg hcol

theorem TokensWf.of_same (wf : TokensWf db) (hg : Grows db db') (same : SameTokens db db') :
    TokensWf db' := by
  have hcol := SupplyOnly.of_eq same.collections
  exact wf.keep hg hcol same.collectionBySymbol (wf.nfts_mono hg same.nfts)
    (wf.operators_mono hg (fun _ => hcol.mem) same.operators)

theorem tokensWf_createCollection {op : NftCreateCollectionOperation} (wf : TokensWf db)
    (hfree : db.collections[db.nextCollectionId]? = none)
    (h : applyNftCreateCollection op db = .ok () db') : TokensWf db' := by
  obtain ⟨⟨hactive, -, hcreator, hsymbol⟩, rfl⟩ := applyNftCreateCollection_ok.mp h
  have hnew : db.collectionBySymbol[op.symbol]? = none := by
    rw [← not_mem_iff, ← ExtTreeMap.contains_iff_mem, hsymbol]
    exact Bool.false_ne_true
  have hgrow : ∀ id, id ∈ db.collections →
      id ∈ db.collections.insert db.nextCollectionId (newCollection db op) :=
    fun id hid => ExtTreeMap.mem_insert.mpr (.inr hid)
  refine ⟨fun id c hc => ?_, fun symbol id hid => ?_, fun id n hn => ?_, fun key o ho => ?_⟩
  · rw [getElem?_insert_eq] at hc
    split at hc
    · next hid =>
        cases hc
        subst hid
        exact ⟨rfl, hcreator, ExtTreeMap.getElem?_insert_self, hactive.full⟩
    · have hok := wf.collections id c hc
      have hne : op.symbol ≠ c.symbol := by
        intro heq
        have hold := hok.by_symbol
        rw [← heq, hnew] at hold
        cases hold
      exact ⟨hok.id_eq, hok.creator_exists, (getElem?_insert_ne hne).trans hok.by_symbol, hok.full⟩
  · rw [getElem?_insert_eq] at hid
    split at hid
    · next hsym =>
        cases hid
        exact ⟨_, ExtTreeMap.getElem?_insert_self, hsym.symm⟩
    · obtain ⟨c, hc, hs⟩ := wf.symbols symbol id hid
      have hne : db.nextCollectionId ≠ id := by
        intro heq
        rw [← heq, hfree] at hc
        cases hc
      exact ⟨c, (getElem?_insert_ne hne).trans hc, hs⟩
  · exact { wf.nfts id n hn with }
  · exact (wf.operators key o ho).mono ⟨fun _ hn => hn, rfl⟩ hgrow

theorem tokensWf_mint {op : NftMintOperation} (wf : TokensWf db) (hg : Grows db db')
    (h : applyNftMint op db = .ok () db') : TokensWf db' := by
  obtain ⟨col, guards, hdb⟩ := applyNftMint_ok.mp h
  have hcol : SupplyOnly db.collections db'.collections := by
    rw [hdb]
    exact SupplyOnly.insert guards.found _
  have hnft : NftOk db' db.nextNftId (newNft db op col) :=
    ⟨rfl, hg.accounts _ guards.dest_exists, fun ha => absurd rfl ha⟩
  exact wf.keep hg hcol (by rw [hdb]) (wf.nfts_insert hg (by rw [hdb]) hnft)
    (wf.operators_mono hg (fun _ => hcol.mem) (by rw [hdb]))

/-- A transfer and an approval write one token. -/
theorem TokensWf.write_nft (wf : TokensWf db) {i : NftId} {x : NftObject} (hg : Grows db db')
    (hcol : db'.collections = db.collections)
    (hsym : db'.collectionBySymbol = db.collectionBySymbol)
    (hnfts : db'.nfts = db.nfts.insert i x) (hops : db'.operators = db.operators)
    (hx : NftOk db' i x) : TokensWf db' := by
  have hsupply := SupplyOnly.of_eq hcol
  exact wf.keep hg hsupply hsym (wf.nfts_insert hg hnfts hx)
    (wf.operators_mono hg (fun _ => hsupply.mem) hops)

theorem tokensWf_transfer {op : NftTransferOperation} (wf : TokensWf db) (hg : Grows db db')
    (h : applyNftTransfer op db = .ok () db') : TokensWf db' := by
  obtain ⟨n, guards, hdb⟩ := applyNftTransfer_ok.mp h
  have hok := wf.nfts _ n guards.found
  refine wf.write_nft hg (by rw [hdb]) (by rw [hdb]) (by rw [hdb]) (by rw [hdb]) ?_
  exact ⟨hok.id_eq, hg.accounts _ guards.dest_exists, fun ha => absurd rfl ha⟩

theorem tokensWf_approve {op : NftApproveOperation} (wf : TokensWf db) (hg : Grows db db')
    (h : applyNftApprove op db = .ok () db') : TokensWf db' := by
  obtain ⟨n, guards, hdb⟩ := applyNftApprove_ok.mp h
  have hok := wf.nfts _ n guards.found
  refine wf.write_nft hg (by rw [hdb]) (by rw [hdb]) (by rw [hdb]) (by rw [hdb]) ?_
  exact ⟨hok.id_eq, hg.accounts _ hok.owner_exists,
    fun ha => hg.accounts _ (guards.approved_exists ha)⟩

theorem tokensWf_setOperator {op : NftSetApprovalForAllOperation} (wf : TokensWf db)
    (hg : Grows db db') (h : applyNftSetApprovalForAll op db = .ok () db') : TokensWf db' := by
  obtain ⟨guards, hdb⟩ := applyNftSetApprovalForAll_ok.mp h
  have hcol : SupplyOnly db.collections db'.collections := SupplyOnly.of_eq (by rw [hdb])
  refine wf.keep hg hcol (by rw [hdb]) (wf.nfts_mono hg (by rw [hdb])) fun key o ho => ?_
  have hops : db'.operators = setOperator db.operators op := by rw [hdb]
  rw [hops] at ho
  unfold setOperator at ho
  split at ho
  · rw [getElem?_erase_eq] at ho
    split at ho
    · cases ho
    · exact (wf.operators key o ho).mono hg fun _ => hcol.mem
  · rw [getElem?_insert_eq] at ho
    split at ho
    · next hkey =>
        cases ho
        refine ⟨hkey, rfl, hg.accounts _ guards.owner_exists,
          hg.accounts _ guards.operator_exists, ?_⟩
        by_cases hzero : op.collection = 0
        · exact .inl hzero
        · exact .inr (hcol.mem (ExtTreeMap.contains_iff_mem.mp (guards.collection_exists hzero)))
    · exact (wf.operators key o ho).mono hg fun _ => hcol.mem

theorem tokensWf_burn {op : NftBurnOperation} (wf : TokensWf db) (hg : Grows db db')
    (h : applyNftBurn op db = .ok () db') : TokensWf db' := by
  obtain ⟨n, guards, hdb⟩ := applyNftBurn_ok.mp h
  have hcol : SupplyOnly db.collections db'.collections := by
    rw [hdb]
    exact SupplyOnly.decrement n.collection
  refine wf.keep hg hcol (by rw [hdb]) (fun id m hm => ?_)
    (wf.operators_mono hg (fun _ => hcol.mem) (by rw [hdb]))
  have hnfts : db'.nfts = db.nfts.erase op.nftId := by rw [hdb]
  rw [hnfts, getElem?_erase_eq] at hm
  split at hm
  · cases hm
  · exact (wf.nfts id m hm).mono hg

theorem tokensWf_step (s : Step) (wf : TokensWf db)
    (hfree : db.collections[db.nextCollectionId]? = none) : TokensWf (exec s db).2 := by
  have hg := grows_step db s
  cases event_cases db s with
  | inr hfail =>
      obtain ⟨x, -, hfail⟩ := hfail
      exact wf.of_same hg (program_error_tokens hfail)
  | inl hok =>
      obtain ⟨-, hok⟩ := hok
      cases s with
      | createAccount name hive hbd =>
          refine wf.of_same hg ?_
          show SameTokens db (Machine.event exec db (.createAccount name hive hbd)).after
          rw [(createAccount_ok.mp hok).2]
          exact ⟨rfl, rfl, rfl, rfl, rfl, rfl⟩
      | setHeadTime t => exact wf.of_same hg ⟨rfl, rfl, rfl, rfl, rfl, rfl⟩
      | apply op =>
          have hframe : Framed op db _ := apply_frame hok
          cases op with
          | nftCreateCollection op => exact tokensWf_createCollection wf hfree hok
          | nftMint op => exact tokensWf_mint wf hg hok
          | nftTransfer op => exact tokensWf_transfer wf hg hok
          | nftApprove op => exact tokensWf_approve wf hg hok
          | nftSetApprovalForAll op => exact tokensWf_setOperator wf hg hok
          | nftBurn op => exact tokensWf_burn wf hg hok
          | _ => exact wf.of_same hg (hframe.tokens fun h => by cases h)

/-! ## Locks -/

/-- The expiration of a lock is between the least and the greatest duration after
its creation. -/
structure HtlcObject.InTime (h : HtlcObject) : Prop where
  not_soon : h.created.toNat + htlcMinDurationSec ≤ h.expiration.toNat
  not_far : (h.expiration.toNat : Int) ≤ h.created.toNat + htlcMaxDurationSec

structure LocksWf (tr : List Event) (db : Database) : Prop where
  locks : ∀ (id : HtlcId) (h : HtlcObject), db.htlcs[id]? = some h → LockWf db id h ∧ h.InTime
  allocated : Allocated db.nextHtlcId db.htlcs (created Step.isHtlcCreate tr)

/-- A lock is written, the others stay. -/
theorem LocksWf.insert (wf : LocksWf tr db) (hg : Grows db db') {i : HtlcId} {x : HtlcObject}
    (h : db'.htlcs = db.htlcs.insert i x) (hx : LockWf db' i x ∧ x.InTime) (id : HtlcId)
    (y : HtlcObject) (hy : db'.htlcs[id]? = some y) : LockWf db' id y ∧ y.InTime := by
  rw [h, getElem?_insert_eq] at hy
  split at hy
  · next hid =>
      cases hy
      subst hid
      exact hx
  · exact ⟨(wf.locks id y hy).1.mono hg.accounts, (wf.locks id y hy).2⟩

theorem LocksWf.settle (wf : LocksWf tr e.before) (hg : Grows e.before e.after)
    (quiet : e.label.isHtlcCreate = false) {id : HtlcId} {h : HtlcObject} {status : HtlcStatus}
    (found : e.before.htlcs[id]? = some h)
    (htlcs : e.after.htlcs = e.before.htlcs.insert id { h with status := status })
    (next : e.after.nextHtlcId = e.before.nextHtlcId) : LocksWf (e :: tr) e.after := by
  obtain ⟨hlock, htime⟩ := wf.locks id h found
  refine ⟨wf.insert hg htlcs ⟨{ hlock.mono hg.accounts with }, { htime with }⟩, ?_⟩
  rw [next, htlcs, created_of_quiet tr fun _ => quiet]
  exact wf.allocated.update found _

theorem locksWf_step (s : Step) (wf : LocksWf tr db)
    (hcount : created Step.isHtlcCreate (Machine.event exec db s :: tr) < 2 ^ 64 - 1) :
    LocksWf (Machine.event exec db s :: tr) (exec s db).2 := by
  have hg := grows_step db s
  have keep : (exec s db).2.htlcs = db.htlcs → (exec s db).2.nextHtlcId = db.nextHtlcId →
      (Succeeded (Machine.event exec db s) → s.isHtlcCreate = false) →
      LocksWf (Machine.event exec db s :: tr) (exec s db).2 := by
    intro htlcs next quiet
    refine ⟨fun id h hh => ?_, ?_⟩
    · rw [htlcs] at hh
      exact ⟨(wf.locks id h hh).1.mono hg.accounts, (wf.locks id h hh).2⟩
    · rw [next, htlcs, created_of_quiet tr quiet]
      exact wf.allocated
  cases fundsMove db s with
  | idle same quiet => exact keep same.htlcs same.next fun hs => (quiet hs).1
  | account done label valid balances htlcs next =>
      exact keep htlcs next fun _ => congrArg Step.isHtlcCreate label
  | redeem done label guards balances htlcs next =>
      exact wf.settle hg (congrArg Step.isHtlcCreate label) guards.found htlcs next
  | refund done label guards balances htlcs next =>
      exact wf.settle hg (congrArg Step.isHtlcCreate label) guards.found htlcs next
  | @lock op b done label guards balances htlcs next =>
      have hkind := created_of_kind tr done (congrArg Step.isHtlcCreate label)
      rw [hkind] at hcount
      have htime : (newHtlc db op).InTime := ⟨guards.valid.not_soon, guards.valid.not_far⟩
      refine ⟨wf.insert hg htlcs ⟨lockWf_new guards hg.accounts, htime⟩, ?_⟩
      · rw [hkind]
        show Allocated (Machine.event exec db s).after.nextHtlcId
          (Machine.event exec db s).after.htlcs _
        rw [next, htlcs]
        exact wf.allocated.insert (by omega) _

/-! ## Contracts -/

/-- What an event can do to the contracts. -/
inductive ContractsMove (e : Event) : Prop where
  | idle (same : SameContracts e.before e.after)
      (quiet : Succeeded e → e.label.isContractDeploy = false)
  | deploy {op : ContractDeployOperation} (done : Succeeded e)
      (label : e.label = .apply (.contractDeploy op)) (guards : Deployable e.before op)
      (contracts : e.after.contracts =
        e.before.contracts.insert e.before.nextContractId (newContract e.before op))
      (contractStorage : e.after.contractStorage =
        e.before.contractStorage.insert e.before.nextContractId ∅)
      (next : e.after.nextContractId = e.before.nextContractId + 1)
  | call {op : ContractCallOperation} {c : ContractObject} {storage : Contracts.Storage}
      (done : Succeeded e) (label : e.label = .apply (.contractCall op))
      (guards : Callable e.before op c) (contracts : e.after.contracts = e.before.contracts)
      (contractStorage : e.after.contractStorage =
        e.before.contractStorage.insert op.contractId storage)
      (next : e.after.nextContractId = e.before.nextContractId)

theorem contractsMove (s : Step) (hs : HasStorage db) :
    ContractsMove (Machine.event exec db s) := by
  cases event_cases db s with
  | inr hfail =>
      obtain ⟨x, ho, hfail⟩ := hfail
      refine .idle (program_error_same hs hfail).contracts fun hs => ?_
      rw [Succeeded, ho] at hs
      cases hs
  | inl hok =>
      obtain ⟨hdone, hok⟩ := hok
      cases s with
      | createAccount name hive hbd =>
          obtain ⟨-, hdb⟩ := createAccount_ok.mp hok
          exact .idle (by rw [hdb]; exact ⟨rfl, rfl, rfl⟩) fun _ => rfl
      | setHeadTime t =>
          have hdb := (modify_ok.mp hok).symm
          exact .idle (by rw [hdb]; exact ⟨rfl, rfl, rfl⟩) fun _ => rfl
      | apply op =>
          have hframe : Framed op db _ := apply_frame hok
          cases op with
          | contractDeploy op =>
              obtain ⟨hg, hdb⟩ := applyContractDeploy_ok.mp hok
              exact .deploy hdone rfl hg (by rw [hdb]; rfl) (by rw [hdb]; rfl) (by rw [hdb]; rfl)
          | contractCall op =>
              obtain ⟨c, res, hg, -, -, hdb⟩ := applyContractCall_ok.mp hok
              exact .call hdone rfl hg (by rw [hdb]; rfl) (by rw [hdb]; rfl) (by rw [hdb]; rfl)
          | _ => exact .idle (hframe.contracts fun h => by cases h) fun _ => rfl

/-- What a stored contract satisfies. -/
structure ContractOk (db : Database) (id : ContractId) (c : ContractObject) : Prop where
  id_eq : c.id = id
  owner_exists : db.accountExists c.owner = true
  code_nonempty : c.code ≠ []
  code_short : c.code.length ≤ maxCodeBytes
  code_hash : sha256 c.code = c.codeHash

structure ContractsWf (tr : List Event) (db : Database) : Prop where
  contracts : ∀ (id : ContractId) (c : ContractObject), db.contracts[id]? = some c →
    ContractOk db id c
  storage : ∀ id : ContractId, id ∈ db.contractStorage ↔ id ∈ db.contracts
  allocated : Allocated db.nextContractId db.contracts (created Step.isContractDeploy tr)

theorem ContractOk.mono {id : ContractId} {c : ContractObject} (h : ContractOk db id c)
    (hg : Grows db db') : ContractOk db' id c :=
  { h with owner_exists := hg.accounts _ h.owner_exists }

theorem ContractsWf.hasStorage (wf : ContractsWf tr db) : HasStorage db := fun id c hc =>
  mem_iff_exists.mp ((wf.storage id).mpr (mem_iff_exists.mpr ⟨c, hc⟩))

theorem contractsWf_step (s : Step) (wf : ContractsWf tr db)
    (hcount : created Step.isContractDeploy (Machine.event exec db s :: tr) < 2 ^ 64 - 1) :
    ContractsWf (Machine.event exec db s :: tr) (Machine.event exec db s).after := by
  have hg : Grows db (Machine.event exec db s).after := grows_step db s
  have keep : (Machine.event exec db s).after.contracts = db.contracts →
      ∀ (id : ContractId) (c : ContractObject),
        (Machine.event exec db s).after.contracts[id]? = some c →
          ContractOk (Machine.event exec db s).after id c := by
    intro heq id c hc
    rw [heq] at hc
    exact (wf.contracts id c hc).mono hg
  cases contractsMove s wf.hasStorage with
  | idle same quiet =>
      refine ⟨keep same.contracts, fun id => ?_, ?_⟩
      · rw [same.contracts, same.contractStorage]
        exact wf.storage id
      · rw [same.next, same.contracts, created_of_quiet tr quiet]
        exact wf.allocated
  | call done label guards contracts contractStorage next =>
      refine ⟨keep contracts, fun id => ?_, ?_⟩
      · rw [contracts, contractStorage, ExtTreeMap.mem_insert, Std.LawfulEqCmp.compare_eq_iff_eq]
        have hmem := mem_iff_exists.mpr ⟨_, guards.found⟩
        constructor
        · intro h
          cases h with
          | inl h => exact h ▸ hmem
          | inr h => exact (wf.storage id).mp h
        · intro h
          exact .inr ((wf.storage id).mpr h)
      · rw [next, contracts, created_of_quiet tr fun _ => congrArg Step.isContractDeploy label]
        exact wf.allocated
  | @deploy op done label guards contracts contractStorage next =>
      have hkind := created_of_kind tr done (congrArg Step.isContractDeploy label)
      rw [hkind] at hcount
      refine ⟨fun id c hc => ?_, fun id => ?_, ?_⟩
      · rw [contracts, getElem?_insert_eq] at hc
        split at hc
        · next hid =>
            cases hc
            exact ⟨hid.symm, hg.accounts _ guards.owner_exists, guards.valid.code_nonempty,
              guards.valid.code_short, rfl⟩
        · exact (wf.contracts id c hc).mono hg
      · rw [contracts, contractStorage, ExtTreeMap.mem_insert, ExtTreeMap.mem_insert]
        exact or_congr_right (wf.storage id)
      · rw [next, contracts, hkind]
        exact wf.allocated.insert (by omega) _

/-- The contracts need the bound on their own counter only. -/
theorem contractsWf_run (config : NodeConfig) (steps : List Step)
    (h : created Step.isContractDeploy (trace config steps) < 2 ^ 64 - 1) :
    ContractsWf (trace config steps) (final config steps) := by
  refine Machine.invariant_of (fun tr => created Step.isContractDeploy tr < 2 ^ 64 - 1) ContractsWf
    (fun e tr hlt => lt_of_le_of_lt (created_le_cons _ e tr) hlt) ⟨?_, ?_, Allocated.start⟩
    (fun _ _ s hc wf => contractsWf_step s wf hc) steps h
  all_goals simp [Database.empty]

/-! ## Whole runs -/

/-- The runs in which no counter wraps. -/
structure Counted (tr : List Event) : Prop extends Minted tr where
  locks : created Step.isHtlcCreate tr < 2 ^ 64 - 1
  contracts : created Step.isContractDeploy tr < 2 ^ 64 - 1

theorem Counted.tail (h : Counted (e :: tr)) : Counted tr :=
  { h.toMinted.tail with
    locks := lt_of_le_of_lt (created_le_cons _ e tr) h.locks
    contracts := lt_of_le_of_lt (created_le_cons _ e tr) h.contracts }

/-- The invariants of the three parts together. -/
structure RunWf (tr : List Event) (db : Database) : Prop where
  tokens : TokensWf db
  counts : TokensInv tr db
  locks : LocksWf tr db
  contracts : ContractsWf tr db

theorem runWf_empty (config : NodeConfig) : RunWf [] (.empty config) := by
  refine ⟨⟨?_, ?_, ?_, ?_⟩, tokensInv_empty config, ⟨?_, Allocated.start⟩,
    ⟨?_, ?_, Allocated.start⟩⟩
  all_goals simp [Database.empty]

theorem runWf_step (db : Database) (s : Step) (hc : Counted (Machine.event exec db s :: tr))
    (wf : RunWf tr db) : RunWf (Machine.event exec db s :: tr) (exec s db).2 :=
  ⟨tokensWf_step s wf.tokens wf.counts.collections_allocated.fresh,
    tokensInv_step db s hc.toMinted wf.counts, locksWf_step s wf.locks hc.locks,
    contractsWf_step s wf.contracts hc.contracts⟩

theorem runWf_run (config : NodeConfig) (steps : List Step) (h : Counted (trace config steps)) :
    RunWf (trace config steps) (final config steps) :=
  Machine.invariant_of Counted RunWf (fun _ _ => Counted.tail) (runWf_empty config)
    (fun _ db s hc wf => runWf_step db s hc wf) steps h

/-- The state before an event of a run satisfies the invariants. -/
theorem runWf_before (config : NodeConfig) (steps : List Step) (h : Counted (trace config steps))
    (he : e ∈ trace config steps) :
    ∃ tr, RunWf tr e.before ∧ Counted (e :: tr) ∧ e = Machine.event exec e.before e.label :=
  Machine.invariant_before Counted RunWf (fun _ _ => Counted.tail) (runWf_empty config)
    (fun _ db s hc wf => runWf_step db s hc wf) steps h he

/-! ## Ids are assigned once -/

section HandsOut

variable {V : Type} (table : Database → ExtTreeMap UInt64 V) (next : Database → UInt64)

/-- The event puts a new key into the table. -/
def Assigns (e : Event) (id : UInt64) : Prop := id ∉ table e.before ∧ id ∈ table e.after

/-- No key is put into the table by two events. -/
def AssignedOnce (tr : List Event) : Prop :=
  tr.Pairwise fun later earlier => ∀ id, Assigns table earlier id → ¬ Assigns table later id

/-- The counter does not go back, and a new key is the one it offered. -/
structure HandsOut (e : Event) : Prop where
  mono : next e.before ≤ next e.after
  new : ∀ id, id ∈ table e.after →
    id ∈ table e.before ∨ id = next e.before ∧ next e.before < next e.after

variable {table next}

theorem HandsOut.of_subset (hnext : next e.after = next e.before)
    (h : ∀ id, id ∈ table e.after → id ∈ table e.before) : HandsOut table next e :=
  ⟨UInt64.le_of_eq hnext.symm, fun id hid => .inl (h id hid)⟩

theorem HandsOut.insert {v : V} (hnext : next e.after = next e.before + 1)
    (hlt : next e.before < next e.before + 1)
    (h : table e.after = (table e.before).insert (next e.before) v) : HandsOut table next e := by
  rw [← hnext] at hlt
  refine ⟨UInt64.le_of_lt hlt, fun id hid => ?_⟩
  rw [h, ExtTreeMap.mem_insert, Std.LawfulEqCmp.compare_eq_iff_eq] at hid
  cases hid with
  | inl heq => exact .inr ⟨heq.symm, hlt⟩
  | inr hmem => exact .inl hmem

theorem HandsOut.assigns (h : HandsOut table next e) {id : UInt64} (ha : Assigns table e id) :
    id = next e.before ∧ id < next e.after := by
  cases h.new id ha.2 with
  | inl hmem => exact absurd hmem ha.1
  | inr hnew => exact ⟨hnew.1, hnew.1 ▸ hnew.2⟩

theorem assignedOnce_run {config : NodeConfig} {steps : List Step}
    (h : ∀ e ∈ trace config steps, HandsOut table next e) :
    AssignedOnce table (trace config steps) := by
  have hboth : (∀ e ∈ trace config steps, next e.after ≤ next (final config steps)) ∧
      AssignedOnce table (trace config steps) := by
    induction steps with
    | nil => exact ⟨List.forall_mem_nil _, List.Pairwise.nil⟩
    | cons s steps ih =>
        obtain ⟨hbound, honce⟩ := ih fun e he => h e (List.mem_cons_of_mem _ he)
        have hlast := h _ List.mem_cons_self
        refine ⟨List.forall_mem_cons.mpr ⟨UInt64.le_refl _, fun e he => ?_⟩,
          List.pairwise_cons.mpr ⟨fun e he id hearly hlate => ?_, honce⟩⟩
        · exact UInt64.le_trans (hbound e he) hlast.mono
        · -- the counter has passed the id since
          obtain ⟨-, hlt⟩ := (h e (List.mem_cons_of_mem _ he)).assigns hearly
          obtain ⟨heq, -⟩ := hlast.assigns hlate
          have hle := hbound e he
          rw [heq] at hlt
          exact absurd (UInt64.lt_of_lt_of_le hlt hle) (UInt64.lt_irrefl _)
  exact hboth.2

/-- A table of a well-formed run whose events all hand out ids by the counter. -/
theorem RunWf.assignedOnce {config : NodeConfig} {steps : List Step}
    (hcounted : Counted (trace config steps))
    (h : ∀ (tr : List Event) (db : Database) (s : Step), Counted (Machine.event exec db s :: tr) →
      RunWf tr db → HandsOut table next (Machine.event exec db s)) :
    AssignedOnce table (trace config steps) := by
  have hout : ∀ e ∈ trace config steps, HandsOut table next e := by
    intro e he
    obtain ⟨tr, wf, hc, heq⟩ := runWf_before config steps hcounted he
    rw [heq] at hc ⊢
    exact h tr e.before e.label hc wf
  exact assignedOnce_run hout

end HandsOut

theorem collections_handedOut (s : Step) (hc : Counted (Machine.event exec db s :: tr))
    (wf : RunWf tr db) : HandsOut Database.collections Database.nextCollectionId
      (Machine.event exec db s) := by
  have supplies : ∀ {m : ExtTreeMap CollectionId NftCollectionObject},
      (Machine.event exec db s).after.collections = m → SupplyOnly db.collections m →
      (Machine.event exec db s).after.nextCollectionId = db.nextCollectionId →
      HandsOut Database.collections Database.nextCollectionId (Machine.event exec db s) := by
    intro m heq hsupply hnext
    exact .of_subset hnext fun id hid => hsupply.symm.mem (heq ▸ hid)
  cases tokenMove db s with
  | idle same quiet => exact supplies same.collections (.of_eq rfl) same.nextCollection
  | createCollection done label _ _ collections _ nfts operators nextCollection nextNft =>
      have hcount := hc.collections
      rw [created_of_kind tr done (congrArg Step.isNftCreateCollection label)] at hcount
      exact .insert nextCollection (wf.counts.collections_allocated.lt_succ (by omega)) collections
  | mint done label guards collections nfts operators nextCollection nextNft =>
      exact supplies collections (.insert guards.found _) nextCollection
  | transfer done label guards collections nfts operators nextCollection nextNft =>
      exact supplies collections (.of_eq rfl) nextCollection
  | approve done label guards collections nfts operators nextCollection nextNft =>
      exact supplies collections (.of_eq rfl) nextCollection
  | setOperator done label guards collections nfts operators nextCollection nextNft =>
      exact supplies collections (.of_eq rfl) nextCollection
  | burn done label guards collections nfts operators nextCollection nextNft =>
      exact supplies collections (.decrement _) nextCollection

/-- Writing at a key the table has adds no key. -/
theorem mem_of_mem_insert {V : Type} {m : ExtTreeMap UInt64 V} {k id : UInt64} {v w : V}
    (hk : m[k]? = some w) (h : id ∈ m.insert k v) : id ∈ m := by
  rw [ExtTreeMap.mem_insert, Std.LawfulEqCmp.compare_eq_iff_eq] at h
  cases h with
  | inl heq => exact heq ▸ mem_iff_exists.mpr ⟨w, hk⟩
  | inr hmem => exact hmem

theorem nfts_handedOut (s : Step) (hc : Counted (Machine.event exec db s :: tr))
    (wf : RunWf tr db) : HandsOut Database.nfts Database.nextNftId (Machine.event exec db s) := by
  cases tokenMove db s with
  | idle same quiet => exact .of_subset same.nextNft fun id hid => same.nfts ▸ hid
  | createCollection done label _ _ collections _ nfts operators nextCollection nextNft =>
      exact .of_subset nextNft fun id hid => nfts ▸ hid
  | mint done label guards collections nfts operators nextCollection nextNft =>
      have hcount := hc.nfts
      rw [created_of_kind tr done (congrArg Step.isNftMint label)] at hcount
      exact .insert nextNft (wf.counts.nfts_allocated.lt_succ (by omega)) nfts
  | transfer done label guards collections nfts operators nextCollection nextNft =>
      exact .of_subset nextNft fun id hid => mem_of_mem_insert guards.found (nfts ▸ hid)
  | approve done label guards collections nfts operators nextCollection nextNft =>
      exact .of_subset nextNft fun id hid => mem_of_mem_insert guards.found (nfts ▸ hid)
  | setOperator done label guards collections nfts operators nextCollection nextNft =>
      exact .of_subset nextNft fun id hid => nfts ▸ hid
  | burn done label guards collections nfts operators nextCollection nextNft =>
      exact .of_subset nextNft fun id hid => ExtTreeMap.mem_of_mem_erase (nfts ▸ hid)

theorem htlcs_handedOut (s : Step) (hc : Counted (Machine.event exec db s :: tr))
    (wf : RunWf tr db) : HandsOut Database.htlcs Database.nextHtlcId (Machine.event exec db s) := by
  cases fundsMove db s with
  | idle same quiet => exact .of_subset same.next fun id hid => same.htlcs ▸ hid
  | account done label valid balances htlcs next =>
      exact .of_subset next fun id hid => htlcs ▸ hid
  | lock done label guards balances htlcs next =>
      have hcount := hc.locks
      rw [created_of_kind tr done (congrArg Step.isHtlcCreate label)] at hcount
      exact .insert next (wf.locks.allocated.lt_succ (by omega)) htlcs
  | redeem done label guards balances htlcs next =>
      exact .of_subset next fun id hid => mem_of_mem_insert guards.found (htlcs ▸ hid)
  | refund done label guards balances htlcs next =>
      exact .of_subset next fun id hid => mem_of_mem_insert guards.found (htlcs ▸ hid)

theorem contracts_handedOut (s : Step) (hc : Counted (Machine.event exec db s :: tr))
    (wf : RunWf tr db) :
    HandsOut Database.contracts Database.nextContractId (Machine.event exec db s) := by
  cases contractsMove s wf.contracts.hasStorage with
  | idle same quiet => exact .of_subset same.next fun id hid => same.contracts ▸ hid
  | deploy done label guards contracts contractStorage next =>
      have hcount := hc.contracts
      rw [created_of_kind tr done (congrArg Step.isContractDeploy label)] at hcount
      exact .insert next (wf.contracts.allocated.lt_succ (by omega)) contracts
  | call done label guards contracts contractStorage next =>
      exact .of_subset next fun id hid => contracts ▸ hid

/-! ## Main result -/

/-- Every key is the id of its object, is not zero and was handed out. -/
def Keyed {V : Type} (id : V → UInt64) (next : UInt64) (m : ExtTreeMap UInt64 V) : Prop :=
  ∀ (k : UInt64) (v : V), m[k]? = some v → id v = k ∧ k ≠ 0 ∧ k < next

/-- The tables of the database fit together. -/
structure WellFormed (db : Database) : Prop where
  collections_keyed : Keyed NftCollectionObject.id db.nextCollectionId db.collections
  nfts_keyed : Keyed NftObject.id db.nextNftId db.nfts
  htlcs_keyed : Keyed HtlcObject.id db.nextHtlcId db.htlcs
  contracts_keyed : Keyed ContractObject.id db.nextContractId db.contracts
  /-- The two tables of collections are inverse to each other. -/
  symbols_inverse : ∀ (symbol : Bytes) (id : CollectionId),
    db.collectionBySymbol[symbol]? = some id ↔
      ∃ c, db.collections[id]? = some c ∧ c.symbol = symbol
  symbols_unique : ∀ (id id' : CollectionId) (c c' : NftCollectionObject),
    db.collections[id]? = some c → db.collections[id']? = some c' → c.symbol = c'.symbol → id = id'
  /-- A query by symbol finds the collection with that symbol. -/
  found_by_symbol : ∀ (symbol : Bytes) (c : NftCollectionObject),
    Api.getNftCollectionBySymbol db symbol = some c ↔
      c.symbol = symbol ∧ ∃ id : CollectionId, db.collections[id]? = some c
  creators_exist : ∀ (id : CollectionId) (c : NftCollectionObject), db.collections[id]? = some c →
    db.accountExists c.creator = true
  nfts_ok : ∀ (id : NftId) (n : NftObject), db.nfts[id]? = some n → NftOk db id n
  operators_ok : ∀ (key : OperatorKey) (o : NftOperatorObject), db.operators[key]? = some o →
    OperatorOk db key o
  locks_ok : ∀ (id : HtlcId) (h : HtlcObject), db.htlcs[id]? = some h → LockWf db id h ∧ h.InTime
  contracts_ok : ∀ (id : ContractId) (c : ContractObject), db.contracts[id]? = some c →
    ContractOk db id c
  storage_keys : ∀ id : ContractId, id ∈ db.contractStorage ↔ id ∈ db.contracts

theorem keyed_of {V : Type} {id : V → UInt64} {next : UInt64} {m : ExtTreeMap UInt64 V} {n : ℕ}
    (hid : ∀ (k : UInt64) (v : V), m[k]? = some v → id v = k) (h : Allocated next m n) :
    Keyed id next m := fun k v hk => ⟨hid k v hk, h.below k v hk⟩

theorem TokensWf.symbols_iff (wf : TokensWf db) (symbol : Bytes) (id : CollectionId) :
    db.collectionBySymbol[symbol]? = some id ↔
      ∃ c, db.collections[id]? = some c ∧ c.symbol = symbol := by
  constructor
  · exact wf.symbols symbol id
  · intro h
    obtain ⟨c, hc, hs⟩ := h
    rw [← hs]
    exact (wf.collections id c hc).by_symbol

theorem TokensWf.found_iff (wf : TokensWf db) (symbol : Bytes) (c : NftCollectionObject) :
    Api.getNftCollectionBySymbol db symbol = some c ↔
      c.symbol = symbol ∧ ∃ id : CollectionId, db.collections[id]? = some c := by
  unfold Api.getNftCollectionBySymbol
  constructor
  · intro h
    split at h
    · cases h
    · split at h
      · cases h
      · next id hid =>
          obtain ⟨x, hx, hs⟩ := wf.symbols symbol id hid
          rw [h] at hx
          cases hx
          exact ⟨hs, id, h⟩
  · intro h
    obtain ⟨hs, id, hc⟩ := h
    have hok := wf.collections id c hc
    have hid := hok.by_symbol
    rw [hs] at hid
    rw [hok.full, hid]
    exact hc

theorem RunWf.wellFormed (wf : RunWf tr db) : WellFormed db where
  collections_keyed :=
    keyed_of (fun k c hc => (wf.tokens.collections k c hc).id_eq) wf.counts.collections_allocated
  nfts_keyed := keyed_of (fun k n hn => (wf.tokens.nfts k n hn).id_eq) wf.counts.nfts_allocated
  htlcs_keyed := keyed_of (fun k h hh => (wf.locks.locks k h hh).1.id_eq) wf.locks.allocated
  contracts_keyed :=
    keyed_of (fun k c hc => (wf.contracts.contracts k c hc).id_eq) wf.contracts.allocated
  symbols_inverse := wf.tokens.symbols_iff
  symbols_unique := by
    intro id id' c c' hc hc' hs
    have hid := (wf.tokens.collections id c hc).by_symbol
    rw [hs, (wf.tokens.collections id' c' hc').by_symbol] at hid
    exact (Option.some.inj hid).symm
  found_by_symbol := wf.tokens.found_iff
  creators_exist := fun id c hc => (wf.tokens.collections id c hc).creator_exists
  nfts_ok := wf.tokens.nfts
  operators_ok := wf.tokens.operators
  locks_ok := wf.locks.locks
  contracts_ok := wf.contracts.contracts
  storage_keys := wf.contracts.storage

/-- Every reachable database is well-formed, and no run assigns an id of a
collection, a token, a lock or a contract twice. -/
theorem reachable_wellFormed (config : NodeConfig) (steps : List Step)
    (hcounted : Counted (trace config steps)) :
    WellFormed (final config steps) ∧
      AssignedOnce Database.collections (trace config steps) ∧
      AssignedOnce Database.nfts (trace config steps) ∧
      AssignedOnce Database.htlcs (trace config steps) ∧
      AssignedOnce Database.contracts (trace config steps) := by
  refine ⟨(runWf_run config steps hcounted).wellFormed, ?_, ?_, ?_, ?_⟩
  · exact RunWf.assignedOnce hcounted fun _ _ s hc wf => collections_handedOut s hc wf
  · exact RunWf.assignedOnce hcounted fun _ _ s hc wf => nfts_handedOut s hc wf
  · exact RunWf.assignedOnce hcounted fun _ _ s hc wf => htlcs_handedOut s hc wf
  · exact RunWf.assignedOnce hcounted fun _ _ s hc wf => contracts_handedOut s hc wf

/-- In `burnRun` the third token gets an id of its own although the first is
burned. -/
theorem reachable_wellFormed_burnRun :
    Counted (trace {} burnRun) ∧
      (final {} burnRun).nfts.keys = [2, 3] ∧ WellFormed (final {} burnRun) := by
  have hcounted : Counted (trace {} burnRun) :=
    ⟨⟨by decide +kernel, by decide +kernel⟩, by decide +kernel, by decide +kernel⟩
  exact ⟨hcounted, by decide +kernel, (reachable_wellFormed {} burnRun hcounted).1⟩

end HiveNative.Chain
