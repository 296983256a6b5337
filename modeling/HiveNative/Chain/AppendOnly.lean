import HiveNative.Chain.Settlement
import HiveNative.Chain.StorageLog

/-!
# What a run never takes back

`Extends` orders the databases of a run.  A later database has every account, collection,
symbol, lock, contract and stored key of an earlier one, the collections, the locks and
the contracts on the terms they were made with.  A token may be burned, and then it never
comes back: of the ids that were handed out by the earlier moment, the later database
has no token that the earlier one had not, and none with other minting data.

The order is reflexive and transitive, every step of a run goes up in it, and so does
every stretch of a run (`run_extends`).
-/

namespace HiveNative.Chain

open Std (ExtTreeMap)
open EState OrderedMap Contracts

variable {tr : List Event} {e : Event} {db db' d : Database}

/-- What a token owes to its mint. -/
def NftObject.minting (n : NftObject) : NftObject := { n with owner := [], approved := [] }

/-- The tokens of the later database were there, with the same minting data, unless their
ids were handed out since. -/
def KeepsTokens (db db' : Database) : Prop :=
  ∀ (id : NftId) (n' : NftObject), db'.nfts[id]? = some n' → id < db.nextNftId →
    ∃ n, db.nfts[id]? = some n ∧ n'.minting = n.minting

/-- Every collection is there, on its terms. -/
def KeepsCollections (db db' : Database) : Prop :=
  ∀ (id : CollectionId) (c : NftCollectionObject), db.collections[id]? = some c →
    ∃ c', db'.collections[id]? = some c' ∧ c'.terms = c.terms

/-- Every lock is there, on its terms, and settled if it was. -/
def KeepsLocks (db db' : Database) : Prop :=
  ∀ (id : HtlcId) (h : HtlcObject), db.htlcs[id]? = some h →
    ∃ h', db'.htlcs[id]? = some h' ∧ Continues h h'

structure Extends (db db' : Database) : Prop where
  accounts : ∀ name, db.accountExists name = true → db'.accountExists name = true
  collections : KeepsCollections db db'
  symbols : ∀ (symbol : Bytes) (id : CollectionId), db.collectionBySymbol[symbol]? = some id →
    db'.collectionBySymbol[symbol]? = some id
  tokens : KeepsTokens db db'
  handed_out : db.nextNftId ≤ db'.nextNftId
  locks : KeepsLocks db db'
  contracts : ∀ (id : ContractId) (c : ContractObject), db.contracts[id]? = some c →
    db'.contracts[id]? = some c
  keys : ∀ (id : ContractId) (key v : Bytes), db.storedValue id key = some v →
    ∃ v', db'.storedValue id key = some v'

/-! ## The order -/

theorem Extends.refl (db : Database) : Extends db db where
  accounts := fun _ h => h
  collections := fun _ c hc => ⟨c, hc, rfl⟩
  symbols := fun _ _ h => h
  tokens := fun _ n hn _ => ⟨n, hn, rfl⟩
  handed_out := UInt64.le_refl _
  locks := fun _ h hh => ⟨h, hh, .refl h⟩
  contracts := fun _ _ h => h
  keys := fun _ _ v h => ⟨v, h⟩

theorem Extends.trans (h : Extends db db') (h' : Extends db' d) : Extends db d where
  accounts := fun name hname => h'.accounts name (h.accounts name hname)
  collections := fun id c hc => by
    obtain ⟨c', hc', hterms⟩ := h.collections id c hc
    obtain ⟨c'', hc'', hterms'⟩ := h'.collections id c' hc'
    exact ⟨c'', hc'', hterms'.trans hterms⟩
  symbols := fun symbol id hid => h'.symbols symbol id (h.symbols symbol id hid)
  tokens := fun id n'' hn'' hid => by
    obtain ⟨n', hn', hminting'⟩ := h'.tokens id n'' hn'' (UInt64.lt_of_lt_of_le hid h.handed_out)
    obtain ⟨n, hn, hminting⟩ := h.tokens id n' hn' hid
    exact ⟨n, hn, hminting'.trans hminting⟩
  handed_out := UInt64.le_trans h.handed_out h'.handed_out
  locks := fun id x hx => by
    obtain ⟨x', hx', hcont⟩ := h.locks id x hx
    obtain ⟨x'', hx'', hcont'⟩ := h'.locks id x' hx'
    exact ⟨x'', hx'', hcont.trans hcont'⟩
  contracts := fun id c hc => h'.contracts id c (h.contracts id c hc)
  keys := fun id key v hv => by
    obtain ⟨v', hv'⟩ := h.keys id key v hv
    exact h'.keys id key v' hv'

/-! ## Steps -/

theorem keepsCollections_of_supplyOnly (h : SupplyOnly db.collections db'.collections) :
    KeepsCollections db db' := by
  intro id c hc
  have hid := h id
  rw [hc, Option.map_some] at hid
  exact Option.map_eq_some_iff.mp hid

theorem keepsCollections_step (wf : TokensInv tr db) (s : Step) :
    KeepsCollections db (exec s db).2 := by
  have supplies : ∀ {m : ExtTreeMap CollectionId NftCollectionObject},
      (exec s db).2.collections = m → SupplyOnly db.collections m →
      KeepsCollections db (exec s db).2 := fun heq hsupply =>
    keepsCollections_of_supplyOnly (heq.symm ▸ hsupply)
  cases tokenMove db s with
  | idle same quiet => exact supplies same.collections (.of_eq rfl)
  | createCollection done label _ _ collections _ _ _ _ _ =>
      intro id c hc
      have hne : db.nextCollectionId ≠ id := by
        intro heq
        have hfresh := wf.collections_allocated.fresh
        rw [heq, hc] at hfresh
        cases hfresh
      exact ⟨c, (congrArg (·[id]?) collections).trans ((getElem?_insert_ne hne).trans hc), rfl⟩
  | mint done label guards collections _ _ _ _ =>
      exact supplies collections (.insert guards.found _)
  | transfer done label guards collections _ _ _ _ => exact supplies collections (.of_eq rfl)
  | approve done label guards collections _ _ _ _ => exact supplies collections (.of_eq rfl)
  | setOperator done label guards collections _ _ _ _ => exact supplies collections (.of_eq rfl)
  | burn done label guards collections _ _ _ _ => exact supplies collections (.decrement _)

/-- A token is written in place. -/
theorem keepsTokens_insert {i : NftId} {n n' : NftObject} (hn : db.nfts[i]? = some n)
    (hnfts : db'.nfts = db.nfts.insert i n') (hminting : n'.minting = n.minting) :
    KeepsTokens db db' := by
  intro id x hx _
  rw [hnfts, getElem?_insert_eq] at hx
  split at hx
  · next hid =>
      subst hid
      cases hx
      exact ⟨n, hn, hminting⟩
  · exact ⟨x, hx, rfl⟩

theorem keepsTokens_of_eq (hnfts : db'.nfts = db.nfts) : KeepsTokens db db' := by
  intro id x hx _
  exact ⟨x, hnfts ▸ hx, rfl⟩

theorem keepsTokens_step (s : Step) : KeepsTokens db (exec s db).2 := by
  cases tokenMove db s with
  | idle same quiet => exact keepsTokens_of_eq same.nfts
  | createCollection done label _ _ _ _ nfts _ _ _ => exact keepsTokens_of_eq nfts
  | setOperator done label guards _ nfts _ _ _ => exact keepsTokens_of_eq nfts
  | mint done label guards _ nfts _ _ _ =>
      intro id x hx hid
      have hne : db.nextNftId ≠ id := fun heq => UInt64.lt_irrefl _ (heq ▸ hid)
      exact ⟨x, ((congrArg (·[id]?) nfts).trans (getElem?_insert_ne hne)).symm.trans hx, rfl⟩
  | transfer done label guards _ nfts _ _ _ => exact keepsTokens_insert guards.found nfts rfl
  | approve done label guards _ nfts _ _ _ => exact keepsTokens_insert guards.found nfts rfl
  | burn done label guards _ nfts _ _ _ =>
      intro id x hx _
      have hx' := (congrArg (·[id]?) nfts).symm.trans hx
      simp only [getElem?_erase_eq] at hx'
      split at hx'
      · cases hx'
      · exact ⟨x, hx', rfl⟩

theorem keepsContracts_step (wf : ContractsWf tr db) (s : Step) (id : ContractId)
    (c : ContractObject) (hc : db.contracts[id]? = some c) :
    (exec s db).2.contracts[id]? = some c := by
  cases contractsMove s wf.hasStorage with
  | idle same quiet => exact (congrArg (·[id]?) same.contracts).trans hc
  | call done label guards contracts _ _ => exact (congrArg (·[id]?) contracts).trans hc
  | deploy done label guards contracts _ _ =>
      have hne : db.nextContractId ≠ id := by
        intro heq
        have hfresh := wf.allocated.fresh
        rw [heq, hc] at hfresh
        cases hfresh
      exact (congrArg (·[id]?) contracts).trans ((getElem?_insert_ne hne).trans hc)

/-- A stored value is there at the later moment, or another one was written over it. -/
theorem keepsKeys_step (wf : ContractsWf tr db) (hc : HasCode db) (s : Step) (id : ContractId)
    (key v : Bytes) (hv : db.storedValue id key = some v) :
    ∃ v', (exec s db).2.storedValue id key = some v' := by
  cases hwrite : writeTo id key (Machine.event exec db s) with
  | some w => exact ⟨w, write_of_writeTo hwrite⟩
  | none => exact ⟨v, (storedValue_of_not_write wf hc hwrite).trans hv⟩

/-- An open lock is settled in place. -/
theorem keepsLocks_settle {i : HtlcId} {x : HtlcObject} {status : HtlcStatus}
    (hx : db.htlcs[i]? = some x) (hopen : x.status = .open)
    (hhtlcs : db'.htlcs = db.htlcs.insert i { x with status := status }) : KeepsLocks db db' := by
  intro id h hh
  rw [hhtlcs, getElem?_insert_eq]
  split
  · next hid =>
      subst hid
      rw [hx] at hh
      cases hh
      exact ⟨_, rfl, .settle hopen status⟩
  · exact ⟨h, hh, .refl h⟩

theorem keepsLocks_of_eq (hhtlcs : db'.htlcs = db.htlcs) : KeepsLocks db db' := by
  intro id h hh
  exact ⟨h, by rw [hhtlcs, hh], .refl h⟩

theorem keepsLocks_step (wf : LocksWf tr db) (s : Step) : KeepsLocks db (exec s db).2 := by
  cases fundsMove db s with
  | idle same quiet => exact keepsLocks_of_eq same.htlcs
  | account done label valid balances htlcs next => exact keepsLocks_of_eq htlcs
  | lock done label guards balances htlcs next =>
      intro id h hh
      have hne : db.nextHtlcId ≠ id := by
        intro heq
        have hfresh := wf.allocated.fresh
        rw [heq, hh] at hfresh
        cases hfresh
      exact ⟨h, (congrArg (·[id]?) htlcs).trans ((getElem?_insert_ne hne).trans hh), .refl h⟩
  | redeem done label guards balances htlcs next =>
      exact keepsLocks_settle guards.found guards.still_open htlcs
  | refund done label guards balances htlcs next =>
      exact keepsLocks_settle guards.found guards.still_open htlcs

/-- A symbol stays with its collection, which keeps its terms. -/
theorem keepsSymbols (wf : TokensWf db) (wf' : TokensWf db') (h : KeepsCollections db db')
    (symbol : Bytes) (id : CollectionId) (hid : db.collectionBySymbol[symbol]? = some id) :
    db'.collectionBySymbol[symbol]? = some id := by
  obtain ⟨c, hc, rfl⟩ := wf.symbols symbol id hid
  obtain ⟨c', hc', hterms⟩ := h id c hc
  have hsymbol : c'.terms.symbol = c.terms.symbol := by rw [hterms]
  have hsymbol : c'.symbol = c.symbol := hsymbol
  rw [← hsymbol]
  exact (wf'.collections id c' hc').by_symbol

theorem extends_step (wf : RunWf tr db) (hc : HasCode db) (s : Step)
    (wf' : RunWf (Machine.event exec db s :: tr) (exec s db).2) :
    Extends db (exec s db).2 where
  accounts := (grows_step db s).accounts
  collections := keepsCollections_step wf.counts s
  symbols := keepsSymbols wf.tokens wf'.tokens (keepsCollections_step wf.counts s)
  tokens := keepsTokens_step s
  handed_out := by
    have hle := created_le_cons Step.isNftMint (Machine.event exec db s) tr
    rw [UInt64.le_iff_toNat_le, wf.counts.nfts_allocated.next_eq,
      wf'.counts.nfts_allocated.next_eq]
    omega
  locks := keepsLocks_step wf.locks s
  contracts := keepsContracts_step wf.contracts s
  keys := keepsKeys_step wf.contracts hc s

/-! ## Main result -/

/-- Every stretch of a run goes up in the order: what was there stays, on its terms, and
no token that was burned comes back. -/
theorem run_extends (config : NodeConfig) (past later : List Step)
    (hcounted : Counted (trace config (later ++ past))) :
    Extends (final config past) (final config (later ++ past)) := by
  induction later with
  | nil => exact .refl _
  | cons s later ih =>
      exact (ih hcounted.tail).trans
        (extends_step (runWf_run config _ hcounted.tail) (hasCode_run config _) s
          (runWf_run config (s :: (later ++ past)) hcounted))

/-- The value at the key of the contract of `contractRun` is written over. -/
def eraseLater : List Step :=
  [ .apply (.contractCall (callWith (writeArgs (text "k") []))) ]

theorem run_extends_eraseLater :
    ∃ v, (final {} (eraseLater ++ contractRun)).storedValue 1 (text "k") = some v := by
  have hcounted : Counted (trace {} (eraseLater ++ contractRun)) :=
    { nfts := by decide +kernel
      collections := by decide +kernel
      locks := by decide +kernel
      contracts := by decide +kernel }
  have hkeys := (run_extends {} contractRun eraseLater hcounted).keys
  exact hkeys 1 (text "k") (text "v") (by decide +kernel)

end HiveNative.Chain
