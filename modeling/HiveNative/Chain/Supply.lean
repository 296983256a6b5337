import HiveNative.Chain.Run

/-!
# Supply and serials

The `supply` of a collection is a counter that a mint raises and a burn lowers,
while the tokens are kept in a map of their own.  `TokensInv` relates the two for
all collections at once: the counter of a collection is the number of live
tokens that name it.

A mint takes `supply + 1` as the serial of the new token.  A burn lowers the
supply, so a serial can be handed out again while the token that first got it is
still alive.  `serials_unique_iff` says exactly which runs keep the serials
unique.
-/

namespace HiveNative.Chain

open Std (ExtTreeMap)
open EState OrderedMap

variable {tr : List Event} {e : Event} {db db' : Database}

/-- The runs in which the token and the collection counters do not wrap. -/
structure Minted (tr : List Event) : Prop where
  nfts : created Step.isNftMint tr < 2 ^ 64 - 1
  collections : created Step.isNftCreateCollection tr < 2 ^ 64 - 1

theorem Minted.tail (h : Minted (e :: tr)) : Minted tr :=
  ⟨lt_of_le_of_lt (created_le_cons _ e tr) h.nfts,
    lt_of_le_of_lt (created_le_cons _ e tr) h.collections⟩

/-- The number of live tokens of a collection. -/
def liveTokens (db : Database) (id : CollectionId) : ℕ :=
  countOf (fun n => n.collection == id) db.nfts

/-- The counters of a collection agree with the tokens. -/
structure CollectionWf (db : Database) (id : CollectionId) (c : NftCollectionObject) : Prop where
  id_eq : c.id = id
  supply : c.supply.toNat = liveTokens db id
  within_max : c.maxSupply ≠ 0 → c.supply ≤ c.maxSupply

structure TokensInv (tr : List Event) (db : Database) : Prop where
  collections_wf : ∀ (id : CollectionId) (c : NftCollectionObject),
    db.collections[id]? = some c → CollectionWf db id c
  home : ∀ (i : NftId) (n : NftObject), db.nfts[i]? = some n →
    ∃ c, db.collections[n.collection]? = some c
  collections_allocated :
    Allocated db.nextCollectionId db.collections (created Step.isNftCreateCollection tr)
  nfts_allocated : Allocated db.nextNftId db.nfts (created Step.isNftMint tr)
  live : db.nfts.size ≤ created Step.isNftMint tr

theorem tokensInv_empty (config : NodeConfig) : TokensInv [] (.empty config) := by
  refine ⟨fun id c hc => ?_, fun i n hn => ?_, Allocated.start, Allocated.start, ?_⟩
  · simp [Database.empty] at hc
  · simp [Database.empty] at hn
  · simp [Database.empty]

/-! ## Counts after a move -/

theorem liveTokens_of_nfts (heq : db'.nfts = db.nfts) (id : CollectionId) :
    liveTokens db' id = liveTokens db id := by
  rw [liveTokens, heq, liveTokens]

/-- A collection no token names has no live token. -/
theorem liveTokens_eq_zero {id : CollectionId}
    (h : ∀ (i : NftId) (n : NftObject), db.nfts[i]? = some n → n.collection ≠ id) :
    liveTokens db id = 0 :=
  countOf_eq_zero _ fun i n hn => beq_false_of_ne (h i n hn)

theorem liveTokens_insert_new {i : NftId} {n : NftObject} (heq : db'.nfts = db.nfts.insert i n)
    (hnew : db.nfts[i]? = none) (id : CollectionId) :
    liveTokens db' id = liveTokens db id + if n.collection = id then 1 else 0 := by
  rw [liveTokens, heq, countOf_insert_new _ hnew, liveTokens]
  simp only [beq_iff_eq]

/-- Replacing a token by one of the same collection. -/
theorem liveTokens_insert_same {i : NftId} {n n' : NftObject}
    (heq : db'.nfts = db.nfts.insert i n') (hold : db.nfts[i]? = some n)
    (hcol : n'.collection = n.collection) (id : CollectionId) :
    liveTokens db' id = liveTokens db id := by
  rw [liveTokens, heq, countOf_insert_same _ hold (by rw [hcol]), liveTokens]

theorem liveTokens_erase {i : NftId} {n : NftObject} (heq : db'.nfts = db.nfts.erase i)
    (hold : db.nfts[i]? = some n) (id : CollectionId) :
    liveTokens db id = liveTokens db' id + if n.collection = id then 1 else 0 := by
  rw [liveTokens, countOf_eq_add_erase _ hold, liveTokens, heq]
  simp only [beq_iff_eq]

/-- The supply of the collection of a live token is positive. -/
theorem TokensInv.supply_pos (inv : TokensInv tr db) {i : NftId} {n : NftObject}
    (hn : db.nfts[i]? = some n) {c : NftCollectionObject}
    (hc : db.collections[n.collection]? = some c) : 0 < c.supply := by
  have hwf := inv.collections_wf _ c hc
  have hpos : 0 < liveTokens db n.collection := countOf_pos _ hn (beq_self_eq_true _)
  rw [UInt64.lt_iff_toNat_lt, hwf.supply]
  exact hpos

/-- The guard of the burn is never taken for a live token. -/
theorem TokensInv.decrementSupply_eq (inv : TokensInv tr db) {i : NftId} {n : NftObject}
    (hn : db.nfts[i]? = some n) {c : NftCollectionObject}
    (hc : db.collections[n.collection]? = some c) :
    decrementSupply db.collections n.collection =
      db.collections.insert n.collection { c with supply := c.supply - 1 } := by
  unfold decrementSupply
  rw [hc]
  exact if_pos (inv.supply_pos hn hc)

/-! ## One event -/

theorem isNftMint_of_other {s : Step} (h : s.isTokenOperation = false) : s.isNftMint = false := by
  cases s with
  | createAccount name hive hbd => rfl
  | setHeadTime t => rfl
  | apply op =>
      cases op with
      | nftMint op => cases h
      | _ => rfl

theorem isNftCreateCollection_of_other {s : Step} (h : s.isTokenOperation = false) :
    s.isNftCreateCollection = false := by
  cases s with
  | createAccount name hive hbd => rfl
  | setHeadTime t => rfl
  | apply op =>
      cases op with
      | nftCreateCollection op => cases h
      | _ => rfl

/-- An event that neither creates a collection nor mints, keeps the collections
and replaces at most a token by one of the same collection. -/
theorem tokensInv_keep (inv : TokensInv tr e.before)
    (noMint : Succeeded e → e.label.isNftMint = false)
    (noCollection : Succeeded e → e.label.isNftCreateCollection = false)
    (collections : e.after.collections = e.before.collections)
    (live : ∀ id, liveTokens e.after id = liveTokens e.before id)
    (home : ∀ (i : NftId) (n : NftObject), e.after.nfts[i]? = some n →
      ∃ (i' : NftId) (n' : NftObject), e.before.nfts[i']? = some n' ∧ n.collection = n'.collection)
    (nfts_allocated : Allocated e.after.nextNftId e.after.nfts (created Step.isNftMint tr))
    (size : e.after.nfts.size ≤ e.before.nfts.size)
    (nextCollection : e.after.nextCollectionId = e.before.nextCollectionId) :
    TokensInv (e :: tr) e.after := by
  refine ⟨fun id c hc => ?_, fun i n hn => ?_, ?_, ?_, ?_⟩
  · rw [collections] at hc
    have hwf := inv.collections_wf id c hc
    exact ⟨hwf.id_eq, by rw [hwf.supply, live id], hwf.within_max⟩
  · obtain ⟨i', n', hn', hcol⟩ := home i n hn
    rw [collections, hcol]
    exact inv.home i' n' hn'
  · rw [nextCollection, collections, created_of_quiet tr noCollection]
    exact inv.collections_allocated
  · rw [created_of_quiet tr noMint]
    exact nfts_allocated
  · rw [created_of_quiet tr noMint]
    exact size.trans inv.live

/-- A transfer and an approval replace one token by one of the same collection. -/
theorem tokensInv_replace (inv : TokensInv tr e.before)
    (noMint : e.label.isNftMint = false) (noCollection : e.label.isNftCreateCollection = false)
    (collections : e.after.collections = e.before.collections) {i : NftId} {n n' : NftObject}
    (found : e.before.nfts[i]? = some n) (nfts : e.after.nfts = e.before.nfts.insert i n')
    (hcol : n'.collection = n.collection)
    (nextCollection : e.after.nextCollectionId = e.before.nextCollectionId)
    (nextNft : e.after.nextNftId = e.before.nextNftId) : TokensInv (e :: tr) e.after := by
  refine tokensInv_keep inv (fun _ => noMint) (fun _ => noCollection) collections
    (liveTokens_insert_same nfts found hcol) (fun j m hm => ?_) ?_ ?_ nextCollection
  · rw [nfts, getElem?_insert_eq] at hm
    split at hm
    · cases hm
      exact ⟨i, n, found, hcol⟩
    · exact ⟨j, m, hm, rfl⟩
  · rw [nextNft, nfts]
    exact inv.nfts_allocated.update found n'
  · have hmem : e.before.nfts.contains i = true :=
      ExtTreeMap.contains_iff_mem.mpr (mem_iff_exists.mpr ⟨n, found⟩)
    rw [nfts, ExtTreeMap.size_insert, if_pos hmem]

theorem tokensInv_createCollection (inv : TokensInv tr e.before) (hm : Minted (e :: tr))
    {op : NftCreateCollectionOperation} (done : Succeeded e)
    (label : e.label = .apply (.nftCreateCollection op))
    (collections : e.after.collections =
      e.before.collections.insert e.before.nextCollectionId (newCollection e.before op))
    (nfts : e.after.nfts = e.before.nfts)
    (nextCollection : e.after.nextCollectionId = e.before.nextCollectionId + 1)
    (nextNft : e.after.nextNftId = e.before.nextNftId) : TokensInv (e :: tr) e.after := by
  have hfree := inv.collections_allocated.fresh
  have hmint : created Step.isNftMint (e :: tr) = created Step.isNftMint tr :=
    created_of_quiet tr fun _ => by rw [label]; rfl
  have hcount : created Step.isNftCreateCollection (e :: tr) =
      created Step.isNftCreateCollection tr + 1 :=
    created_of_kind tr done (by rw [label]; rfl)
  refine ⟨fun id c hc => ?_, fun i n hn => ?_, ?_, ?_, ?_⟩
  · rw [collections, getElem?_insert_eq] at hc
    split at hc
    · next hid =>
        cases hc
        subst hid
        have hzero : liveTokens e.before e.before.nextCollectionId = 0 := by
          refine liveTokens_eq_zero fun i n hn hcol => ?_
          obtain ⟨c, hhome⟩ := inv.home i n hn
          rw [hcol, hfree] at hhome
          cases hhome
        exact ⟨rfl, by rw [liveTokens_of_nfts nfts, hzero]; rfl,
          fun _ => UInt64.le_iff_toNat_le.mpr (Nat.zero_le _)⟩
    · have hwf := inv.collections_wf id c hc
      exact ⟨hwf.id_eq, by rw [liveTokens_of_nfts nfts]; exact hwf.supply, hwf.within_max⟩
  · rw [nfts] at hn
    obtain ⟨c, hc⟩ := inv.home i n hn
    have hne : e.before.nextCollectionId ≠ n.collection := by
      intro heq
      rw [← heq, hfree] at hc
      cases hc
    exact ⟨c, by rw [collections, getElem?_insert_ne hne]; exact hc⟩
  · rw [nextCollection, collections, hcount]
    refine inv.collections_allocated.insert ?_ _
    have := hm.collections
    omega
  · rw [nextNft, nfts, hmint]
    exact inv.nfts_allocated
  · rw [nfts, hmint]
    exact inv.live

/-- The supply of a collection does not wrap at a mint. -/
theorem TokensInv.supply_succ (inv : TokensInv tr db) (hm : Minted tr) {id : CollectionId}
    {c : NftCollectionObject} (hc : db.collections[id]? = some c) :
    (c.supply + 1).toNat = c.supply.toNat + 1 := by
  have hle : liveTokens db id ≤ db.nfts.size := countOf_le_size _ _
  have hsup := (inv.collections_wf id c hc).supply
  have hlive := inv.live
  have hmax := hm.nfts
  rw [UInt64.toNat_add, UInt64.toNat_one, Nat.mod_eq_of_lt (by omega)]

theorem tokensInv_mint (inv : TokensInv tr e.before) (hm : Minted (e :: tr))
    {op : NftMintOperation} {col : NftCollectionObject} (done : Succeeded e)
    (label : e.label = .apply (.nftMint op)) (guards : Mintable e.before op col)
    (collections : e.after.collections =
      e.before.collections.insert op.collection { col with supply := col.supply + 1 })
    (nfts : e.after.nfts = e.before.nfts.insert e.before.nextNftId (newNft e.before op col))
    (nextCollection : e.after.nextCollectionId = e.before.nextCollectionId)
    (nextNft : e.after.nextNftId = e.before.nextNftId + 1) : TokensInv (e :: tr) e.after := by
  have hfresh := inv.nfts_allocated.fresh
  have hsucc := inv.supply_succ hm.tail guards.found
  have hwf := inv.collections_wf _ col guards.found
  have hlive : ∀ id, liveTokens e.after id =
      liveTokens e.before id + if op.collection = id then 1 else 0 :=
    liveTokens_insert_new nfts hfresh
  have hmint : created Step.isNftMint (e :: tr) = created Step.isNftMint tr + 1 :=
    created_of_kind tr done (by rw [label]; rfl)
  have hcount : created Step.isNftCreateCollection (e :: tr) =
      created Step.isNftCreateCollection tr :=
    created_of_quiet tr fun _ => by rw [label]; rfl
  refine ⟨fun id c hc => ?_, fun i n hn => ?_, ?_, ?_, ?_⟩
  · rw [collections, getElem?_insert_eq] at hc
    split at hc
    · next hid =>
        cases hc
        subst hid
        refine ⟨hwf.id_eq, ?_, fun hmax => ?_⟩
        · rw [hlive, if_pos rfl, ← hwf.supply]
          exact hsucc
        · have hroom := UInt64.lt_iff_toNat_lt.mp (guards.room hmax)
          rw [UInt64.le_iff_toNat_le, hsucc]
          exact hroom
    · next hid =>
        have hother := inv.collections_wf id c hc
        refine ⟨hother.id_eq, ?_, hother.within_max⟩
        rw [hlive, if_neg fun hc => hid hc.symm, Nat.add_zero]
        exact hother.supply
  · rw [collections, getElem?_insert_eq]
    split
    · exact ⟨_, rfl⟩
    · next hne =>
        rw [nfts, getElem?_insert_eq] at hn
        split at hn
        · cases hn
          exact absurd rfl hne
        · exact inv.home i n hn
  · rw [nextCollection, collections, hcount]
    exact inv.collections_allocated.update guards.found _
  · rw [nextNft, nfts, hmint]
    refine inv.nfts_allocated.insert ?_ _
    have := hm.nfts
    omega
  · rw [nfts, hmint]
    exact (ExtTreeMap.size_insert_le).trans (Nat.succ_le_succ inv.live)

theorem tokensInv_burn (inv : TokensInv tr e.before) {op : NftBurnOperation} {n : NftObject}
    (label : e.label = .apply (.nftBurn op)) (found : e.before.nfts[op.nftId]? = some n)
    (collections : e.after.collections = decrementSupply e.before.collections n.collection)
    (nfts : e.after.nfts = e.before.nfts.erase op.nftId)
    (nextCollection : e.after.nextCollectionId = e.before.nextCollectionId)
    (nextNft : e.after.nextNftId = e.before.nextNftId) : TokensInv (e :: tr) e.after := by
  obtain ⟨col, hcol⟩ := inv.home _ n found
  rw [inv.decrementSupply_eq found hcol] at collections
  have hpos := inv.supply_pos found hcol
  have hwf := inv.collections_wf _ col hcol
  have hlive := liveTokens_erase nfts found
  have hpred : (col.supply - 1).toNat = col.supply.toNat - 1 := by
    rw [UInt64.toNat_sub_of_le col.supply 1 (UInt64.le_iff_toNat_le.mpr
      (UInt64.lt_iff_toNat_lt.mp hpos)), UInt64.toNat_one]
  have hmint : created Step.isNftMint (e :: tr) = created Step.isNftMint tr :=
    created_of_quiet tr fun _ => by rw [label]; rfl
  have hcount : created Step.isNftCreateCollection (e :: tr) =
      created Step.isNftCreateCollection tr :=
    created_of_quiet tr fun _ => by rw [label]; rfl
  refine ⟨fun id c hc => ?_, fun i m hm => ?_, ?_, ?_, ?_⟩
  · rw [collections, getElem?_insert_eq] at hc
    split at hc
    · next hid =>
        cases hc
        subst hid
        have hone := hlive n.collection
        rw [if_pos rfl, ← hwf.supply] at hone
        refine ⟨hwf.id_eq, by rw [hpred]; omega, fun hmax => ?_⟩
        have hle := UInt64.le_iff_toNat_le.mp (hwf.within_max hmax)
        rw [UInt64.le_iff_toNat_le, hpred]
        exact (Nat.sub_le _ _).trans hle
    · next hid =>
        have hother := inv.collections_wf id c hc
        have hsame := hlive id
        rw [if_neg fun hc => hid hc.symm, Nat.add_zero] at hsame
        exact ⟨hother.id_eq, by rw [← hsame]; exact hother.supply, hother.within_max⟩
  · rw [collections, getElem?_insert_eq]
    split
    · exact ⟨_, rfl⟩
    · rw [nfts, getElem?_erase_eq] at hm
      split at hm
      · cases hm
      · exact inv.home i m hm
  · rw [nextCollection, collections, hcount]
    exact inv.collections_allocated.update hcol _
  · rw [nextNft, nfts, hmint]
    exact inv.nfts_allocated.erase _
  · rw [nfts, hmint]
    exact (ExtTreeMap.size_erase_le).trans inv.live

theorem tokensInv_step (db : Database) (s : Step) (hm : Minted (Machine.event exec db s :: tr))
    (inv : TokensInv tr db) : TokensInv (Machine.event exec db s :: tr) (exec s db).2 := by
  cases tokenMove db s with
  | idle same quiet =>
      refine tokensInv_keep inv (fun hs => isNftMint_of_other (quiet hs))
        (fun hs => isNftCreateCollection_of_other (quiet hs)) same.collections
        (liveTokens_of_nfts same.nfts) (fun i n hn => ⟨i, n, ?_, rfl⟩) ?_ ?_ same.nextCollection
      · rw [← same.nfts]
        exact hn
      · rw [same.nextNft, same.nfts]
        exact inv.nfts_allocated
      · rw [same.nfts]
  | createCollection done label _ _ collections _ nfts operators nextCollection nextNft =>
      exact tokensInv_createCollection inv hm done label collections nfts nextCollection nextNft
  | mint done label guards collections nfts operators nextCollection nextNft =>
      exact tokensInv_mint inv hm done label guards collections nfts nextCollection nextNft
  | transfer done label guards collections nfts operators nextCollection nextNft =>
      exact tokensInv_replace inv (by rw [label]; rfl) (by rw [label]; rfl) collections
        guards.found nfts rfl nextCollection nextNft
  | approve done label guards collections nfts operators nextCollection nextNft =>
      exact tokensInv_replace inv (by rw [label]; rfl) (by rw [label]; rfl) collections
        guards.found nfts rfl nextCollection nextNft
  | setOperator done label guards collections nfts operators nextCollection nextNft =>
      refine tokensInv_keep inv (fun _ => by rw [label]; rfl) (fun _ => by rw [label]; rfl)
        collections (liveTokens_of_nfts nfts) (fun i n hn => ⟨i, n, ?_, rfl⟩) ?_ ?_ nextCollection
      · rw [← nfts]
        exact hn
      · rw [nextNft, nfts]
        exact inv.nfts_allocated
      · rw [nfts]
  | burn done label guards collections nfts operators nextCollection nextNft =>
      exact tokensInv_burn inv label guards.found collections nfts nextCollection nextNft

/-! ## Whole runs -/

theorem tokensInv_run (config : NodeConfig) (steps : List Step)
    (h : Minted (trace config steps)) : TokensInv (trace config steps) (final config steps) :=
  Machine.invariant_of Minted TokensInv (fun _ _ => Minted.tail) (tokensInv_empty config)
    (fun _ db s hm inv => tokensInv_step db s hm inv) steps h

/-- The supply of a collection counts its live tokens and stays within the
maximum, and the collection of a live token exists and counts it, so that a burn
always lowers a supply. -/
theorem supply_counts_live (config : NodeConfig) (steps : List Step)
    (hminted : Minted (trace config steps)) :
    let db := final config steps
    (∀ (id : CollectionId) (c : NftCollectionObject), db.collections[id]? = some c →
        c.supply.toNat = countOf (fun n => n.collection == c.id) db.nfts ∧
          (c.maxSupply ≠ 0 → c.supply ≤ c.maxSupply)) ∧
      ∀ (i : NftId) (n : NftObject), db.nfts[i]? = some n →
        ∃ c, db.collections[n.collection]? = some c ∧ 0 < c.supply ∧
          decrementSupply db.collections n.collection =
            db.collections.insert n.collection { c with supply := c.supply - 1 } := by
  intro db
  have inv : TokensInv (trace config steps) db := tokensInv_run config steps hminted
  refine ⟨fun id c hc => ?_, fun i n hn => ?_⟩
  · have hwf := inv.collections_wf id c hc
    refine ⟨?_, hwf.within_max⟩
    rw [hwf.id_eq]
    exact hwf.supply
  · obtain ⟨c, hc⟩ := inv.home i n hn
    exact ⟨c, hc, inv.supply_pos hn hc, inv.decrementSupply_eq hn hc⟩

/-- Alice mints two tokens, burns the first and mints a third. -/
def burnRun : List Step :=
  [ .apply (.nftMint { creator := text "alice", collection := 1, «to» := text "alice" }),
    .apply (.nftBurn { owner := text "alice", nftId := 1 }),
    .apply (.nftMint { creator := text "alice", collection := 1, «to» := text "alice" }),
    .apply (.nftMint { creator := text "alice", collection := 1, «to» := text "alice" }),
    .apply (.nftCreateCollection
      { creator := text "alice", symbol := text "ART", name := text "Art", maxSupply := 2 }),
    .createAccount (text "alice") 0 0 ]

theorem supply_counts_live_burnRun :
    Minted (trace {} burnRun) ∧ ∃ c : NftCollectionObject,
      (final {} burnRun).collections[(1 : CollectionId)]? = some c ∧
      countOf (fun n => n.collection == 1) (final {} burnRun).nfts = 2 ∧
      c.supply.toNat = 2 := by
  have hminted : Minted (trace {} burnRun) := ⟨by decide +kernel, by decide +kernel⟩
  have hsome : ((final {} burnRun).collections[(1 : CollectionId)]?).map
      NftCollectionObject.id = some 1 := by decide +kernel
  obtain ⟨c, hc, hid⟩ := Option.map_eq_some_iff.mp hsome
  have hcount : countOf (fun n => n.collection == 1) (final {} burnRun).nfts = 2 := by
    decide +kernel
  have hsupply := ((supply_counts_live {} burnRun hminted).1 1 c hc).1
  rw [hid, hcount] at hsupply
  exact ⟨hminted, c, hc, hcount, hsupply⟩

/-! ## Serials -/

/-- No two live tokens of a collection have the same serial. -/
def UniqueSerials (db : Database) : Prop :=
  ∀ (i j : NftId) (n m : NftObject), db.nfts[i]? = some n → db.nfts[j]? = some m →
    n.collection = m.collection → n.tokenSerial = m.tokenSerial → i = j

/-- If the event is a successful mint, no live token of the collection has the
serial `supply + 1` that the mint hands out.  (A token under the very id that the
mint writes would be replaced.) -/
def MintsUnusedSerial (e : Event) : Prop :=
  Succeeded e → ∀ op col, e.label = .apply (.nftMint op) →
    e.before.collections[op.collection]? = some col →
    ∀ (i : NftId) (n : NftObject), i ≠ e.before.nextNftId → e.before.nfts[i]? = some n →
      n.collection = op.collection → n.tokenSerial ≠ col.supply + 1

theorem uniqueSerials_of_nfts (h : UniqueSerials db) (heq : db'.nfts = db.nfts) :
    UniqueSerials db' := by
  unfold UniqueSerials
  rw [heq]
  exact h

/-- Replacing a token by one with the same collection and serial. -/
theorem uniqueSerials_replace (h : UniqueSerials db) {i : NftId} {n n' : NftObject}
    (found : db.nfts[i]? = some n) (heq : db'.nfts = db.nfts.insert i n')
    (hcol : n'.collection = n.collection) (hser : n'.tokenSerial = n.tokenSerial) :
    UniqueSerials db' := by
  have old : ∀ (j : NftId) (m : NftObject), db'.nfts[j]? = some m →
      ∃ m', db.nfts[j]? = some m' ∧ m.collection = m'.collection ∧
        m.tokenSerial = m'.tokenSerial := by
    intro j m hm
    rw [heq, getElem?_insert_eq] at hm
    split at hm
    · next hj =>
        cases hm
        subst hj
        exact ⟨n, found, hcol, hser⟩
    · exact ⟨m, hm, rfl, rfl⟩
  intro j k m₁ m₂ hm₁ hm₂ hc hs
  obtain ⟨x₁, hx₁, hc₁, hs₁⟩ := old j m₁ hm₁
  obtain ⟨x₂, hx₂, hc₂, hs₂⟩ := old k m₂ hm₂
  exact h j k x₁ x₂ hx₁ hx₂ (by rw [← hc₁, ← hc₂, hc]) (by rw [← hs₁, ← hs₂, hs])

theorem uniqueSerials_erase (h : UniqueSerials db) {i : NftId} (heq : db'.nfts = db.nfts.erase i) :
    UniqueSerials db' := by
  have old : ∀ (j : NftId) (m : NftObject), db'.nfts[j]? = some m → db.nfts[j]? = some m := by
    intro j m hm
    rw [heq, getElem?_erase_eq] at hm
    split at hm
    · cases hm
    · exact hm
  intro j k m₁ m₂ hm₁ hm₂ hc hs
  exact h j k m₁ m₂ (old j m₁ hm₁) (old k m₂ hm₂) hc hs

/-- Adding a token keeps the serials unique exactly when no other live token of
the collection has its serial. -/
theorem uniqueSerials_insert_iff (h : UniqueSerials db) {i : NftId} {n : NftObject}
    (heq : db'.nfts = db.nfts.insert i n) :
    UniqueSerials db' ↔ ∀ (j : NftId) (m : NftObject), j ≠ i → db.nfts[j]? = some m →
      m.collection = n.collection → m.tokenSerial ≠ n.tokenSerial := by
  have hself : db'.nfts[i]? = some n := by rw [heq, ExtTreeMap.getElem?_insert_self]
  have hother : ∀ j, j ≠ i → db'.nfts[j]? = db.nfts[j]? := by
    intro j hj
    rw [heq, getElem?_insert_ne (Ne.symm hj)]
  constructor
  · intro hu j m hj hm hc hs
    exact hj (hu j i m n (by rw [hother j hj]; exact hm) hself hc hs)
  · intro hnew j k m₁ m₂ hm₁ hm₂ hc hs
    by_cases hj : j = i
    · subst hj
      rw [hself] at hm₁
      cases hm₁
      by_cases hk : k = j
      · exact hk.symm
      · rw [hother k hk] at hm₂
        exact absurd hs.symm (hnew k m₂ hk hm₂ hc.symm)
    · rw [hother j hj] at hm₁
      by_cases hk : k = i
      · subst hk
        rw [hself] at hm₂
        cases hm₂
        exact absurd hs (hnew j m₁ hj hm₁ hc)
      · rw [hother k hk] at hm₂
        exact h j k m₁ m₂ hm₁ hm₂ hc hs

/-- One event keeps the serials unique exactly when it does not mint a serial
that is in use. -/
theorem uniqueSerials_step (s : Step) (h : UniqueSerials db) :
    UniqueSerials (exec s db).2 ↔ MintsUnusedSerial (Machine.event exec db s) := by
  have still : UniqueSerials (exec s db).2 →
      (∀ op, (Machine.event exec db s).label = .apply (.nftMint op) →
        ¬ Succeeded (Machine.event exec db s)) →
      (UniqueSerials (exec s db).2 ↔ MintsUnusedSerial (Machine.event exec db s)) :=
    fun hu hno => ⟨fun _ hs op _ hl => absurd hs (hno op hl), fun _ => hu⟩
  cases tokenMove db s with
  | idle same quiet =>
      refine still (uniqueSerials_of_nfts h same.nfts) fun op hl hs => ?_
      have hq := quiet hs
      rw [hl] at hq
      cases hq
  | createCollection done label _ _ collections _ nfts operators nextCollection nextNft =>
      exact still (uniqueSerials_of_nfts h nfts) fun op hl => by rw [label] at hl; cases hl
  | transfer done label guards collections nfts operators nextCollection nextNft =>
      exact still (uniqueSerials_replace h guards.found nfts rfl rfl)
        fun op hl => by rw [label] at hl; cases hl
  | approve done label guards collections nfts operators nextCollection nextNft =>
      exact still (uniqueSerials_replace h guards.found nfts rfl rfl)
        fun op hl => by rw [label] at hl; cases hl
  | setOperator done label guards collections nfts operators nextCollection nextNft =>
      exact still (uniqueSerials_of_nfts h nfts) fun op hl => by rw [label] at hl; cases hl
  | burn done label guards collections nfts operators nextCollection nextNft =>
      exact still (uniqueSerials_erase h nfts) fun op hl => by rw [label] at hl; cases hl
  | @mint op col done label guards collections nfts operators nextCollection nextNft =>
      refine (uniqueSerials_insert_iff h nfts).trans
        ⟨fun hnew hs op' col' hl hc i n hi hn hcol => ?_,
        fun hunused i n hi hn hcol => ?_⟩
      · rw [label] at hl
        cases hl
        rw [guards.found] at hc
        cases hc
        exact hnew i n hi hn hcol
      · exact hunused done op col label guards.found i n hi hn hcol

/-- The serials are unique in every state of a run exactly when every successful
mint of it hands out a serial that no live token of the collection has. -/
theorem serials_unique_iff (config : NodeConfig) (steps : List Step) :
    (∀ past, past <:+ steps → UniqueSerials (final config past)) ↔
      ∀ e ∈ trace config steps, MintsUnusedSerial e := by
  induction steps with
  | nil =>
      refine ⟨fun _ e he => (by cases he), fun _ past hp => ?_⟩
      rw [List.suffix_nil.mp hp]
      intro i j n m hn
      simp [Database.empty] at hn
  | cons s steps ih =>
      constructor
      · intro hall e he
        have hpast := hall steps (List.suffix_cons s steps)
        cases List.mem_cons.mp he with
        | inl he =>
            rw [he]
            exact (uniqueSerials_step s hpast).mp (hall (s :: steps) List.suffix_rfl)
        | inr he =>
            exact ih.mp (fun past hp => hall past (hp.trans (List.suffix_cons s steps))) e he
      · intro hall past hp
        have hold := ih.mpr fun e he => hall e (List.mem_cons_of_mem _ he)
        cases List.suffix_cons_iff.mp hp with
        | inr hp => exact hold past hp
        | inl hp =>
            rw [hp]
            exact (uniqueSerials_step s (hold steps List.suffix_rfl)).mpr
              (hall _ List.mem_cons_self)

/-- After the burn the supply is one, and the third mint hands out the serial two
of the second token again. -/
theorem serials_repeat_burnRun : ¬ UniqueSerials (final {} burnRun) := by
  have h₂ : ((final {} burnRun).nfts[(2 : NftId)]?).map (fun n => (n.collection, n.tokenSerial)) =
      some (1, 2) := by decide +kernel
  have h₃ : ((final {} burnRun).nfts[(3 : NftId)]?).map (fun n => (n.collection, n.tokenSerial)) =
      some (1, 2) := by decide +kernel
  obtain ⟨n, hn, hpair⟩ := Option.map_eq_some_iff.mp h₂
  obtain ⟨m, hm, hpair'⟩ := Option.map_eq_some_iff.mp h₃
  rw [← hpair'] at hpair
  intro hu
  exact absurd (hu 2 3 n m hn hm (congrArg Prod.fst hpair) (congrArg Prod.snd hpair)) (by decide)

end HiveNative.Chain
