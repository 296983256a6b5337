import HiveNative.Chain.WellFormed
import HiveNative.Haf.Tables

/-!
# The constraints of the tables

What the validators check is what the tables declare, for the most part: the lengths of the
names and texts, the digest of a lock, its times and amounts.  `Fits` keeps what no other
invariant does, through every run.

Three constraints are left, and the tables conform exactly when these hold
(`mirror_conforms_iff`).  `max_supply` is any unsigned number, but a `BIGINT` column.
`validate` takes every algorithm but sha256 for ripemd160, but the column allows two.  And
a serial can be given out again after a burn, but the pair with the collection is
`UNIQUE`.
-/

namespace HiveNative.Haf

open Std (ExtTreeMap TransCmp LawfulEqCmp)
open Chain EState OrderedMap

variable {tr : List Event} {e : Event} {db db' : Database}

/-! ## What fits the columns -/

structure CollectionFits (c : NftCollectionObject) : Prop where
  symbol : c.symbol.length ≤ maxNftSymbolLen
  name : c.name.length ≤ maxNftNameLen

structure NftFits (minted : ℕ) (n : NftObject) : Prop where
  uri : n.uri.length ≤ maxNftUriLen
  serial : n.tokenSerial.toNat ≤ minted

structure LockFits (h : HtlcObject) : Prop where
  memo : h.memo.length ≤ maxMemoLen
  digest : h.preimageHash.bytes.length = expectedDigestLen h.preimageHash.algo

/-- The objects of a database fit the columns of their rows. -/
structure Fits (tr : List Event) (db : Database) : Prop where
  names : ∀ (name : AccountName) (b : AccountBalance), db.balances[name]? = some b →
    ValidName name
  collections : ∀ (id : CollectionId) (c : NftCollectionObject), db.collections[id]? = some c →
    CollectionFits c
  nfts : ∀ (id : NftId) (n : NftObject), db.nfts[id]? = some n →
    NftFits (created Step.isNftMint tr) n
  locks : ∀ (id : HtlcId) (h : HtlcObject), db.htlcs[id]? = some h → LockFits h

theorem fits_empty (config : NodeConfig) : Fits [] (.empty config) := by
  refine ⟨?_, ?_, ?_, ?_⟩
  all_goals simp [Database.empty]

/-! ## One step -/

/-- Balances are written under valid names. -/
theorem names_step (s : Step)
    (h : ∀ (name : AccountName) (b : AccountBalance), db.balances[name]? = some b →
      ValidName name) :
    ∀ (name : AccountName) (b : AccountBalance), (exec s db).2.balances[name]? = some b →
      ValidName name := by
  cases fundsMove db s with
  | idle same quiet =>
      intro name b hb
      exact h name b (same.balances ▸ hb)
  | account done label valid balances htlcs next => exact forall_insert balances valid h
  | lock done label guards balances htlcs next =>
      exact forall_insert balances guards.valid.source h
  | redeem done label guards balances htlcs next =>
      exact forall_insert balances (h _ _ guards.account) h
  | refund done label guards balances htlcs next =>
      exact forall_insert balances (h _ _ guards.account) h

/-- A collection that is created was checked. -/
theorem valid_of_createCollection {op : NftCreateCollectionOperation}
    (h : Succeeded (Machine.event exec db (.apply (.nftCreateCollection op)))) : op.Valid := by
  cases event_cases db (.apply (.nftCreateCollection op)) with
  | inl hok =>
      obtain ⟨⟨-, hvalid, -⟩, -⟩ := applyNftCreateCollection_ok.mp hok.2
      exact hvalid
  | inr hfail =>
      obtain ⟨x, ho, -⟩ := hfail
      rw [Succeeded, ho] at h
      cases h

/-- What holds of a collection whatever its supply stays. -/
theorem collections_of_supplyOnly
    {m m' : ExtTreeMap CollectionId NftCollectionObject} (hs : SupplyOnly m m')
    (h : ∀ (id : CollectionId) (c : NftCollectionObject), m[id]? = some c → CollectionFits c)
    (id : CollectionId) (c : NftCollectionObject) (hc : m'[id]? = some c) : CollectionFits c := by
  obtain ⟨c', hc', heq⟩ := hs.back hc
  rw [heq]
  exact ⟨(h id c' hc').symbol, (h id c' hc').name⟩

theorem collections_step (s : Step)
    (h : ∀ (id : CollectionId) (c : NftCollectionObject), db.collections[id]? = some c →
      CollectionFits c) :
    ∀ (id : CollectionId) (c : NftCollectionObject), (exec s db).2.collections[id]? = some c →
      CollectionFits c := by
  cases tokenMove db s with
  | idle same quiet => exact collections_of_supplyOnly (.of_eq same.collections) h
  | @createCollection op done label _ _ collections _ _ _ _ _ =>
      have hvalid : op.Valid := by
        cases show s = .apply (.nftCreateCollection op) from label
        exact valid_of_createCollection done
      exact forall_insert (P := fun _ c => CollectionFits c) collections
        ⟨hvalid.symbol_short, hvalid.name_short⟩ h
  | mint done label guards collections _ _ _ _ =>
      exact collections_of_supplyOnly (collections ▸ .insert guards.found _) h
  | transfer done label guards collections _ _ _ _ =>
      exact collections_of_supplyOnly (.of_eq collections) h
  | approve done label guards collections _ _ _ _ =>
      exact collections_of_supplyOnly (.of_eq collections) h
  | setOperator done label guards collections _ _ _ _ =>
      exact collections_of_supplyOnly (.of_eq collections) h
  | burn done label guards collections _ _ _ _ =>
      exact collections_of_supplyOnly (collections ▸ .decrement _) h

theorem NftFits.mono {n : NftObject} {k k' : ℕ} (h : NftFits k n) (hle : k ≤ k') : NftFits k' n :=
  ⟨h.uri, h.serial.trans hle⟩

/-- A serial is a supply, and a supply counts tokens that were minted. -/
theorem nfts_step (s : Step) (hm : Minted (Machine.event exec db s :: tr)) (inv : TokensInv tr db)
    (h : ∀ (id : NftId) (n : NftObject), db.nfts[id]? = some n →
      NftFits (created Step.isNftMint tr) n) :
    ∀ (id : NftId) (n : NftObject), (exec s db).2.nfts[id]? = some n →
      NftFits (created Step.isNftMint (Machine.event exec db s :: tr)) n := by
  have old (id : NftId) (n : NftObject) (hn : db.nfts[id]? = some n) :
      NftFits (created Step.isNftMint (Machine.event exec db s :: tr)) n :=
    (h id n hn).mono (created_le_cons _ _ tr)
  cases tokenMove db s with
  | idle same quiet => exact fun id n hn => old id n (same.nfts ▸ hn)
  | createCollection done label _ _ _ _ nfts _ _ _ => exact fun id n hn => old id n (nfts ▸ hn)
  | @mint op col done label guards collections nfts _ _ _ =>
      have hkind := created_of_kind tr done (congrArg Step.isNftMint label)
      have hserial : (col.supply + 1).toNat ≤ created Step.isNftMint tr + 1 := by
        have hsup := (inv.collections_wf _ col guards.found).supply
        have hle : liveTokens db op.collection ≤ db.nfts.size := countOf_le_size _ _
        have hlive := inv.live
        rw [inv.supply_succ hm.tail guards.found]
        omega
      refine forall_insert (P := fun _ n => NftFits _ n) nfts ⟨guards.valid.uri_short, ?_⟩ old
      rw [hkind]
      exact hserial
  | transfer done label guards _ nfts _ _ _ =>
      have hold := old _ _ guards.found
      exact forall_insert (P := fun _ n => NftFits _ n) nfts ⟨hold.uri, hold.serial⟩ old
  | approve done label guards _ nfts _ _ _ =>
      have hold := old _ _ guards.found
      exact forall_insert (P := fun _ n => NftFits _ n) nfts ⟨hold.uri, hold.serial⟩ old
  | setOperator done label guards _ nfts _ _ _ => exact fun id n hn => old id n (nfts ▸ hn)
  | burn done label guards _ nfts _ _ _ =>
      exact forall_erase (P := fun _ n => NftFits _ n) nfts old

theorem locks_step (s : Step)
    (h : ∀ (id : HtlcId) (x : HtlcObject), db.htlcs[id]? = some x → LockFits x) :
    ∀ (id : HtlcId) (x : HtlcObject), (exec s db).2.htlcs[id]? = some x → LockFits x := by
  cases fundsMove db s with
  | idle same quiet => exact fun id x hx => h id x (same.htlcs ▸ hx)
  | account done label valid balances htlcs next => exact fun id x hx => h id x (htlcs ▸ hx)
  | lock done label guards balances htlcs next =>
      exact forall_insert (P := fun _ x => LockFits x) htlcs
        ⟨guards.valid.memo_short, guards.valid.digest_len⟩ h
  | redeem done label guards balances htlcs next =>
      have hold := h _ _ guards.found
      exact forall_insert (P := fun _ x => LockFits x) htlcs ⟨hold.memo, hold.digest⟩ h
  | refund done label guards balances htlcs next =>
      have hold := h _ _ guards.found
      exact forall_insert (P := fun _ x => LockFits x) htlcs ⟨hold.memo, hold.digest⟩ h

/-- The objects of a run fit their columns. -/
theorem fits_run (config : NodeConfig) (steps : List Step) (h : Minted (trace config steps)) :
    Fits (trace config steps) (final config steps) := by
  induction steps with
  | nil => exact fits_empty config
  | cons s steps ih =>
      have hfits := ih h.tail
      exact ⟨names_step s hfits.names, collections_step s hfits.collections,
        nfts_step s h (tokensInv_run config steps h.tail) hfits.nfts, locks_step s hfits.locks⟩

/-! ## Rows and keys -/

section Rows

variable {K V R C : Type} {cmp : K → K → Ordering} [TransCmp cmp] [LawfulEqCmp cmp]
  {m : ExtTreeMap K V cmp} {row : V → R} {rows : List R}

/-- What holds of the rows holds of the objects. -/
theorem forall_rows (hrows : rows.Perm (m.values.map row)) {P : R → Prop} :
    (∀ r ∈ rows, P r) ↔ ∀ (k : K) (v : V), m[k]? = some v → P (row v) := by
  constructor
  · intro h k v hv
    exact h _ (hrows.mem_iff.mpr (List.mem_map_of_mem (mem_values.mpr ⟨k, hv⟩)))
  · intro h r hr
    obtain ⟨v, hv, rfl⟩ := List.mem_map.mp (hrows.mem_iff.mp hr)
    obtain ⟨k, hk⟩ := mem_values.mp hv
    exact h k v hk

/-- A column is unique when no two keys share its value. -/
theorem distinct_rows (hrows : rows.Perm (m.values.map row)) {column : R → C} :
    Distinct column rows ↔ ∀ (k k' : K) (v v' : V), m[k]? = some v → m[k']? = some v' →
      column (row v) = column (row v') → k = k' := by
  have hsymm : Std.Symm fun p p' : K × V => column (row p.2) ≠ column (row p'.2) :=
    ⟨fun _ _ hne heq => hne heq.symm⟩
  have hlist : Distinct column rows ↔
      m.toList.Pairwise fun p p' => column (row p.2) ≠ column (row p'.2) := by
    unfold Distinct
    rw [hrows.pairwise_iff fun hne heq => hne heq.symm, List.pairwise_map, values_eq,
      List.pairwise_map]
  rw [hlist]
  constructor
  · intro h k k' v v' hv hv' heq
    by_contra hne
    exact h.forall (mem_toList.mpr hv) (mem_toList.mpr hv')
      (fun hp => hne (congrArg Prod.fst hp)) heq
  · intro h
    refine (toList_nodup m).pairwise_of_forall_ne fun p hp p' hp' hne heq => hne ?_
    have hk := h p.1 p'.1 p.2 p'.2 (mem_toList.mp hp) (mem_toList.mp hp') heq
    have hv := mem_toList.mp hp
    rw [hk, mem_toList.mp hp'] at hv
    exact Prod.ext hk (Option.some.inj hv).symm

end Rows

/-! ## Rows of a run -/

/-- The runs whose ids and serials are in the range of a `BIGINT`. -/
structure FewObjects (tr : List Event) : Prop where
  collections : created Step.isNftCreateCollection tr < 2 ^ 63
  nfts : created Step.isNftMint tr < 2 ^ 63
  locks : created Step.isHtlcCreate tr < 2 ^ 63
  contracts : created Step.isContractDeploy tr < 2 ^ 63

theorem FewObjects.counted (h : FewObjects tr) : Counted tr where
  nfts := by have := h.nfts; omega
  collections := by have := h.collections; omega
  locks := by have := h.locks; omega
  contracts := by have := h.contracts; omega

theorem bigint_natCast {n : ℕ} (h : n < 2 ^ 63) : Bigint n := by
  unfold Bigint
  omega

/-- An id that was handed out. -/
theorem bigint_id {V : Type} {m : ExtTreeMap UInt64 V} {next : UInt64} {n : ℕ}
    (h : Allocated next m n) (hn : n < 2 ^ 63) {id : UInt64} {v : V} (hid : m[id]? = some v) :
    Bigint id.toNat := by
  have hlt := UInt64.lt_iff_toNat_lt.mp (h.below id v hid).2
  have heq := h.next_eq
  exact bigint_natCast (by omega)

/-- An account that exists has a name of at most 16 characters. -/
theorem Fits.varchar (h : Fits tr db) {name : AccountName} (hname : db.accountExists name = true) :
    Varchar 16 name := by
  obtain ⟨b, hb⟩ := mem_iff_exists.mp (ExtTreeMap.contains_iff_mem.mp hname)
  exact (h.names name b hb).short

theorem mem_nullable {s t : Bytes} (h : t ∈ nullable s) : t = s ∧ s ≠ [] := by
  unfold nullable at h
  split at h
  · cases h
  · next hne =>
      cases h
      exact ⟨rfl, hne⟩

/-- The two bytes that name a symbol. -/
theorem symbolCode_named {sym : AssetSymbol} (h : Named sym) :
    symbolCode sym = 0 ∨ symbolCode sym = 1 := by
  cases h with
  | inl hive => exact .inl (congrArg symbolCode hive)
  | inr hbd => exact .inr (congrArg symbolCode hbd)

/-- The two bytes that name an algorithm. -/
theorem algoCode_named {algo : HashAlgo} :
    algoCode algo = 0 ∨ algoCode algo = 1 ↔ algo = .sha256 ∨ algo = .ripemd160 := by
  cases algo with
  | sha256 => exact ⟨fun _ => .inl rfl, fun _ => .inl rfl⟩
  | ripemd160 => exact ⟨fun _ => .inr rfl, fun _ => .inr rfl⟩
  | unknown raw notNamed =>
      have hraw : 2 ≤ raw.toNat := UInt8.le_iff_toNat_le.mp notNamed
      constructor
      · intro h
        have hcode : algoCode (.unknown raw notNamed) = raw.toNat := rfl
        omega
      · intro h
        cases h with
        | inl h => cases h
        | inr h => cases h

theorem statusCode_named (status : HtlcStatus) :
    statusCode status = 0 ∨ statusCode status = 1 ∨ statusCode status = 2 := by
  cases status with
  | «open» => exact .inl rfl
  | redeemed => exact .inr (.inl rfl)
  | refunded => exact .inr (.inr rfl)

section Run

variable (few : FewObjects tr) (wf : RunWf tr db) (fits : Fits tr db)

include few wf fits

theorem nftCollectionRow_ok_iff {id : CollectionId} {c : NftCollectionObject}
    (hc : db.collections[id]? = some c) :
    (nftCollectionRow c).Ok ↔ c.maxSupply.toNat < 2 ^ 63 := by
  constructor
  · intro h
    have hmax : ((c.maxSupply.toNat : ℕ) : ℤ) < 2 ^ 63 := h.maxSupply.2
    omega
  · intro hmax
    have hok := wf.tokens.collections id c hc
    have hcount := wf.counts.collections_wf id c hc
    have hsupply : c.supply.toNat < 2 ^ 63 := by
      have hle : liveTokens db id ≤ db.nfts.size := countOf_le_size _ _
      have hlive := wf.counts.live
      have hfew := few.nfts
      rw [hcount.supply]
      omega
    refine { id := ?_, creator := fits.varchar hok.creator_exists
             symbol := (fits.collections id c hc).symbol, name := (fits.collections id c hc).name
             maxSupply := bigint_natCast hmax, supply := bigint_natCast hsupply
             supply_nonneg := Int.natCast_nonneg _, supply_le_max := ?_ }
    · show Bigint c.id.toNat
      rw [hok.id_eq]
      exact bigint_id wf.counts.collections_allocated few.collections hc
    · show ((c.maxSupply.toNat : ℕ) : ℤ) = 0 ∨ ((c.supply.toNat : ℕ) : ℤ) ≤ c.maxSupply.toNat
      by_cases hz : c.maxSupply = 0
      · exact .inl (by rw [hz]; rfl)
      · exact .inr (Nat.cast_le.mpr (UInt64.le_iff_toNat_le.mp (hcount.within_max hz)))

theorem nftRow_ok {id : NftId} {n : NftObject} (hn : db.nfts[id]? = some n) : (nftRow n).Ok := by
  have hok := wf.tokens.nfts id n hn
  have hfits := fits.nfts id n hn
  obtain ⟨c, hc⟩ := wf.counts.home id n hn
  refine { id := ?_, collectionId := bigint_id wf.counts.collections_allocated few.collections hc
           tokenSerial := bigint_natCast (lt_of_le_of_lt hfits.serial few.nfts)
           owner := fits.varchar hok.owner_exists, approved := ?_, metadataHash := ?_, uri := ?_ }
  · show Bigint n.id.toNat
    rw [hok.id_eq]
    exact bigint_id wf.counts.nfts_allocated few.nfts hn
  · intro name hname
    obtain ⟨rfl, hne⟩ := mem_nullable hname
    exact fits.varchar (hok.approved_exists hne)
  · exact Vector.length_toList
  · intro uri huri
    obtain ⟨rfl, -⟩ := mem_nullable huri
    exact hfits.uri

theorem nftOperatorRow_ok {key : OperatorKey} {o : NftOperatorObject}
    (ho : db.operators[key]? = some o) : (nftOperatorRow o).Ok := by
  have hok := wf.tokens.operators key o ho
  refine ⟨fits.varchar hok.owner_exists, fits.varchar hok.operator_exists, ?_⟩
  cases hok.collection_exists with
  | inl hz =>
      show Bigint o.collection.toNat
      rw [hz]
      exact bigint_natCast (by decide)
  | inr hmem =>
      obtain ⟨c, hc⟩ := mem_iff_exists.mp hmem
      exact bigint_id wf.counts.collections_allocated few.collections hc

theorem htlcRow_ok_iff {id : HtlcId} {h : HtlcObject} (hh : db.htlcs[id]? = some h) :
    (htlcRow h).Ok ↔ h.preimageHash.algo = .sha256 ∨ h.preimageHash.algo = .ripemd160 := by
  obtain ⟨hlock, htime⟩ := wf.locks.locks id h hh
  have hfits := fits.locks id h hh
  constructor
  · intro hok
    exact algoCode_named.mp hok.hashAlgo
  · intro halgo
    have hamount : 0 < h.amount.amount.toInt := Int64.lt_iff_toInt_lt.mp hlock.amount_pos
    have hsize : 0 < h.preimageSize.toNat :=
      Nat.pos_of_ne_zero fun hz => hlock.size_ne (UInt16.toNat_inj.mp hz)
    have hsize_le : h.preimageSize.toNat ≤ 1024 := hlock.size_le
    refine { id := ?_, fromAccount := hlock.source_valid.short
             toAccount := hlock.dest_valid.short
             amount := ⟨h.amount.amount.le_toInt, h.amount.amount.toInt_lt⟩
             amount_pos := hamount, symbol := symbolCode_named hlock.symbol_named
             hashAlgo := algoCode_named.mpr halgo, preimageSize := ?_
             preimageSize_pos := Nat.cast_pos.mpr hsize
             preimageSize_le := Nat.cast_le.mpr hsize_le, status := statusCode_named h.status
             hash_len := ?_, memo_len := ?_, expiration_after_created := ?_ }
    · show Bigint h.id.toNat
      rw [hlock.id_eq]
      exact bigint_id wf.locks.allocated few.locks hh
    · show -2 ^ 31 ≤ ((h.preimageSize.toNat : ℕ) : ℤ) ∧ ((h.preimageSize.toNat : ℕ) : ℤ) < 2 ^ 31
      omega
    · have hdigest := hfits.digest
      cases halgo with
      | inl hsha => exact .inl ⟨congrArg algoCode hsha, by rw [hsha] at hdigest; exact hdigest⟩
      | inr hripemd =>
          exact .inr ⟨congrArg algoCode hripemd, by rw [hripemd] at hdigest; exact hdigest⟩
    · intro memo hmemo
      obtain ⟨rfl, -⟩ := mem_nullable hmemo
      exact hfits.memo
    · have hsoon := htime.not_soon
      have hmin : (0 : ℤ) ≤ htlcMinDurationSec := by decide
      show h.created ≤ h.expiration
      rw [UInt32.le_iff_toNat_le]
      omega

theorem contractRow_ok (codeAvailable : Bool) {id : ContractId} {c : ContractObject}
    (hc : db.contracts[id]? = some c) : (contractRow codeAvailable c).Ok := by
  have hok := wf.contracts.contracts id c hc
  refine ⟨?_, fits.varchar hok.owner_exists, Vector.length_toList⟩
  show Bigint c.id.toNat
  rw [hok.id_eq]
  exact bigint_id wf.contracts.allocated few.contracts hc

end Run

/-! ## Main result -/

/-- After every run of fewer than `2^63` objects of each kind, tables that mirror the database
satisfy the declared constraints exactly when every `max_supply` is in range, every lock
names its algorithm and no two tokens of a collection share a serial. -/
theorem mirror_conforms_iff (codeAvailable : Bool) (config : NodeConfig) (steps : List Step)
    (few : FewObjects (trace config steps)) {t : Tables}
    (hmirror : Mirrors codeAvailable (final config steps) t) :
    let db := final config steps
    Conforms t ↔
      (∀ (id : CollectionId) (c : NftCollectionObject), db.collections[id]? = some c →
        c.maxSupply.toNat < 2 ^ 63) ∧
      (∀ (id : HtlcId) (h : HtlcObject), db.htlcs[id]? = some h →
        h.preimageHash.algo = .sha256 ∨ h.preimageHash.algo = .ripemd160) ∧
      UniqueSerials db := by
  intro db
  have wf : RunWf (trace config steps) db := runWf_run config steps few.counted
  have fits : Fits (trace config steps) db := fits_run config steps few.counted.toMinted
  have hserials : Distinct (fun r => (r.collectionId, r.tokenSerial)) t.nfts ↔
      UniqueSerials db := by
    rw [distinct_rows hmirror.nfts]
    refine forall₄_congr fun i j n m => forall₂_congr fun _ _ => ?_
    show ((n.collection.toNat : ℤ), (n.tokenSerial.toNat : ℤ)) =
      ((m.collection.toNat : ℤ), (m.tokenSerial.toNat : ℤ)) → i = j ↔ _
    rw [Prod.mk.injEq, Nat.cast_inj, Nat.cast_inj, UInt64.toNat_inj, UInt64.toNat_inj, and_imp]
  constructor
  · intro h
    refine ⟨fun id c hc => ?_, fun id x hx => ?_, hserials.mp h.nfts_collection_serial_unique⟩
    · exact (nftCollectionRow_ok_iff few wf fits hc).mp
        ((forall_rows hmirror.nftCollections).mp h.nftCollections id c hc)
    · exact (htlcRow_ok_iff few wf fits hx).mp ((forall_rows hmirror.htlcs).mp h.htlcs id x hx)
  · intro h
    obtain ⟨hmax, halgo, hunique⟩ := h
    have hids {i j : UInt64} (heq : ((i.toNat : ℕ) : ℤ) = j.toNat) : i = j :=
      UInt64.toNat_inj.mp (Nat.cast_inj.mp heq)
    refine {
      nftCollections := (forall_rows hmirror.nftCollections).mpr fun id c hc =>
        (nftCollectionRow_ok_iff few wf fits hc).mpr (hmax id c hc)
      nftCollections_pkey := (distinct_rows hmirror.nftCollections).mpr ?_
      nftCollections_symbol_unique := (distinct_rows hmirror.nftCollections).mpr ?_
      nfts := (forall_rows hmirror.nfts).mpr fun id n hn => nftRow_ok few wf fits hn
      nfts_pkey := (distinct_rows hmirror.nfts).mpr ?_
      nfts_collection := (forall_rows hmirror.nfts).mpr ?_
      nfts_collection_serial_unique := hserials.mpr hunique
      nftOperators := (forall_rows hmirror.nftOperators).mpr fun key o ho =>
        nftOperatorRow_ok few wf fits ho
      nftOperators_pkey := (distinct_rows hmirror.nftOperators).mpr ?_
      htlcs := (forall_rows hmirror.htlcs).mpr fun id x hx =>
        (htlcRow_ok_iff few wf fits hx).mpr (halgo id x hx)
      htlcs_pkey := (distinct_rows hmirror.htlcs).mpr ?_
      contracts := (forall_rows hmirror.contracts).mpr fun id c hc =>
        contractRow_ok few wf fits codeAvailable hc
      contracts_pkey := (distinct_rows hmirror.contracts).mpr ?_ }
    · intro i j c c' hc hc' heq
      rw [← (wf.tokens.collections i c hc).id_eq, ← (wf.tokens.collections j c' hc').id_eq]
      exact hids heq
    · intro i j c c' hc hc' heq
      have heq : c.symbol = c'.symbol := heq
      have hi := (wf.tokens.collections i c hc).by_symbol
      rw [heq, (wf.tokens.collections j c' hc').by_symbol] at hi
      exact (Option.some.inj hi).symm
    · intro i j n n' hn hn' heq
      rw [← (wf.tokens.nfts i n hn).id_eq, ← (wf.tokens.nfts j n' hn').id_eq]
      exact hids heq
    · intro i n hn
      obtain ⟨c, hc⟩ := wf.counts.home i n hn
      have hmem : c ∈ db.collections.values := mem_values.mpr ⟨_, hc⟩
      refine ⟨_, hmirror.nftCollections.mem_iff.mpr (List.mem_map_of_mem hmem), ?_⟩
      show ((c.id.toNat : ℕ) : ℤ) = n.collection.toNat
      rw [(wf.tokens.collections _ c hc).id_eq]
    · intro key key' o o' ho ho' heq
      obtain ⟨howner, hrest⟩ := Prod.mk.inj heq
      obtain ⟨hoperator, hcollection⟩ := Prod.mk.inj hrest
      rw [(wf.tokens.operators key o ho).key_eq, (wf.tokens.operators key' o' ho').key_eq]
      exact Prod.ext howner (Prod.ext hoperator (hids hcollection))
    · intro i j x x' hx hx' heq
      rw [← (wf.locks.locks i x hx).1.id_eq, ← (wf.locks.locks j x' hx').1.id_eq]
      exact hids heq
    · intro i j c c' hc hc' heq
      rw [← (wf.contracts.contracts i c hc).id_eq, ← (wf.contracts.contracts j c' hc').id_eq]
      exact hids heq

/-- A lock by a hash algorithm without a name. -/
def unnamedRun : List Step :=
  [ .apply (.htlcCreate
      { «from» := text "alice", «to» := text "bob", amount := ⟨5, .hive⟩
        preimageHash := ⟨.unknown 7 (by decide), List.replicate 20 0⟩, preimageSize := 32
        expiration := 3600 }),
    .createAccount (text "bob") 0 0,
    .createAccount (text "alice") 10 0 ]

theorem mirror_conforms_iff_unnamedRun :
    ¬ Conforms (newestFirst false (final {} unnamedRun)) := by
  have few : FewObjects (trace {} unnamedRun) :=
    { collections := by decide +kernel
      nfts := by decide +kernel
      locks := by decide +kernel
      contracts := by decide +kernel }
  intro h
  obtain ⟨-, halgo, -⟩ := (mirror_conforms_iff false {} unnamedRun few
    (mirrors_newestFirst false _)).mp h
  have hlock : ((final {} unnamedRun).htlcs[(1 : HtlcId)]?).map (·.preimageHash.algo) =
      some (.unknown 7 (by decide)) := by decide +kernel
  obtain ⟨x, hx, hodd⟩ := Option.map_eq_some_iff.mp hlock
  cases halgo 1 x hx with
  | inl hsha => cases hsha.symm.trans hodd
  | inr hripemd => cases hripemd.symm.trans hodd

end HiveNative.Haf
