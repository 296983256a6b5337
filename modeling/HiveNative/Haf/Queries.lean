import HiveNative.Api.Listing
import HiveNative.Haf.Tables

/-!
# The queries behind the API

`docs/swarm/07-haf-api.md` names for each query of the API the table or view it reads and
the SQL it stands for: `hive.nfts` in full and `hive.nfts_light` in light mode, with
`WHERE owner = $1 AND id >= $2 ORDER BY id LIMIT $3` for a list.

The portable library answers from its maps instead.  On tables that mirror the database,
with the rows in any order, the two give the same rows (`api_answers_queries`).  So the
light mode leaves out the column that the view leaves out and no other, and the loop that
stops at the limit needs no sorting.
-/

namespace HiveNative.Haf

open Std (ExtTreeMap)
open Chain Api OrderedMap Selection

/-! ## Views and queries -/

/-- `hive.nfts_light` -/
def Tables.nftsLight (t : Tables) : List NftLightRow := t.nfts.map NftRow.light

/-- `hive.htlcs_light` -/
def Tables.htlcsLight (t : Tables) : List HtlcLightRow := t.htlcs.map HtlcRow.light

/-- `hive.contracts_light` -/
def Tables.contractsLight (t : Tables) : List ContractRow := t.contracts.map ContractRow.light

/-- `hive.htlcs_open` -/
def Tables.htlcsOpen (t : Tables) : List HtlcRow := t.htlcs.filter fun r => r.status = 0

/-- `WHERE wanted AND id >= start ORDER BY id LIMIT limit` -/
def page {R : Type} (wanted : R → Bool) (id : R → ℤ) (start : ℤ) (limit : ℕ) (rows : List R) :
    List R :=
  select (fun r => wanted r && start ≤ id r) id limit rows

theorem page_filter {R : Type} (shown wanted : R → Bool) (id : R → ℤ) (start : ℤ) (limit : ℕ)
    (rows : List R) :
    page wanted id start limit (rows.filter shown) =
      page (fun r => shown r && wanted r) id start limit rows := by
  have hsame : (rows.filter shown).filter (fun r => wanted r && start ≤ id r) =
      rows.filter fun r => (shown r && wanted r) && start ≤ id r := by
    rw [List.filter_filter]
    refine List.filter_congr fun r _ => ?_
    rw [Bool.and_comm, Bool.and_assoc]
  unfold page select
  rw [hsame]

/-- The rows of a list method are a page of its table in full mode.  In light mode they are
a page of the light view, with nothing in the column that the view leaves out. -/
def ListAnswers {V R L : Type} (list : ListArgs → List V) (row : V → R) (bare : L → R)
    (full : ℤ → ℕ → List R) (view : ℤ → ℕ → List L) : Prop :=
  ∀ (start : UInt64) (limit : UInt32),
    (list ⟨start, limit, false⟩).map row = full start.toNat (clampLimit limit).toNat ∧
      (list ⟨start, limit, true⟩).map row =
        (view start.toNat (clampLimit limit).toNat).map bare

/-- The row of a single object is the one row of its table, or of the light view. -/
def FindAnswers {V R L : Type} (get : Bool → Option V) (row : V → R) (bare : L → R)
    (full : List R) (view : List L) : Prop :=
  ((get false).map row).toList = full ∧ ((get true).map row).toList = view.map bare

/-- How the objects of a table are shown: a light object has the row of the light view, with
nothing in the column that it leaves out, and the row keeps the id. -/
structure RowsOf {V R L : Type} (id : V → UInt64) (lighten : V → Bool → V) (row : V → R)
    (light : R → L) (bare : L → R) (key : R → ℤ) (keyL : L → ℤ) : Prop where
  key_row : ∀ v, key (row v) = (id v).toNat
  key_light : ∀ r, keyL (light r) = key r
  full : ∀ v, row (lighten v false) = row v
  lightened : ∀ v, row (lighten v true) = bare (light (row v))

theorem nftRows : RowsOf NftObject.id maybeLightNft nftRow NftRow.light NftLightRow.withoutUri
    NftRow.id NftLightRow.id :=
  ⟨fun _ => rfl, fun _ => rfl, fun _ => rfl, fun _ => rfl⟩

theorem htlcRows : RowsOf HtlcObject.id maybeLightHtlc htlcRow HtlcRow.light
    HtlcLightRow.withoutMemo HtlcRow.id HtlcLightRow.id :=
  ⟨fun _ => rfl, fun _ => rfl, fun _ => rfl, fun _ => rfl⟩

/-- A row of a contract has no code to leave out. -/
theorem contractRows (codeAvailable : Bool) :
    RowsOf ContractObject.id maybeLightContract (contractRow codeAvailable) ContractRow.light
      (fun r => r) ContractRow.id ContractRow.id :=
  ⟨fun _ => rfl, fun _ => rfl, fun _ => rfl, fun _ => rfl⟩

section Answers

variable {V R L : Type} {m : ExtTreeMap UInt64 V} {id : V → UInt64} {row : V → R} {light : R → L}
  {bare : L → R} {lighten : V → Bool → V} {key : R → ℤ} {keyL : L → ℤ} {table : List R}

/-- The light view of a table holds the light rows. -/
theorem light_perm (htable : table.Perm (m.values.map row)) :
    (table.map light).Perm (m.values.map fun v => light (row v)) := by
  have hmapped := htable.map light
  rwa [List.map_map] at hmapped

/-! ## Single objects -/

/-- A query that chooses one object at most has its row, if it is there. -/
theorem rows_filter {objects : List V} (hnodup : objects.Nodup) {chosen : R → Bool}
    {found : Option V} (hfound : ∀ v, v ∈ found ↔ v ∈ objects ∧ chosen (row v) = true)
    (htable : table.Perm (objects.map row)) :
    table.filter chosen = (found.map row).toList := by
  have hsame : (objects.filter fun v => chosen (row v)).Perm found.toList := by
    refine (List.perm_ext_iff_of_nodup (hnodup.filter _) ?_).mpr fun v => ?_
    · cases found with
      | none => exact List.nodup_nil
      | some v => exact List.nodup_singleton v
    · rw [List.mem_filter, Option.mem_toList]
      exact (hfound v).symm
  have hperm : (table.filter chosen).Perm (found.map row).toList := by
    rw [Option.toList_map]
    refine (htable.filter chosen).trans ?_
    rw [List.filter_map]
    exact hsame.map row
  cases found with
  | none => exact hperm.eq_nil
  | some v => exact List.perm_singleton.mp hperm

/-- The objects of a table whose keys are their ids are listed once. -/
theorem values_nodup (hkeys : ∀ (k : UInt64) (v : V), m[k]? = some v → id v = k) :
    m.values.Nodup :=
  (ascending_values hkeys).imp fun hlt heq => hlt.ne (congrArg (fun v => (id v).toNat) heq)

/-- `WHERE id = $1` on the rows of the objects -/
theorem rows_filter_id (hkeys : ∀ (k : UInt64) (v : V), m[k]? = some v → id v = k)
    (hkey : ∀ v, key (row v) = (id v).toNat) (htable : table.Perm (m.values.map row))
    (k : UInt64) : table.filter (fun r => key r = (k.toNat : ℤ)) = (m[k]?.map row).toList := by
  refine rows_filter (values_nodup hkeys) (fun v => ?_) htable
  rw [decide_eq_true_eq, hkey, Nat.cast_inj, UInt64.toNat_inj, mem_values, Option.mem_def]
  constructor
  · intro hv
    exact ⟨⟨k, hv⟩, hkeys k v hv⟩
  · intro h
    obtain ⟨⟨k', hv⟩, hid⟩ := h
    rw [← hid, hkeys k' v hv]
    exact hv

/-- A single object that is found by its id. -/
theorem findAnswers_id (hrows : RowsOf id lighten row light bare key keyL)
    (hkeys : ∀ (k : UInt64) (v : V), m[k]? = some v → id v = k)
    (htable : table.Perm (m.values.map row)) (k : UInt64) :
    FindAnswers (fun b => m[k]?.map (lighten · b)) row bare
      (table.filter fun r => key r = (k.toNat : ℤ))
      ((table.map light).filter fun r => keyL r = (k.toNat : ℤ)) := by
  refine ⟨?_, ?_⟩
  · rw [rows_filter_id hkeys hrows.key_row htable, Option.map_map]
    exact congrArg (fun f => (m[k]?.map f).toList) (funext hrows.full)
  · have hkeyL (v : V) : keyL (light (row v)) = (id v).toNat :=
      (hrows.key_light (row v)).trans (hrows.key_row v)
    rw [rows_filter_id hkeys hkeyL (light_perm htable), ← Option.toList_map, Option.map_map,
      Option.map_map]
    exact congrArg (fun f => (m[k]?.map f).toList) (funext hrows.lightened)

/-! ## Lists -/

/-- A page of the loop is a page of the query, on the rows in any order, when the loop makes
of an object what the query makes of its row. -/
theorem scan_map_row {R' : Type} {shown : V → R'} {seen : R → R'} {mask : V → V}
    (hkeys : ∀ (k : UInt64) (v : V), m[k]? = some v → id v = k)
    (hkey : ∀ v, key (row v) = (id v).toNat) (hmask : ∀ v, shown (mask v) = seen (row v))
    {wanted skip : V → Bool} {chosen : R → Bool} (start : UInt64) (limit : UInt32)
    (hskip : ∀ x, skip x = false ↔ wanted x = true ∧ ¬ id x < start)
    (hchosen : ∀ v, chosen (row v) = wanted v) (htable : table.Perm (m.values.map row)) :
    (scan skip mask (clampLimit limit) [] m.values).map shown =
      (page chosen key start.toNat (clampLimit limit).toNat table).map seen := by
  have hasc : Ascending (fun v => ((id v).toNat : ℤ)) m.values :=
    (ascending_values hkeys).imp fun hlt => Nat.cast_lt.mpr hlt
  have hwanted : ∀ v ∈ m.values, (chosen (row v) && decide ((start.toNat : ℤ) ≤ key (row v))) =
      (decide (start.toNat ≤ (id v).toNat) && wanted v) := by
    intro v _
    rw [hchosen, hkey, Bool.and_comm]
    exact congrArg (· && wanted v) (decide_eq_decide.mpr Nat.cast_le)
  rw [scan_page wanted start limit hskip, List.map_map, List.filter_filter, page,
    select_rows hasc htable hkey hwanted, List.map_map]
  exact congrArg (fun f => List.map f _) (funext hmask)

/-- What a list method passes over: an object that it is not asked for, or that is before
the start. -/
theorem not_skipped_iff {wanted before : Prop} [Decidable wanted] [Decidable before] :
    decide (¬ wanted ∨ before) = false ↔ decide wanted = true ∧ ¬ before := by
  rw [decide_eq_false_iff_not, not_or, not_not, decide_eq_true_eq]

/-- A list method that runs the loop over the objects answers like the queries. -/
theorem listAnswers_scan (hrows : RowsOf id lighten row light bare key keyL)
    (hkeys : ∀ (k : UInt64) (v : V), m[k]? = some v → id v = k)
    (htable : table.Perm (m.values.map row)) {wanted : V → Bool} (chosen : R → Bool)
    (chosenL : L → Bool) (hchosen : ∀ v, chosen (row v) = wanted v)
    (hchosenL : ∀ r, chosenL (light r) = chosen r) {skip : UInt64 → V → Bool}
    (hskip : ∀ start x, skip start x = false ↔ wanted x = true ∧ ¬ id x < start) :
    ListAnswers
      (fun args => scan (skip args.start) (lighten · args.light) (clampLimit args.limit) []
        m.values) row bare
      (fun start limit => page chosen key start limit table)
      (fun start limit => page chosenL keyL start limit (table.map light)) := by
  intro start limit
  refine ⟨Eq.trans ?_ (List.map_id' _), ?_⟩
  · exact scan_map_row hkeys hrows.key_row hrows.full start limit (hskip start) hchosen htable
  · exact scan_map_row hkeys (fun v => (hrows.key_light (row v)).trans (hrows.key_row v))
      hrows.lightened start limit (hskip start)
      (fun v => (hchosenL (row v)).trans (hchosen v)) (light_perm htable)

end Answers

/-! ## Main result -/

/-- The node answers the queries of every feature. -/
structure ShowsAll (config : NodeConfig) : Prop where
  tokens : config.nftSkipState = false
  locks : config.htlcSkipState = false
  contracts : config.contractsSkip = false

/-- The API answers each of its queries as the tables do. -/
structure ApiAnswers (codeAvailable : Bool) (db : Database) (t : Tables) : Prop where
  nft : ∀ id : NftId, FindAnswers (getNft db id ·) nftRow NftLightRow.withoutUri
    (t.nfts.filter fun r => r.id = (id.toNat : ℤ))
    (t.nftsLight.filter fun r => r.id = (id.toNat : ℤ))
  collection : ∀ id : CollectionId, ((getNftCollection db id).map nftCollectionRow).toList =
    t.nftCollections.filter fun r => r.id = (id.toNat : ℤ)
  collection_by_symbol : ∀ symbol : Bytes,
    ((getNftCollectionBySymbol db symbol).map nftCollectionRow).toList =
      t.nftCollections.filter fun r => r.symbol = symbol
  nfts_by_owner : ∀ owner : AccountName,
    ListAnswers (listNftsByOwner db owner) nftRow NftLightRow.withoutUri
      (fun start limit => page (·.owner = owner) NftRow.id start limit t.nfts)
      (fun start limit => page (·.owner = owner) NftLightRow.id start limit t.nftsLight)
  nfts_by_collection : ∀ c : CollectionId,
    ListAnswers (listNftsByCollection db c) nftRow NftLightRow.withoutUri
      (fun start limit => page (·.collectionId = (c.toNat : ℤ)) NftRow.id start limit t.nfts)
      (fun start limit =>
        page (·.collectionId = (c.toNat : ℤ)) NftLightRow.id start limit t.nftsLight)
  htlc : ∀ id : HtlcId, FindAnswers (getHtlc db id ·) htlcRow HtlcLightRow.withoutMemo
    (t.htlcs.filter fun r => r.id = (id.toNat : ℤ))
    (t.htlcsLight.filter fun r => r.id = (id.toNat : ℤ))
  htlcs_by_from : ∀ source : AccountName,
    ListAnswers (listHtlcsByFrom db source) htlcRow HtlcLightRow.withoutMemo
      (fun start limit => page (·.fromAccount = source) HtlcRow.id start limit t.htlcs)
      (fun start limit => page (·.fromAccount = source) HtlcLightRow.id start limit t.htlcsLight)
  htlcs_by_to : ∀ dest : AccountName,
    ListAnswers (listHtlcsByTo db dest) htlcRow HtlcLightRow.withoutMemo
      (fun start limit => page (·.toAccount = dest) HtlcRow.id start limit t.htlcs)
      (fun start limit => page (·.toAccount = dest) HtlcLightRow.id start limit t.htlcsLight)
  htlcs_by_expiration : ∀ least : TimePointSec,
    ListAnswers (listHtlcsByExpiration db least) htlcRow HtlcLightRow.withoutMemo
      (fun start limit => page (least ≤ ·.expiration) HtlcRow.id start limit t.htlcsOpen)
      (fun start limit =>
        page (least ≤ ·.expiration) HtlcLightRow.id start limit (t.htlcsOpen.map HtlcRow.light))
  contract : ∀ id : ContractId,
    FindAnswers (getContract db id ·) (contractRow codeAvailable) (fun r => r)
      (t.contracts.filter fun r => r.id = (id.toNat : ℤ))
      (t.contractsLight.filter fun r => r.id = (id.toNat : ℤ))
  contract_code : ∀ (id : ContractId), ∀ c ∈ getContract db id true, c.code = []
  contracts_by_owner : ∀ (owner : AccountName) (start : UInt64) (limit : UInt32) (light : Bool),
    (listContractsByOwner db owner ⟨start, limit, light⟩).map (contractRow codeAvailable) =
      page (·.owner = owner) ContractRow.id start.toNat (clampLimit limit).toNat t.contracts
  contracts_code : ∀ (owner : AccountName) (args : ListArgs),
    ∀ c ∈ listContractsByOwner db owner args, c.code = []

theorem code_getContract {db : Database} {id : ContractId} {c : ContractObject}
    (h : c ∈ getContract db id true) : c.code = [] := by
  unfold getContract at h
  split at h
  · cases h
  · obtain ⟨x, -, rfl⟩ := Option.map_eq_some_iff.mp h
    rfl

theorem code_listContractsByOwner {db : Database} {owner : AccountName} {args : ListArgs}
    {c : ContractObject} (h : c ∈ listContractsByOwner db owner args) : c.code = [] := by
  unfold listContractsByOwner at h
  split at h
  · cases h
  · rcases mem_scan h with hnil | ⟨x, -, -, rfl⟩
    · cases hnil
    · rfl

/-- After every run the API answers from its maps what the documented queries answer from
tables that mirror the database. -/
theorem api_answers_queries (codeAvailable : Bool) (config : NodeConfig) (steps : List Step)
    (hcounted : Counted (trace config steps)) (hshown : ShowsAll config) {t : Tables}
    (hmirror : Mirrors codeAvailable (final config steps) t) :
    ApiAnswers codeAvailable (final config steps) t := by
  have wf : RunWf (trace config steps) (final config steps) := runWf_run config steps hcounted
  have hconfig : (final config steps).config = config := config_run config steps
  generalize final config steps = db at *
  subst hconfig
  have hcollections (k : UInt64) (c : NftCollectionObject) (hc : db.collections[k]? = some c) :
      c.id = k := (wf.tokens.collections k c hc).id_eq
  have hnfts (k : UInt64) (n : NftObject) (hn : db.nfts[k]? = some n) : n.id = k :=
    (wf.tokens.nfts k n hn).id_eq
  have hlocks (k : UInt64) (h : HtlcObject) (hh : db.htlcs[k]? = some h) : h.id = k :=
    (wf.locks.locks k h hh).1.id_eq
  have hcontracts (k : UInt64) (c : ContractObject) (hc : db.contracts[k]? = some c) : c.id = k :=
    (wf.contracts.contracts k c hc).id_eq
  refine ⟨fun id => ?_, fun id => ?_, fun symbol => ?_, fun owner => ?_, fun c => ?_, fun id => ?_,
    fun source => ?_, fun dest => ?_, fun least => ?_, fun id => ?_,
    fun _ _ hc => code_getContract hc, fun owner start limit light => ?_,
    fun _ _ _ hc => code_listContractsByOwner hc⟩
  · unfold getNft
    rw [hshown.tokens]
    exact findAnswers_id nftRows hnfts hmirror.nfts id
  · unfold getNftCollection
    rw [hshown.tokens]
    have hkey (c : NftCollectionObject) : (nftCollectionRow c).id = c.id.toNat := rfl
    exact (rows_filter_id hcollections hkey hmirror.nftCollections id).symm
  · refine (rows_filter (values_nodup hcollections) (fun c => ?_) hmirror.nftCollections).symm
    rw [Option.mem_def, wf.tokens.found_iff, decide_eq_true_eq, mem_values, and_comm]
    rfl
  · unfold listNftsByOwner
    rw [hshown.tokens]
    exact listAnswers_scan nftRows hnfts hmirror.nfts (·.owner = owner) (·.owner = owner)
      (fun _ => rfl) (fun _ => rfl)
      fun _ _ => not_skipped_iff
  · unfold listNftsByCollection
    rw [hshown.tokens]
    exact listAnswers_scan nftRows hnfts hmirror.nfts (·.collectionId = (c.toNat : ℤ))
      (·.collectionId = (c.toNat : ℤ))
      (fun _ => decide_eq_decide.mpr (Nat.cast_inj.trans UInt64.toNat_inj)) (fun _ => rfl)
      fun _ _ => not_skipped_iff
  · unfold getHtlc
    rw [hshown.locks]
    exact findAnswers_id htlcRows hlocks hmirror.htlcs id
  · unfold listHtlcsByFrom
    rw [hshown.locks]
    exact listAnswers_scan htlcRows hlocks hmirror.htlcs (·.fromAccount = source)
      (·.fromAccount = source) (fun _ => rfl) (fun _ => rfl)
      fun _ _ => not_skipped_iff
  · unfold listHtlcsByTo
    rw [hshown.locks]
    exact listAnswers_scan htlcRows hlocks hmirror.htlcs (·.toAccount = dest)
      (·.toAccount = dest) (fun _ => rfl) (fun _ => rfl)
      fun _ _ => not_skipped_iff
  · unfold listHtlcsByExpiration
    rw [hshown.locks]
    have hskip (start : UInt64) (h : HtlcObject) :
        decide (h.expiration < least ∨ h.id < start ∨ h.status ≠ HtlcStatus.open) = false ↔
          (decide (h.status = HtlcStatus.open) && decide (least ≤ h.expiration)) = true ∧
            ¬ h.id < start := by
      rw [decide_eq_false_iff_not, Bool.and_eq_true, decide_eq_true_eq, decide_eq_true_eq]
      simp only [not_or, not_not, UInt32.not_lt]
      tauto
    have hopen (h : HtlcObject) :
        decide ((htlcRow h).status = 0) = decide (h.status = HtlcStatus.open) := by
      obtain ⟨_, _, _, _, _, _, _, _, _, status⟩ := h
      cases status <;> rfl
    have hanswers := listAnswers_scan htlcRows hlocks hmirror.htlcs
      (fun r => decide (r.status = 0) && decide (least ≤ r.expiration))
      (fun r => decide (r.status = 0) && decide (least ≤ r.expiration))
      (fun h => congrArg (· && _) (hopen h)) (fun _ => rfl) hskip
    intro start limit
    obtain ⟨hfull, hlight⟩ := hanswers start limit
    have hview : t.htlcsOpen.map HtlcRow.light =
        (t.htlcs.map HtlcRow.light).filter fun r => r.status = 0 := by
      rw [List.filter_map]
      rfl
    refine ⟨hfull.trans (page_filter _ _ _ _ _ _).symm, hlight.trans (congrArg (List.map _) ?_)⟩
    rw [hview]
    exact (page_filter _ _ _ _ _ _).symm
  · unfold getContract
    rw [hshown.contracts]
    exact findAnswers_id (contractRows codeAvailable) hcontracts hmirror.contracts id
  · unfold listContractsByOwner
    rw [hshown.contracts]
    have hkey (c : ContractObject) : (contractRow codeAvailable c).id = c.id.toNat := rfl
    refine Eq.trans ?_ (List.map_id' _)
    exact scan_map_row hcontracts hkey (contractRows codeAvailable).lightened start limit
      (fun _ => not_skipped_iff) (fun _ => rfl) hmirror.contracts

/-- The second page of alice's tokens after `burnRun`. -/
theorem api_answers_queries_burnRun :
    let db := final {} burnRun
    let t := newestFirst false db
    ApiAnswers false db t ∧ t.nfts.map NftRow.id = [3, 2] ∧
      (page (·.owner = text "alice") NftLightRow.id 3 1 t.nftsLight).map NftLightRow.id = [3] := by
  have hcounted : Counted (trace {} burnRun) :=
    ⟨⟨by decide +kernel, by decide +kernel⟩, by decide +kernel, by decide +kernel⟩
  refine ⟨api_answers_queries false {} burnRun hcounted ⟨rfl, rfl, rfl⟩
    (mirrors_newestFirst false _), by decide +kernel, by decide +kernel⟩

end HiveNative.Haf
