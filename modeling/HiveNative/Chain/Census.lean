import HiveNative.Chain.WellFormed

/-!
# The census of a run

The tables hold what the successful operations of the run made and nothing else: as
many collections, locks and contracts as were created, as many live tokens as were minted
and not burned, as many redeemed and refunded locks as there were redeems and refunds, and
a storage for each contract (`census_of_run`).  No object appears without its operation,
none is lost, and no failed operation leaves one behind.
-/

namespace HiveNative.Chain

open Std (ExtTreeMap)
open EState OrderedMap

variable {tr : List Event} {e : Event} {db db' : Database}

/-! ## Kinds of steps -/

def Step.isNftBurn : Step → Bool
  | .apply (.nftBurn _) => true
  | _ => false

def Step.isHtlcRedeem : Step → Bool
  | .apply (.htlcRedeem _) => true
  | _ => false

def Step.isHtlcRefund : Step → Bool
  | .apply (.htlcRefund _) => true
  | _ => false

/-- The number of locks in a status. -/
def lockCount (db : Database) (status : HtlcStatus) : ℕ :=
  countOf (fun h : HtlcObject => h.status = status) db.htlcs

/-! ## The census -/

/-- The sizes of the tables against the successful operations. -/
structure Counts (tr : List Event) (db : Database) : Prop where
  collections : db.collections.size = created Step.isNftCreateCollection tr
  nfts : db.nfts.size + created Step.isNftBurn tr = created Step.isNftMint tr
  locks : db.htlcs.size = created Step.isHtlcCreate tr
  redeemed : lockCount db .redeemed = created Step.isHtlcRedeem tr
  refunded : lockCount db .refunded = created Step.isHtlcRefund tr
  contracts : db.contracts.size = created Step.isContractDeploy tr

/-- The tables against the successful operations.  Each contract has a storage, and no other
id has one. -/
structure Census (tr : List Event) (db : Database) : Prop extends Counts tr db where
  storages : ∀ id : ContractId, id ∈ db.contractStorage ↔ id ∈ db.contracts

theorem counts_empty (config : NodeConfig) : Counts [] (.empty config) := by
  refine ⟨?_, ?_, ?_, ?_, ?_, ?_⟩
  all_goals simp [Database.empty, lockCount, countOf, ExtTreeMap.toList_eq_nil_iff.mpr rfl]

/-- A step of another kind is not counted. -/
theorem created_of_label {kind : Step → Bool} {s : Step} (label : e.label = s)
    (h : kind s = false) : created kind (e :: tr) = created kind tr :=
  created_of_quiet tr fun _ => label ▸ h

/-- A step of the kind is counted when it succeeds. -/
theorem created_of_done {kind : Step → Bool} {s : Step} (done : Succeeded e) (label : e.label = s)
    (h : kind s = true) : created kind (e :: tr) = created kind tr + 1 :=
  created_of_kind tr done (label ▸ h)

/-! ## Tokens -/

/-- The part of the census about the tokens. -/
structure TokenCensus (tr : List Event) (db : Database) : Prop where
  collections : db.collections.size = created Step.isNftCreateCollection tr
  nfts : db.nfts.size + created Step.isNftBurn tr = created Step.isNftMint tr

theorem not_token_kind {s : Step} (h : s.isTokenOperation = false) :
    s.isNftCreateCollection = false ∧ s.isNftMint = false ∧ s.isNftBurn = false := by
  cases s with
  | createAccount name hive hbd => exact ⟨rfl, rfl, rfl⟩
  | setHeadTime t => exact ⟨rfl, rfl, rfl⟩
  | apply op => cases op <;> first | exact ⟨rfl, rfl, rfl⟩ | cases h

/-- The sizes stay, and the event is of no kind that is counted. -/
theorem TokenCensus.idle (h : TokenCensus tr e.before)
    (collections : e.after.collections.size = e.before.collections.size)
    (nfts : e.after.nfts.size = e.before.nfts.size)
    (quiet : Succeeded e → e.label.isNftCreateCollection = false ∧ e.label.isNftMint = false ∧
      e.label.isNftBurn = false) : TokenCensus (e :: tr) e.after := by
  refine ⟨?_, ?_⟩
  · rw [collections, created_of_quiet tr fun hs => (quiet hs).1, h.collections]
  · rw [nfts, created_of_quiet tr fun hs => (quiet hs).2.1,
      created_of_quiet tr fun hs => (quiet hs).2.2, h.nfts]

theorem size_decrementSupply (m : ExtTreeMap CollectionId NftCollectionObject) (id : CollectionId) :
    (decrementSupply m id).size = m.size := by
  unfold decrementSupply
  split
  · rfl
  · next c hc =>
      split
      · exact size_insert_old hc _
      · rfl

theorem tokenCensus_move (hm : TokenMove e) (wf : TokensInv tr e.before)
    (h : TokenCensus tr e.before) : TokenCensus (e :: tr) e.after := by
  cases hm with
  | idle same quiet =>
      exact h.idle (by rw [same.collections]) (by rw [same.nfts]) fun hs =>
        not_token_kind (quiet hs)
  | createCollection done label _ _ collections _ nfts _ _ _ =>
      refine ⟨?_, ?_⟩
      · rw [collections, size_insert_new wf.collections_allocated.fresh, h.collections,
          created_of_done done label rfl]
      · rw [nfts, created_of_label label rfl, created_of_label label rfl, h.nfts]
  | mint done label guards collections nfts _ _ _ =>
      refine ⟨?_, ?_⟩
      · rw [collections, size_insert_old guards.found, h.collections, created_of_label label rfl]
      · rw [nfts, size_insert_new wf.nfts_allocated.fresh, created_of_label label rfl,
          created_of_done done label rfl, ← h.nfts]
        omega
  | transfer done label guards collections nfts _ _ _ =>
      exact h.idle (by rw [collections]) (by rw [nfts, size_insert_old guards.found])
        fun _ => label ▸ ⟨rfl, rfl, rfl⟩
  | approve done label guards collections nfts _ _ _ =>
      exact h.idle (by rw [collections]) (by rw [nfts, size_insert_old guards.found])
        fun _ => label ▸ ⟨rfl, rfl, rfl⟩
  | setOperator done label guards collections nfts _ _ _ =>
      exact h.idle (by rw [collections]) (by rw [nfts]) fun _ => label ▸ ⟨rfl, rfl, rfl⟩
  | burn done label guards collections nfts _ _ _ =>
      refine ⟨?_, ?_⟩
      · rw [collections, size_decrementSupply, h.collections, created_of_label label rfl]
      · have hsize := size_erase_old guards.found
        rw [nfts, created_of_done done label rfl, created_of_label label rfl, ← h.nfts]
        omega

/-! ## Locks -/

/-- The part of the census about the locks. -/
structure LockCensus (tr : List Event) (db : Database) : Prop where
  locks : db.htlcs.size = created Step.isHtlcCreate tr
  redeemed : lockCount db .redeemed = created Step.isHtlcRedeem tr
  refunded : lockCount db .refunded = created Step.isHtlcRefund tr

theorem LockCensus.idle (h : LockCensus tr e.before) (htlcs : e.after.htlcs = e.before.htlcs)
    (quiet : Succeeded e → e.label.isHtlcCreate = false ∧ e.label.isHtlcRedeem = false ∧
      e.label.isHtlcRefund = false) : LockCensus (e :: tr) e.after := by
  refine ⟨?_, ?_, ?_⟩
  · rw [htlcs, created_of_quiet tr fun hs => (quiet hs).1, h.locks]
  · rw [lockCount, htlcs, created_of_quiet tr fun hs => (quiet hs).2.1, ← h.redeemed, lockCount]
  · rw [lockCount, htlcs, created_of_quiet tr fun hs => (quiet hs).2.2, ← h.refunded, lockCount]

/-- An open lock is settled: the count of its new status grows. -/
theorem lockCount_settle {id : HtlcId} {x : HtlcObject} {st : HtlcStatus}
    (found : db.htlcs[id]? = some x) (still_open : x.status = .open)
    (htlcs : db'.htlcs = db.htlcs.insert id { x with status := st }) {status : HtlcStatus}
    (hne : status ≠ .open) :
    lockCount db' status = lockCount db status + if st = status then 1 else 0 := by
  have hold := countOf_insert_old (fun h : HtlcObject => decide (h.status = status)) found
    { x with status := st }
  have hx : ¬ x.status = status := fun heq => hne (heq.symm.trans still_open)
  simp only [hx, decide_false, Bool.false_eq_true, if_false, Nat.add_zero,
    decide_eq_true_eq] at hold
  rw [lockCount, htlcs, hold, lockCount]

theorem LockCensus.create (h : LockCensus tr e.before) {op : HtlcCreateOperation}
    (done : Succeeded e) (label : e.label = .apply (.htlcCreate op))
    (fresh : e.before.htlcs[e.before.nextHtlcId]? = none)
    (htlcs : e.after.htlcs =
      e.before.htlcs.insert e.before.nextHtlcId (newHtlc e.before op)) :
    LockCensus (e :: tr) e.after := by
  have hcount (status : HtlcStatus) (hne : status ≠ .open) :
      lockCount e.after status = lockCount e.before status := by
    have hnew : ¬ (newHtlc e.before op).status = status := fun heq => hne heq.symm
    rw [lockCount, htlcs, countOf_insert_new _ fresh, lockCount]
    simp only [hnew, decide_false, Bool.false_eq_true, if_false, Nat.add_zero]
  refine ⟨?_, ?_, ?_⟩
  · rw [htlcs, size_insert_new fresh, h.locks, created_of_done done label rfl]
  · rw [hcount _ (by decide), h.redeemed, created_of_label label rfl]
  · rw [hcount _ (by decide), h.refunded, created_of_label label rfl]

theorem lockCensus_step (fresh : db.htlcs[db.nextHtlcId]? = none) (s : Step)
    (h : LockCensus tr db) : LockCensus (Machine.event exec db s :: tr) (exec s db).2 := by
  cases event_cases db s with
  | inr hfail =>
      obtain ⟨x, ho, hfail⟩ := hfail
      refine LockCensus.idle h (program_error_funds hfail).htlcs fun hs => ?_
      rw [Succeeded, ho] at hs
      cases hs
  | inl hok =>
      obtain ⟨hs, hok⟩ := hok
      cases s with
      | createAccount name hive hbd =>
          obtain ⟨-, hdb⟩ := createAccount_ok.mp hok
          exact LockCensus.idle h (by rw [hdb]; rfl) fun _ => ⟨rfl, rfl, rfl⟩
      | setHeadTime t => exact LockCensus.idle h rfl fun _ => ⟨rfl, rfl, rfl⟩
      | apply op =>
          have hframe : Framed op db _ := apply_frame hok
          cases op with
          | htlcCreate op =>
              obtain ⟨b, hg, hdb⟩ := applyHtlcCreate_ok.mp hok
              exact LockCensus.create h hs rfl fresh (by rw [hdb]; rfl)
          | htlcRedeem op =>
              obtain ⟨x, b, hg, hdb⟩ := applyHtlcRedeem_ok.mp hok
              have htlcs : (exec (.apply (.htlcRedeem op)) db).2.htlcs = db.htlcs.insert _ _ :=
                congrArg Database.htlcs hdb
              refine ⟨?_, ?_, ?_⟩
              · rw [htlcs, size_insert_old hg.found, h.locks, created_of_label rfl rfl]
              · rw [lockCount_settle hg.found hg.still_open htlcs (by decide), h.redeemed,
                  created_of_done hs rfl rfl]
                rfl
              · rw [lockCount_settle hg.found hg.still_open htlcs (by decide), h.refunded,
                  created_of_label rfl rfl]
                rfl
          | htlcRefund op =>
              obtain ⟨x, b, hg, hdb⟩ := applyHtlcRefund_ok.mp hok
              have htlcs : (exec (.apply (.htlcRefund op)) db).2.htlcs = db.htlcs.insert _ _ :=
                congrArg Database.htlcs hdb
              refine ⟨?_, ?_, ?_⟩
              · rw [htlcs, size_insert_old hg.found, h.locks, created_of_label rfl rfl]
              · rw [lockCount_settle hg.found hg.still_open htlcs (by decide), h.redeemed,
                  created_of_label rfl rfl]
                rfl
              · rw [lockCount_settle hg.found hg.still_open htlcs (by decide), h.refunded,
                  created_of_done hs rfl rfl]
                rfl
          | _ =>
              exact LockCensus.idle h (hframe.funds fun h => by cases h).htlcs
                fun _ => ⟨rfl, rfl, rfl⟩

/-! ## Contracts -/

theorem size_contracts_move (hm : ContractsMove e) (wf : ContractsWf tr e.before)
    (h : e.before.contracts.size = created Step.isContractDeploy tr) :
    e.after.contracts.size = created Step.isContractDeploy (e :: tr) := by
  cases hm with
  | idle same quiet => rw [same.contracts, created_of_quiet tr quiet, h]
  | deploy done label guards contracts contractStorage next =>
      rw [contracts, size_insert_new wf.allocated.fresh, h, created_of_done done label rfl]
  | call done label guards contracts contractStorage next =>
      rw [contracts, created_of_label label rfl, h]

/-! ## Main result -/

theorem counts_step (wf : RunWf tr db) (s : Step) (h : Counts tr db) :
    Counts (Machine.event exec db s :: tr) (exec s db).2 := by
  have htokens := tokenCensus_move (tokenMove db s) wf.counts ⟨h.collections, h.nfts⟩
  have hlocks := lockCensus_step wf.locks.allocated.fresh s ⟨h.locks, h.redeemed, h.refunded⟩
  have hcontracts := size_contracts_move (contractsMove s wf.contracts.hasStorage) wf.contracts
    h.contracts
  exact { collections := htokens.collections, nfts := htokens.nfts, locks := hlocks.locks
          redeemed := hlocks.redeemed, refunded := hlocks.refunded, contracts := hcontracts }

theorem counts_run (config : NodeConfig) (steps : List Step)
    (hcounted : Counted (trace config steps)) :
    Counts (trace config steps) (final config steps) := by
  induction steps with
  | nil => exact counts_empty config
  | cons s steps ih =>
      exact counts_step (runWf_run config steps hcounted.tail) s (ih hcounted.tail)

/-- After every run the tables hold what the successful operations made and left, and
exactly the contracts have a storage. -/
theorem census_of_run (config : NodeConfig) (steps : List Step)
    (hcounted : Counted (trace config steps)) :
    Census (trace config steps) (final config steps) :=
  { counts_run config steps hcounted with
    storages := (runWf_run config steps hcounted).contracts.storage }

/-- Two tokens are minted, one is burned and burned again, and a contract is deployed. -/
def burnTwiceRun : List Step :=
  [ .apply (.contractDeploy { owner := text "alice", code := [1, 2, 3], fuelLimit := 1000 }),
    .apply (.nftBurn { owner := text "alice", nftId := 1 }),
    .apply (.nftBurn { owner := text "alice", nftId := 1 }),
    .apply (.nftMint { creator := text "alice", collection := 1, «to» := text "alice" }),
    .apply (.nftMint { creator := text "alice", collection := 1, «to» := text "alice" }),
    .apply (.nftCreateCollection
      { creator := text "alice", symbol := text "ART", name := text "Art" }),
    .createAccount (text "alice") 0 0 ]

theorem census_of_run_burnTwiceRun :
    Census (trace {} burnTwiceRun) (final {} burnTwiceRun) ∧
      (final {} burnTwiceRun).nfts.size = 1 ∧ 1 ∈ (final {} burnTwiceRun).contractStorage := by
  have hcounted : Counted (trace {} burnTwiceRun) :=
    { nfts := by decide +kernel
      collections := by decide +kernel
      locks := by decide +kernel
      contracts := by decide +kernel }
  have hcensus := census_of_run {} burnTwiceRun hcounted
  have hminted : created Step.isNftMint (trace {} burnTwiceRun) = 2 := by decide +kernel
  have hburned : created Step.isNftBurn (trace {} burnTwiceRun) = 1 := by decide +kernel
  have hdeployed : 1 ∈ (final {} burnTwiceRun).contracts := by decide +kernel
  refine ⟨hcensus, ?_, (hcensus.storages 1).mpr hdeployed⟩
  have hnfts := hcensus.nfts
  rw [hminted, hburned] at hnfts
  omega

end HiveNative.Chain
