import HiveNative.Chain.AccountIndex
import HiveNative.Chain.Run
import HiveNative.Perf.FlatHashMapRefines
import HiveNative.Perf.Xxhash64

/-!
# The account cache is coherent

An index over a database is coherent along a run when every operation answers as
it does on an index whose cache stays off, and the databases agree.

`IndexOp.onDatabase` says what an operation is for, over the database alone.  The
table under the cache can hold a name twice: an insertion stops at a tombstone
and does not see the copy behind it.  Of the operations only `create` inserts a
name that may be cached already, and `Clobbers` says when it does so with a
tombstone on the way.  An index whose cache shows a part of the balances
(`Fresh`) keeps to `onDatabase` in every other step and stays fresh
(`program_alike`); an index with its cache off is a case of this.  After a
clobbering `create` the next `adjust_balance` of the name drops the new copy and
uncovers the old one (`stale_after_clobber`).
-/

namespace HiveNative.Chain

open Std (ExtTreeMap)
open EState OrderedMap OpenAddressing Perf

variable (hash : Bytes → UInt64)

/-! ## Coherence -/

/-- The same operation on an index whose cache stays off. -/
def IndexOp.uncached : IndexOp → IndexOp
  | .setCacheEnabled _ => .setCacheEnabled false
  | op => op

section Run

variable (db : Database) (enabled : Bool) (ops : List IndexOp)

/-- The index after a run.  The operations are listed newest first. -/
abbrev indexAfter : AccountIndex := Machine.final (execIndex hash) ⟨db, enabled, .new⟩ ops

/-- The index after the same run with the cache off. -/
abbrev uncachedAfter : AccountIndex :=
  Machine.final (execIndex hash) ⟨db, false, .new⟩ (ops.map IndexOp.uncached)

/-- Along the run every operation answers as it does without a cache, lookups give
what the database holds, and the databases are the same. -/
structure CacheCoherent : Prop where
  answers : ∀ op past, op :: past <:+ ops →
    (execIndex hash op (indexAfter hash db enabled past)).1 =
      (execIndex hash op.uncached (uncachedAfter hash db past)).1
  lookups : ∀ past name, past <:+ ops →
    (execIndex hash (.find name) (indexAfter hash db enabled past)).1 =
      .ok (.found (indexAfter hash db enabled past).db.balances[name]?)
  databases : ∀ past, past <:+ ops →
    (indexAfter hash db enabled past).db = (uncachedAfter hash db past).db

end Run

/-! ## What an operation is for -/

/-- The entry of the account in the balances. -/
def lookupBalance (name : AccountName) : Eval (Option AccountBalance) := do
  return (← get).balances[name]?

/-- The amount of the symbol in the entry of the account. -/
def lookupAmount (name : AccountName) (sym : AssetSymbol) : Eval ShareType := do
  match ← lookupBalance name with
  | none => throw (.threw (.protocolError "account missing"))
  | some b => return b.field sym

/-- The operation over the database alone. -/
def IndexOp.onDatabase : IndexOp → Eval IndexAnswer
  | .create name hive hbd => do
      createAccount name hive hbd
      return .done
  | .find name => return .found (← lookupBalance name)
  | .exists name => return .present (← lookupBalance name).isSome
  | .getBalance name sym => return .balance (← lookupAmount name sym)
  | .adjustBalance name delta => do
      Chain.adjustBalance name delta
      return .done
  | .setCacheEnabled _ => return .done
  | .clearCache => return .done

def execOnDatabase (op : IndexOp) (db : Database) : Except Stop IndexAnswer × Database :=
  match op.onDatabase db with
  | .ok a db' => (.ok a, db')
  | .error e db' => (.error e, db')

theorem execOnDatabase_uncached (op : IndexOp) (db : Database) :
    execOnDatabase op.uncached db = execOnDatabase op db := by
  cases op <;> rfl

/-- Whether the cache is on after the operation. -/
def IndexOp.leavesOn : IndexOp → Bool → Bool
  | .setCacheEnabled on, _ => on
  | _, on => on

theorem leavesOn_uncached (op : IndexOp) : op.uncached.leavesOn false = false := by
  cases op <;> rfl

/-! ## Fresh caches -/

/-- Every entry of `m` is an entry of the balances. -/
def PartOf (m : ExtTreeMap AccountName AccountBalance) (db : Database) : Prop :=
  ∀ (name : AccountName) (b : AccountBalance), m[name]? = some b → db.balances[name]? = some b

/-- The cache stands for the map `m`, which is a part of the balances and empty
while the cache is off. -/
structure Shows (idx : AccountIndex) (m : ExtTreeMap AccountName AccountBalance) : Prop where
  table : FlatHashMap.Simulates hash idx.cache.map m
  current : PartOf m idx.db
  idle : idx.cacheEnabled = false → m = ∅

/-- The cache shows a part of the balances. -/
def Fresh (idx : AccountIndex) : Prop := ∃ m, Shows hash idx m

/-- The index is fresh over this database, with its cache on or off. -/
structure Tracks (on : Bool) (idx : AccountIndex) (db : Database) : Prop where
  db_eq : idx.db = db
  enabled : idx.cacheEnabled = on
  fresh : Fresh hash idx

/-- The operation is a `create`, with the cache on, that stores a cached name a
second time: its insertion meets a tombstone before the slot of the name. -/
def Clobbers (idx : AccountIndex) : IndexOp → Prop
  | .create name _ _ =>
      idx.cacheEnabled = true ∧ ValidName name ∧ FlatHashMap.Clobbered hash idx.cache.map name
  | _ => False

variable {hash} {idx : AccountIndex} {m : ExtTreeMap AccountName AccountBalance} {db : Database}

theorem partOf_empty (db : Database) : PartOf ∅ db := by
  intro name b hb
  simp at hb

/-- Setting an entry on both sides. -/
theorem PartOf.insert (h : PartOf m db) (name : AccountName) (b : AccountBalance) :
    PartOf (m.insert name b) { db with balances := db.balances.insert name b } := by
  intro name' b' hb
  rw [getElem?_insert_eq] at hb ⊢
  by_cases hn : name' = name
  · simpa [hn] using hb
  · simp only [hn, if_false] at hb ⊢
    exact h name' b' hb

/-- Forgetting an entry before it changes. -/
theorem PartOf.erase (h : PartOf m db) (name : AccountName) (b : AccountBalance) :
    PartOf (m.erase name) { db with balances := db.balances.insert name b } := by
  intro name' b' hb
  rw [getElem?_erase_eq] at hb
  rw [getElem?_insert_eq]
  by_cases hn : name' = name
  · simp [hn] at hb
  · simp only [hn, if_false] at hb ⊢
    exact h name' b' hb

/-- Copying an entry of the balances. -/
theorem PartOf.fill (h : PartOf m db) {name : AccountName} {b : AccountBalance}
    (hb : db.balances[name]? = some b) : PartOf (m.insert name b) db := by
  intro name' b' hb'
  rw [getElem?_insert_eq] at hb'
  by_cases hn : name' = name
  · rw [if_pos hn] at hb'
    rw [hn, hb, hb']
  · simp only [hn, if_false] at hb'
    exact h name' b' hb'

theorem fresh_new (db : Database) (enabled : Bool) : Fresh hash ⟨db, enabled, .new⟩ :=
  ⟨∅, FlatHashMap.simulates_new hash 64, partOf_empty db, fun _ => rfl⟩

theorem Fresh.clear (h : Fresh hash idx) (on : Bool) :
    Fresh hash { idx with cacheEnabled := on, cache := idx.cache.clear } := by
  obtain ⟨m, hm⟩ := h
  exact ⟨∅, FlatHashMap.simulates_clear hm.table, partOf_empty idx.db, fun _ => rfl⟩

/-- A cache that is off has no say in a change of the database. -/
theorem Fresh.off (h : Fresh hash idx) (hoff : idx.cacheEnabled = false) (db : Database) :
    Fresh hash { idx with db := db } := by
  obtain ⟨m, hm⟩ := h
  have hempty := hm.idle hoff
  subst hempty
  exact ⟨∅, hm.table, partOf_empty db, fun _ => rfl⟩

theorem Fresh.sameBalances (h : Fresh hash idx) (hb : db.balances = idx.db.balances) :
    Fresh hash { idx with db := db } := by
  obtain ⟨m, hm⟩ := h
  refine ⟨m, hm.table, fun name b hmb => ?_, hm.idle⟩
  rw [hb]
  exact hm.current name b hmb

/-! ## The cache -/

/-- A lookup in the cache counts and leaves the table as it is. -/
theorem cacheFind_run (hash : Bytes → UInt64) (idx : AccountIndex) (name : AccountName) :
    ∃ c : AccountCache, c.map = idx.cache.map ∧
      cacheFind hash name idx = .ok (idx.cache.map.find hash name) { idx with cache := c } := by
  refine ⟨(idx.cache.find hash name).2, ?_, bind_ok.mpr ⟨idx, idx, rfl, ?_⟩⟩
  · rw [AccountCache.find]
    split
    · rfl
    · rfl
  · have hfst : (idx.cache.find hash name).1 = idx.cache.map.find hash name := by
      rw [AccountCache.find]
      split
      · next hb => exact hb.symm
      · next hb => exact hb.symm
    rw [← hfst]
    rfl

theorem cachePut_run (idx : AccountIndex) {name : AccountName} {b : AccountBalance}
    {isNew : Bool} {t : FlatHashMap AccountBalance}
    (h : idx.cache.map.insert hash name b = some (isNew, t)) :
    ∃ c : AccountCache, c.map = t ∧ cachePut hash name b idx = .ok () { idx with cache := c } := by
  refine ⟨{ idx.cache with map := t, inserts := idx.cache.inserts + 1 }, rfl,
    bind_ok.mpr ⟨idx, idx, rfl, ?_⟩⟩
  simp only [AccountCache.put, h]
  rfl

theorem invalidate_map (c : AccountCache) (name : AccountName) :
    (c.invalidate hash name).2.map = (c.map.erase hash name).2 := by
  rw [AccountCache.invalidate]
  split
  · next h => rw [h]
  · next h => rw [h]

theorem load_none {name : AccountName} (hb : idx.db.balances[name]? = none) :
    AccountIndex.load hash name idx = .ok none idx := by
  refine bind_ok.mpr ⟨idx, idx, rfl, ?_⟩
  simp only [hb]
  rfl

theorem load_off {name : AccountName} {b : AccountBalance} (hoff : idx.cacheEnabled = false)
    (hb : idx.db.balances[name]? = some b) :
    AccountIndex.load hash name idx = .ok (some b) idx := by
  refine bind_ok.mpr ⟨idx, idx, rfl, ?_⟩
  simp only [hb]
  refine bind_ok.mpr ⟨idx, idx, rfl, ?_⟩
  rw [if_neg (by simp [hoff])]
  rfl

theorem load_on {name : AccountName} {b : AccountBalance} {idx' : AccountIndex}
    (hon : idx.cacheEnabled = true) (hb : idx.db.balances[name]? = some b)
    (hput : cachePut hash name b idx = .ok () idx') :
    AccountIndex.load hash name idx = .ok (some b) idx' := by
  refine bind_ok.mpr ⟨idx, idx, rfl, ?_⟩
  simp only [hb]
  refine bind_ok.mpr ⟨idx, idx, rfl, ?_⟩
  rw [if_pos hon]
  exact bind_ok.mpr ⟨(), idx', hput, rfl⟩

/-- A lookup with the cache off reads the database. -/
theorem find_off (hoff : idx.cacheEnabled = false) (name : AccountName) :
    AccountIndex.find hash name idx = .ok idx.db.balances[name]? idx := by
  refine bind_ok.mpr ⟨idx, idx, rfl, ?_⟩
  rw [if_neg (by simp [hoff])]
  refine bind_ok.mpr ⟨none, idx, rfl, ?_⟩
  cases hb : idx.db.balances[name]? with
  | none => exact load_none hb
  | some b => exact load_off hoff hb

theorem find_hit {name : AccountName} {b : AccountBalance} {idx' : AccountIndex}
    (hon : idx.cacheEnabled = true) (hcache : cacheFind hash name idx = .ok (some b) idx') :
    AccountIndex.find hash name idx = .ok (some b) idx' := by
  refine bind_ok.mpr ⟨idx, idx, rfl, ?_⟩
  rw [if_pos hon]
  exact bind_ok.mpr ⟨some b, idx', hcache, rfl⟩

theorem find_miss {name : AccountName} {r : Option AccountBalance} {idx' idx'' : AccountIndex}
    (hon : idx.cacheEnabled = true) (hcache : cacheFind hash name idx = .ok none idx')
    (hload : AccountIndex.load hash name idx' = .ok r idx'') :
    AccountIndex.find hash name idx = .ok r idx'' := by
  refine bind_ok.mpr ⟨idx, idx, rfl, ?_⟩
  rw [if_pos hon]
  exact bind_ok.mpr ⟨none, idx', hcache, hload⟩

/-- A lookup with the cache on gives the entry of the database: what is cached is
current, and a name that is not cached is not stored, so that filling the cache
cannot store it twice. -/
theorem Shows.find_eq (h : Shows hash idx m) (hon : idx.cacheEnabled = true)
    (name : AccountName) :
    ∃ c : AccountCache, Fresh hash { idx with cache := c } ∧
      AccountIndex.find hash name idx = .ok idx.db.balances[name]? { idx with cache := c } := by
  obtain ⟨c, hc, hcache⟩ := cacheFind_run hash idx name
  have hlooked : Shows hash { idx with cache := c } m := by
    refine ⟨?_, h.current, h.idle⟩
    show FlatHashMap.Simulates hash c.map m
    rw [hc]
    exact h.table
  rw [h.table.find_eq name] at hcache
  cases hhit : m[name]? with
  | some b =>
      rw [hhit] at hcache
      rw [h.current name b hhit]
      exact ⟨c, ⟨m, hlooked⟩, find_hit hon hcache⟩
  | none =>
      rw [hhit] at hcache
      cases hb : idx.db.balances[name]? with
      | none => exact ⟨c, ⟨m, hlooked⟩, find_miss hon hcache (load_none hb)⟩
      | some b =>
          have hfree : ¬ FlatHashMap.Clobbered hash c.map name := by
            intro hclob
            obtain ⟨v, hv⟩ := hclob.2.1
            rw [(hlooked.table.stored name v).mp hv] at hhit
            cases hhit
          obtain ⟨t, hins, hsim⟩ := FlatHashMap.simulates_insert hlooked.table hfree b
          obtain ⟨c', rfl, hput⟩ := cachePut_run { idx with cache := c } hins
          refine ⟨c', ⟨m.insert name b, hsim, h.current.fill hb, fun hoff => ?_⟩, ?_⟩
          · simp [hon] at hoff
          · exact find_miss hon hcache (load_on hon hb hput)

/-- A lookup ends as the lookup in the database does. -/
theorem find_alike (h : Fresh hash idx) (name : AccountName) :
    Alike (Tracks hash idx.cacheEnabled) (AccountIndex.find hash name idx)
      (lookupBalance name idx.db) := by
  show Alike _ _ (.ok idx.db.balances[name]? idx.db)
  cases hon : idx.cacheEnabled with
  | false =>
      rw [find_off hon]
      exact ⟨rfl, rfl, hon, h⟩
  | true =>
      obtain ⟨m, hm⟩ := h
      obtain ⟨c, hfresh, hrun⟩ := hm.find_eq hon name
      rw [hrun]
      exact ⟨rfl, rfl, hon, hfresh⟩

/-! ## Writes through the index -/

/-- A write to the database that the cache, which is on, follows. -/
theorem writeThrough_on {x : Eval Unit} {follow : IndexM Unit} {idx' : AccountIndex}
    (hon : idx.cacheEnabled = true) (hrun : x idx.db = .ok () db)
    (hfollow : follow { idx with db := db } = .ok () idx') :
    (do onDb x; if (← get).cacheEnabled then follow : IndexM Unit) idx = .ok () idx' := by
  have hdone : onDb x idx = .ok () { idx with db := db } := by simp only [onDb, hrun]
  refine bind_ok.mpr ⟨(), _, hdone, bind_ok.mpr ⟨_, _, rfl, ?_⟩⟩
  rw [if_pos hon]
  exact hfollow

/-- A write to the database that the cache then follows, if it is on.  A write
that fails must leave the balances, and after one that finishes the change of the
cache must make it fresh again. -/
theorem writeThrough_alike (h : Fresh hash idx) {x : Eval Unit} {follow : IndexM Unit}
    (hfail : ∀ e db', x idx.db = .error e db' → db'.balances = idx.db.balances)
    (hfollow : ∀ db', x idx.db = .ok () db' → idx.cacheEnabled = true →
      ∃ c, follow { idx with db := db' } = .ok () { idx with db := db', cache := c } ∧
        Fresh hash { idx with db := db', cache := c }) :
    Alike (Tracks hash idx.cacheEnabled)
      ((do onDb x; if (← get).cacheEnabled then follow : IndexM Unit) idx) (x idx.db) := by
  cases hrun : x idx.db with
  | error e db' =>
      have hstop : (do onDb x; if (← get).cacheEnabled then follow : IndexM Unit) idx =
          .error e { idx with db := db' } :=
        bind_error.mpr (Or.inl (by simp only [onDb, hrun]))
      rw [hstop]
      exact ⟨rfl, rfl, rfl, h.sameBalances (hfail e db' hrun)⟩
  | ok u db' =>
      cases hon : idx.cacheEnabled with
      | false =>
          have hend : (do onDb x; if (← get).cacheEnabled then follow : IndexM Unit) idx =
              .ok () { idx with db := db' } := by
            have hdone : onDb x idx = .ok () { idx with db := db' } := by simp only [onDb, hrun]
            refine bind_ok.mpr ⟨(), _, hdone, bind_ok.mpr ⟨_, _, rfl, ?_⟩⟩
            rw [if_neg (by simp [hon])]
            rfl
          rw [hend]
          exact ⟨rfl, rfl, hon, h.off hon db'⟩
      | true =>
          obtain ⟨c, hrest, hfresh⟩ := hfollow db' hrun hon
          rw [writeThrough_on hon hrun hrest]
          exact ⟨rfl, rfl, hon, hfresh⟩

theorem create_alike (h : Fresh hash idx) {name : AccountName} {hive hbd : ShareType}
    (hno : ¬ Clobbers hash idx (.create name hive hbd)) :
    Alike (Tracks hash idx.cacheEnabled) (AccountIndex.create hash name hive hbd idx)
      (createAccount name hive hbd idx.db) := by
  refine writeThrough_alike h (fun e db' hrun => ?_) fun db' hrun hon => ?_
  · rw [(atomic_createAccount name hive hbd _ _ _ hrun).1]
  · obtain ⟨hvalid, hdb⟩ := createAccount_ok.mp hrun
    obtain ⟨m, hm⟩ := h
    obtain ⟨t, hins, hsim⟩ :=
      FlatHashMap.simulates_insert hm.table (fun hclob => hno ⟨hon, hvalid, hclob⟩) ⟨hive, hbd⟩
    obtain ⟨c, rfl, hput⟩ := cachePut_run { idx with db := db' } hins
    refine ⟨c, hput, m.insert name ⟨hive, hbd⟩, hsim, ?_, fun hoff => ?_⟩
    · rw [hdb]
      exact hm.current.insert name _
    · simp [hon] at hoff

theorem adjustBalance_alike (h : Fresh hash idx) (name : AccountName) (delta : Asset) :
    Alike (Tracks hash idx.cacheEnabled) (AccountIndex.adjustBalance hash name delta idx)
      (adjustBalance name delta idx.db) := by
  refine writeThrough_alike h (fun e db' hrun => ?_) fun db' hrun hon => ?_
  · rw [(adjustBalance_error.mp hrun).2]
  · obtain ⟨b, -, -, rfl⟩ := adjustBalance_ok.mp hrun
    obtain ⟨m, hm⟩ := h
    refine ⟨(idx.cache.invalidate hash name).2, rfl, m.erase name, ?_, hm.current.erase name _,
      fun hoff => ?_⟩
    · show FlatHashMap.Simulates hash (idx.cache.invalidate hash name).2.map _
      rw [invalidate_map]
      exact (FlatHashMap.simulates_erase hm.table name).2
    · simp [hon] at hoff

/-! ## One operation -/

/-- An operation on a fresh index that does not clobber ends as the operation on
the database does, and leaves a fresh index. -/
theorem program_alike (h : Fresh hash idx) {op : IndexOp} (hno : ¬ Clobbers hash idx op) :
    Alike (Tracks hash (op.leavesOn idx.cacheEnabled)) (op.program hash idx)
      (op.onDatabase idx.db) := by
  cases op with
  | create name hive hbd =>
      exact alike_bind (create_alike h hno) fun _ _ _ ht => alike_pure IndexAnswer.done ht
  | find name =>
      exact alike_bind (find_alike h name) fun b _ _ ht => alike_pure (IndexAnswer.found b) ht
  | «exists» name =>
      have hexists : Alike (Tracks hash idx.cacheEnabled) (AccountIndex.exists hash name idx)
          ((do return (← lookupBalance name).isSome : Eval Bool) idx.db) :=
        alike_bind (find_alike h name) fun b _ _ ht => alike_pure b.isSome ht
      exact alike_bind hexists fun b _ _ ht => alike_pure (IndexAnswer.present b) ht
  | getBalance name sym =>
      have hget : Alike (Tracks hash idx.cacheEnabled)
          (AccountIndex.getBalance hash name sym idx) (lookupAmount name sym idx.db) := by
        refine alike_bind (find_alike h name) fun b s t ht => ?_
        cases b with
        | none => exact alike_throw _ ht
        | some b => exact alike_pure (b.field sym) ht
      exact alike_bind hget fun x _ _ ht => alike_pure (IndexAnswer.balance x) ht
  | adjustBalance name delta =>
      exact alike_bind (adjustBalance_alike h name delta) fun _ _ _ ht =>
        alike_pure IndexAnswer.done ht
  | setCacheEnabled on =>
      cases on with
      | true =>
          obtain ⟨m, hm⟩ := h
          exact ⟨rfl, rfl, rfl, m, hm.table, hm.current, fun hoff => by cases hoff⟩
      | false => exact ⟨rfl, rfl, rfl, h.clear false⟩
  | clearCache => exact ⟨rfl, rfl, rfl, h.clear idx.cacheEnabled⟩

theorem execIndex_fresh (h : Fresh hash idx) {op : IndexOp} (hno : ¬ Clobbers hash idx op) :
    (execIndex hash op idx).1 = (execOnDatabase op idx.db).1 ∧
      Tracks hash (op.leavesOn idx.cacheEnabled) (execIndex hash op idx).2
        (execOnDatabase op idx.db).2 := by
  rw [execIndex, execOnDatabase]
  cases (program_alike h hno).ends with
  | inl hok =>
      obtain ⟨a, idx', db', hp, hd, ht⟩ := hok
      rw [hp, hd]
      exact ⟨rfl, ht⟩
  | inr herr =>
      obtain ⟨e, idx', db', hp, hd, ht⟩ := herr
      rw [hp, hd]
      exact ⟨rfl, ht⟩

/-- Without a cache nothing clobbers. -/
theorem not_clobbers_off (hoff : idx.cacheEnabled = false) (op : IndexOp) :
    ¬ Clobbers hash idx op := by
  intro hclob
  cases op with
  | create name hive hbd =>
      rw [hclob.1] at hoff
      cases hoff
  | _ => exact hclob.elim

/-! ## Whole runs -/

/-- The database after a run of the operations on it alone. -/
abbrev databaseAfter (db : Database) (ops : List IndexOp) : Database :=
  Machine.final execOnDatabase db ops

/-- A run without a clobbering `create` leaves a fresh index over the database
that the operations alone leave. -/
theorem indexAfter_fresh {enabled : Bool} {ops : List IndexOp}
    (h : ∀ op past, op :: past <:+ ops → ¬ Clobbers hash (indexAfter hash db enabled past) op) :
    (indexAfter hash db enabled ops).db = databaseAfter db ops ∧
      Fresh hash (indexAfter hash db enabled ops) := by
  induction ops with
  | nil => exact ⟨rfl, fresh_new db enabled⟩
  | cons op past ih =>
      obtain ⟨hdb, hfresh⟩ :=
        ih fun op' past' hp => h op' past' (hp.trans (List.suffix_cons op past))
      obtain ⟨-, ht⟩ := execIndex_fresh hfresh (h op past List.suffix_rfl)
      rw [hdb] at ht
      exact ⟨ht.db_eq, ht.fresh⟩

theorem uncachedAfter_tracks (hash : Bytes → UInt64) (db : Database) (ops : List IndexOp) :
    Tracks hash false (uncachedAfter hash db ops) (databaseAfter db ops) := by
  induction ops with
  | nil => exact ⟨rfl, rfl, fresh_new db false⟩
  | cons op past ih =>
      have hstep := (execIndex_fresh ih.fresh (not_clobbers_off ih.enabled op.uncached)).2
      rw [ih.enabled, leavesOn_uncached, ih.db_eq, execOnDatabase_uncached] at hstep
      exact hstep

/-- A run of the index in which no `create` stores a cached name a second time is
coherent. -/
theorem coherent_of_not_clobbers (hash : Bytes → UInt64) (db : Database) (enabled : Bool)
    (ops : List IndexOp)
    (h : ∀ op past, op :: past <:+ ops → ¬ Clobbers hash (indexAfter hash db enabled past) op) :
    CacheCoherent hash db enabled ops := by
  have hpast : ∀ past, past <:+ ops → (indexAfter hash db enabled past).db = databaseAfter db past ∧
      Fresh hash (indexAfter hash db enabled past) :=
    fun past hp => indexAfter_fresh fun op' past' hp' => h op' past' (hp'.trans hp)
  refine ⟨fun op past hp => ?_, fun past name hp => ?_, fun past hp => ?_⟩
  · obtain ⟨hdb, hfresh⟩ := hpast past ((List.suffix_cons op past).trans hp)
    have huncached := uncachedAfter_tracks hash db past
    rw [(execIndex_fresh hfresh (h op past hp)).1, hdb,
      (execIndex_fresh huncached.fresh (not_clobbers_off huncached.enabled op.uncached)).1,
      huncached.db_eq, execOnDatabase_uncached]
  · have hno : ¬ Clobbers hash (indexAfter hash db enabled past) (.find name) :=
      fun hclob => hclob
    exact (execIndex_fresh (hpast past hp).2 hno).1
  · rw [(hpast past hp).1, (uncachedAfter_tracks hash db past).db_eq]

/-- `xxhash64(key)` -/
abbrev keyHash (key : Bytes) : UInt64 := xxhash64 key 0

theorem not_clobbers_clean (h : FlatHashMap.Clean idx.cache.map) (op : IndexOp) :
    ¬ Clobbers hash idx op := by
  intro hclob
  cases op with
  | create name hive hbd => exact h.not_hidden name hclob.2.2.2
  | _ => exact hclob.elim

/-- An account is created, looked up, created again and adjusted. -/
def recreateRun : List IndexOp :=
  [.getBalance (text "alice") .hive, .adjustBalance (text "alice") ⟨-2, .hive⟩,
    .create (text "alice") 5 0, .find (text "alice"), .create (text "alice") 3 0]

theorem coherent_recreateRun : CacheCoherent keyHash {} true recreateRun := by
  refine coherent_of_not_clobbers keyHash {} true recreateRun fun op past hp => ?_
  simp only [recreateRun, List.suffix_cons_iff, List.suffix_nil, List.cons.injEq] at hp
  rcases hp with ⟨rfl, rfl⟩ | ⟨rfl, rfl⟩ | ⟨rfl, rfl⟩ | ⟨rfl, rfl⟩ | ⟨rfl, rfl⟩ | hnil
  · exact fun hclob => hclob
  · exact fun hclob => hclob
  · refine not_clobbers_clean ?_ _
    show Slot.tomb ∉ _
    decide +kernel
  · exact fun hclob => hclob
  · refine not_clobbers_clean ?_ _
    show Slot.tomb ∉ _
    decide +kernel
  · cases hnil

/-- `ivan` and `judy` share a slot of the table.  An adjustment of `ivan` leaves a
tombstone there, before the slot of `judy`, who is then created again and
adjusted. -/
def staleRun : List IndexOp :=
  [.find (text "judy"), .adjustBalance (text "judy") ⟨1, .hive⟩, .create (text "judy") 3 0,
    .adjustBalance (text "ivan") ⟨1, .hive⟩, .create (text "judy") 2 0, .create (text "ivan") 1 0]

/-- The last lookup of `staleRun` answers with the balance from before the second
creation. -/
theorem staleRun_not_coherent : ¬ CacheCoherent keyHash {} true staleRun := by
  intro h
  have hlast := h.answers (.find (text "judy")) staleRun.tail List.suffix_rfl
  have hwrong : (execIndex keyHash (.find (text "judy"))
      (indexAfter keyHash {} true staleRun.tail)).1 = .ok (.found (some ⟨2, 0⟩)) := by
    decide +kernel
  have hright : (execIndex keyHash (IndexOp.find (text "judy")).uncached
      (uncachedAfter keyHash {} staleRun.tail)).1 = .ok (.found (some ⟨4, 0⟩)) := by
    decide +kernel
  rw [hwrong, hright] at hlast
  exact absurd hlast (by decide)

/-! ## After a clobbering creation -/

theorem execIndex_ok {op : IndexOp} {a : IndexAnswer} {idx' : AccountIndex}
    (h : op.program hash idx = .ok a idx') : execIndex hash op idx = (.ok a, idx') := by
  simp [execIndex, h]

/-- A clobbering `create` writes a new copy into a tombstone, and the table without
this copy is the table before. -/
theorem create_clobbered (h : Fresh hash idx) {name : AccountName} {hive hbd : ShareType}
    (hclob : Clobbers hash idx (.create name hive hbd)) :
    ∃ db' c, execIndex hash (.create name hive hbd) idx =
        (.ok .done, { idx with db := db', cache := c }) ∧
      db'.balances[name]? = some ⟨hive, hbd⟩ ∧ (c.map.erase hash name).2 = idx.cache.map := by
  obtain ⟨hon, hvalid, hc⟩ := hclob
  obtain ⟨m, hm⟩ := h
  obtain ⟨t, hins, hback⟩ := FlatHashMap.insert_clobbered hm.table.wf hc ⟨hive, hbd⟩
  obtain ⟨db', hdb⟩ : ∃ db' : Database,
      db' = { idx.db with balances := idx.db.balances.insert name ⟨hive, hbd⟩ } := ⟨_, rfl⟩
  have hrun : createAccount name hive hbd idx.db = .ok () db' :=
    createAccount_ok.mpr ⟨hvalid, hdb⟩
  obtain ⟨c, rfl, hput⟩ := cachePut_run { idx with db := db' } hins
  refine ⟨db', c, execIndex_ok ?_, ?_, by rw [hback]⟩
  · exact bind_ok.mpr ⟨(), _, writeThrough_on hon hrun hput, rfl⟩
  · rw [hdb]
    exact ExtTreeMap.getElem?_insert_self

/-- An adjustment with the cache on erases the name from the table. -/
theorem adjustBalance_on (hash : Bytes → UInt64) (idx : AccountIndex) {name : AccountName}
    {b : AccountBalance} {delta : Asset} (hon : idx.cacheEnabled = true)
    (hb : idx.db.balances[name]? = some b) (hadj : Adjustable b delta) :
    ∃ db' c, execIndex hash (.adjustBalance name delta) idx =
        (.ok .done, { idx with db := db', cache := c }) ∧
      db'.balances[name]? = some (b.adjusted delta) ∧
      c.map = (idx.cache.map.erase hash name).2 := by
  obtain ⟨db', hdb⟩ : ∃ db' : Database,
      db' = { idx.db with balances := idx.db.balances.insert name (b.adjusted delta) } := ⟨_, rfl⟩
  have hrun : adjustBalance name delta idx.db = .ok () db' :=
    adjustBalance_ok.mpr ⟨b, hb, hadj, hdb⟩
  refine ⟨db', (idx.cache.invalidate hash name).2, execIndex_ok ?_, ?_, invalidate_map _ _⟩
  · exact bind_ok.mpr ⟨(), _, writeThrough_on hon hrun rfl, rfl⟩
  · rw [hdb]
    exact ExtTreeMap.getElem?_insert_self

/-- After a `create` that stores a cached name a second time, an adjustment of the
account uncovers the entry from before the `create`. -/
theorem stale_after_clobber (h : Fresh hash idx) {name : AccountName} {hive hbd : ShareType}
    (hclob : Clobbers hash idx (.create name hive hbd)) :
    ∃ old, ∀ delta, Adjustable ⟨hive, hbd⟩ delta →
      ∃ idx', Machine.final (execIndex hash) idx
          [.adjustBalance name delta, .create name hive hbd] = idx' ∧
        (execIndex hash (.find name) idx').1 = .ok (.found (some old)) ∧
        idx'.db.balances[name]? = some ((⟨hive, hbd⟩ : AccountBalance).adjusted delta) := by
  obtain ⟨db₁, c₁, hcreate, hbal₁, hback⟩ := create_clobbered h hclob
  obtain ⟨hon, -, -, ⟨old, hold⟩, -⟩ := hclob
  obtain ⟨m, hm⟩ := h
  refine ⟨old, fun delta hadj => ?_⟩
  obtain ⟨db₂, c₂, hadjust, hbal₂, hmap⟩ :=
    adjustBalance_on hash { idx with db := db₁, cache := c₁ } hon hbal₁ hadj
  refine ⟨{ idx with db := db₂, cache := c₂ }, ?_, ?_, hbal₂⟩
  · rw [Machine.final_cons, Machine.final_cons, Machine.final_nil, hcreate, hadjust]
  · obtain ⟨c₃, -, hcache⟩ :=
      cacheFind_run hash { idx with db := db₂, cache := c₂ } name
    have hhit : c₂.map.find hash name = some old := by
      rw [hmap, hback, hm.table.find_eq name]
      exact (hm.table.stored name old).mp hold
    rw [hhit] at hcache
    have hfind : (IndexOp.find name).program hash { idx with db := db₂, cache := c₂ } =
        .ok (.found (some old)) { idx with db := db₂, cache := c₃ } :=
      bind_ok.mpr ⟨some old, _, find_hit hon hcache, rfl⟩
    rw [execIndex_ok hfind]

theorem adjustable_hive (b : AccountBalance) {x : ShareType} (hcov : Covered b.hive x)
    (hlo : -2 ^ 63 ≤ b.hive.toInt + x.toInt) (hhi : b.hive.toInt + x.toInt < 2 ^ 63) :
    Adjustable b ⟨x, .hive⟩ := ⟨hcov, hlo, hhi⟩

theorem adjusted_hive_ne (b : AccountBalance) {x y : ShareType} (h : x ≠ y) :
    b.adjusted ⟨x, .hive⟩ ≠ b.adjusted ⟨y, .hive⟩ := by
  intro heq
  have hhive : b.hive + x = b.hive + y := congrArg AccountBalance.hive heq
  exact h ((Int64.add_right_inj _).mp hhive)

/-- Some adjustment of a balance is possible and gives another balance than the
given one. -/
theorem exists_adjustment (b old : AccountBalance) :
    ∃ delta, Adjustable b delta ∧ b.adjusted delta ≠ old := by
  have hlo := b.hive.le_toInt
  have hhi := b.hive.toInt_lt
  have hzero : (0 : ShareType).toInt = 0 := by decide
  have hone : (1 : ShareType).toInt = 1 := by decide
  have hminus : (-1 : ShareType).toInt = -1 := by decide
  -- of two adjustments with different results one will do
  by_cases hold : b.adjusted ⟨0, .hive⟩ = old
  · rw [← hold]
    by_cases htop : b.hive.toInt + 1 < 2 ^ 63
    · exact ⟨⟨1, .hive⟩, adjustable_hive b (by unfold Covered; omega) (by omega) (by omega),
        adjusted_hive_ne b (by decide)⟩
    · exact ⟨⟨-1, .hive⟩, adjustable_hive b (by unfold Covered; omega) (by omega) (by omega),
        adjusted_hive_ne b (by decide)⟩
  · exact ⟨⟨0, .hive⟩, adjustable_hive b (by unfold Covered; omega) (by omega) (by omega), hold⟩

/-- A run that goes on with a clobbering `create` has a continuation that is not
coherent. -/
theorem not_coherent_after_clobber {enabled : Bool} {ops : List IndexOp}
    (h : ∀ op past, op :: past <:+ ops → ¬ Clobbers hash (indexAfter hash db enabled past) op)
    {name : AccountName} {hive hbd : ShareType}
    (hclob : Clobbers hash (indexAfter hash db enabled ops) (.create name hive hbd)) :
    ∃ delta, ¬ CacheCoherent hash db enabled
      (.adjustBalance name delta :: .create name hive hbd :: ops) := by
  obtain ⟨old, hstale⟩ := stale_after_clobber (indexAfter_fresh h).2 hclob
  obtain ⟨delta, hadj, hne⟩ := exists_adjustment ⟨hive, hbd⟩ old
  refine ⟨delta, fun hcoherent => ?_⟩
  obtain ⟨idx', hidx, hfind, hbal⟩ := hstale delta hadj
  have hlookup := hcoherent.lookups _ name List.suffix_rfl
  have hafter : indexAfter hash db enabled
      (.adjustBalance name delta :: .create name hive hbd :: ops) = idx' := hidx
  rw [hafter, hfind, hbal] at hlookup
  injection hlookup with hlookup
  injection hlookup with hlookup
  injection hlookup with hlookup
  exact hne hlookup.symm

end HiveNative.Chain
