import HiveNative.Chain.Independence
import HiveNative.Perf.ScheduledApply

/-!
# Order inside a layer

The operations of one layer may be applied in any order: the same ones fail and
the tables of the chain end the same.

The layers are executed here with a failed operation noted and skipped
(`applySkipping`), so that the run goes on from what the failed one left.  The
argument is in three parts.  Operations of one layer do not clash
(`layer_apart`).  Operations that do not clash work on different objects and pay
different accounts, since the strings they touch name both; so neither changes
what the other reads (`attempt_outcome`) and their effects commute
(`attempts_commute`).  The rest is the permutation rule of `Lib.Replay`.

Redeems of one layer pay different accounts, so nothing here needs the balances
to fit: a credit that overflows does so in every order.
-/

namespace HiveNative.Perf

open Std (ExtTreeMap)
open Chain EState OrderedMap Layering Replay

variable {db db' : Database} {a b : ScheduledOp}

/-! ## Execution with failures skipped -/

/-- Apply one operation and say whether it finished. -/
def attempt (op : ScheduledOp) (db : Database) : Bool × Database :=
  match applyOne op db with
  | .ok _ db' => (true, db')
  | .error _ db' => (false, db')

/-- `apply_one(db, ops[idx])` in a handler that goes on after an exception.  The
indices of a schedule are those of the list. -/
def attemptAt (ops : List ScheduledOp) (idx : ℕ) (db : Database) : Bool × Database :=
  ops[idx]?.elim (false, db) fun op => attempt op db

/-- Execute layers in order, each in the order given for it.  The result lists
the operations that failed. -/
def applySkipping (ops : List ScheduledOp) (orders : List (List ℕ)) (db : Database) :
    List ℕ × Database :=
  attempts (attemptAt ops) orders.flatten db

/-- The operation of the chain a scheduled one applies. -/
def ScheduledOp.operation : ScheduledOp → Option Operation
  | .nftTransfer op => some (.nftTransfer op)
  | .htlcRedeem op => some (.htlcRedeem op)
  | .contractCall op => some (.contractCall op)
  | .globalMarker _ => none

theorem operation_object {op : ScheduledOp} {o : Operation} (h : op.operation = some o) :
    o.object.isSome := by
  cases op with
  | globalMarker op => cases h
  | _ =>
      cases h
      rfl

theorem attempt_apply {op : ScheduledOp} {o : Operation} (h : op.operation = some o)
    (db : Database) :
    ((attempt op db).1 = true ↔ Succeeds (apply o) db) ∧
      (attempt op db).2 = (exec (.apply o) db).2 := by
  have happly : applyOne op = apply o := by
    cases op with
    | globalMarker op => cases h
    | _ =>
        cases h
        rfl
  unfold attempt exec Succeeds
  rw [happly, Step.program]
  cases hrun : apply o db with
  | ok u db' => simp
  | error x db' => simp

/-! ## One operation -/

/-- The effect of a scheduled operation. -/
def effectOne (db : Database) (op : ScheduledOp) : Option Effect :=
  op.operation.bind fun o => effect db o

theorem attempt_effect (hs : HasStorage db) (op : ScheduledOp) :
    consensus (attempt op db).2 = runEffect (effectOne db op) (consensus db) := by
  cases ho : op.operation with
  | none =>
      cases op with
      | globalMarker op => rfl
      | _ => cases ho
  | some o =>
      rw [(attempt_apply ho db).2, effectOne, ho]
      exact exec_effect hs (operation_object ho)

theorem attempt_hasStorage (hs : HasStorage db) (op : ScheduledOp) :
    HasStorage (attempt op db).2 := by
  cases ho : op.operation with
  | none =>
      cases op with
      | globalMarker op => exact hs.of_same ⟨rfl, rfl, rfl⟩
      | _ => cases ho
  | some o =>
      rw [(attempt_apply ho db).2]
      exact hasStorage_step (.apply o) hs

/-- The account an operation pays if it succeeds. -/
def ScheduledOp.payee : ScheduledOp → Option AccountName
  | .htlcRedeem op => some op.to
  | _ => none

/-- What an operation reads is the same: its object, the balance it pays to, and
what no operation changes. -/
def SameView (op : ScheduledOp) (db db' : Database) : Prop :=
  ∀ o key, op.operation = some o → o.object = some key →
    SameReads db db' key ∧
      ∀ account, op.payee = some account → db'.balances[account]? = db.balances[account]?

namespace SameView

variable {op : ScheduledOp}

theorem symm (h : SameView op db db') : SameView op db' db := by
  intro o key ho hkey
  obtain ⟨hreads, hpaid⟩ := h o key ho hkey
  exact ⟨hreads.symm, fun account ha => (hpaid account ha).symm⟩

theorem succeeds (h : SameView op db db') {o : Operation} {key : ObjectKey}
    (ho : op.operation = some o) (hkey : o.object = some key) (hok : Succeeds (apply o) db) :
    Succeeds (apply o) db' := by
  obtain ⟨hreads, hpaid⟩ := h o key ho hkey
  refine hreads.succeeds_of_fits hkey (fun l account b b' hpays hb hb' hadj => ?_) hok
  cases op with
  | htlcRedeem op =>
      cases ho
      obtain ⟨-, -, hto, hdest⟩ := hpays
      have hpayee : ScheduledOp.payee (.htlcRedeem op) = some account := by
        rw [hto, hdest]
        rfl
      rw [hpaid account hpayee, hb] at hb'
      cases hb'
      exact hadj
  | globalMarker op => cases ho
  | _ =>
      cases ho
      exact hpays.elim

theorem succeeds_iff (h : SameView op db db') {o : Operation} (ho : op.operation = some o) :
    Succeeds (apply o) db' ↔ Succeeds (apply o) db := by
  obtain ⟨key, hkey⟩ := Option.isSome_iff_exists.mp (operation_object ho)
  exact ⟨h.symm.succeeds ho hkey, h.succeeds ho hkey⟩

/-- The operation fails in both databases or in none. -/
theorem outcome (h : SameView op db db') : (attempt op db').1 = (attempt op db).1 := by
  cases ho : op.operation with
  | none =>
      cases op with
      | globalMarker op => rfl
      | _ => cases ho
  | some o =>
      rw [Bool.eq_iff_iff, (attempt_apply ho db').1, (attempt_apply ho db).1]
      exact h.succeeds_iff ho

/-- The operation writes the same in both databases. -/
theorem effectOne (h : SameView op db db') : effectOne db' op = effectOne db op := by
  unfold Perf.effectOne
  cases ho : op.operation with
  | none => rfl
  | some o =>
      obtain ⟨key, hkey⟩ := Option.isSome_iff_exists.mp (operation_object ho)
      simp only [Option.bind_some, effect, h.succeeds_iff ho]
      rw [(h o key ho hkey).1.effectOf hkey]

end SameView

theorem sameView_of_consensus (op : ScheduledOp) (h : consensus db' = consensus db) :
    SameView op db db' := by
  intro o key _ _
  have hbalances := congrArg (·.balances) h
  exact ⟨(SameReads.refl db key).of_consensus h, fun account _ => congrArg (·[account]?) hbalances⟩

/-! ## Two operations -/

/-- Only a payee gets a credit. -/
theorem effectOne_settle {op : ScheduledOp} {id : HtlcId} {l : HtlcObject} {account : AccountName}
    (h : effectOne db op = some (.settle id l account)) : op.payee = some account := by
  cases op with
  | htlcRedeem op =>
      have heffect : effect db (.htlcRedeem op) = some (.settle id l account) := h
      unfold effect at heffect
      split at heffect
      · next hok =>
          obtain ⟨db', hok⟩ := hok
          obtain ⟨l', b, hg, -⟩ := applyHtlcRedeem_ok.mp hok
          rw [effectOf, hg.found] at heffect
          cases heffect
          exact congrArg some hg.dest.symm
      · cases heffect
  | nftTransfer op =>
      have heffect : effect db (.nftTransfer op) = some (.settle id l account) := h
      cases effect_key heffect
  | contractCall op =>
      have heffect : effect db (.contractCall op) = some (.settle id l account) := h
      cases effect_key heffect
  | globalMarker op => cases h

/-- Only a payee's balance changes. -/
theorem attempt_balance (hs : HasStorage db) (op : ScheduledOp) {account : AccountName}
    (h : op.payee ≠ some account) :
    (attempt op db).2.balances[account]? = db.balances[account]? := by
  have heffect : (attempt op db).2.balances =
      (runEffect (effectOne db op) (consensus db)).balances :=
    congrArg (·.balances) (attempt_effect hs op)
  rw [heffect]
  cases hx : effectOne db op with
  | none => rfl
  | some x =>
      cases x with
      | settle id l name =>
          exact getElem?_insert_ne fun heq => h (heq ▸ effectOne_settle hx)
      | _ => rfl

/-- The string the scheduler has for an object. -/
def objectString : ObjectKey → Bytes
  | .nft id => text "nft:" ++ decimal id
  | .htlc id => text "htlc:" ++ decimal id
  | .contract id => text "contract:" ++ decimal id

theorem objectString_touched {op : ScheduledOp} {o : Operation} {key : ObjectKey}
    (ho : op.operation = some o) (hkey : o.object = some key) :
    objectString key ∈ (classifyScheduledOp 0 op).accounts := by
  cases op with
  | globalMarker op => cases ho
  | _ =>
      cases ho
      cases hkey
      exact List.mem_of_getLast? rfl

theorem payee_touched {op : ScheduledOp} {account : AccountName} (h : op.payee = some account) :
    account ∈ (classifyScheduledOp 0 op).accounts := by
  cases op with
  | htlcRedeem op =>
      cases h
      exact List.mem_cons_self
  | _ => cases h

/-- An operation leaves what an operation reads that does not clash with it. -/
theorem sameView_attempt (hs : HasStorage db) (h : ¬ Clash a b) :
    SameView b db (attempt a db).2 := by
  intro y key hy hkey
  cases hx : a.operation with
  | none =>
      cases a with
      | globalMarker op => exact absurd (Or.inl rfl) h
      | _ => cases hx
  | some x =>
      refine ⟨?_, fun account hb => ?_⟩
      · rw [(attempt_apply hx db).2]
        refine sameReads_exec hs (operation_object hx) fun heq => h (Or.inr (Or.inr ?_))
        exact ⟨objectString key, objectString_touched hx heq, objectString_touched hy hkey⟩
      · refine attempt_balance hs a fun ha => h (Or.inr (Or.inr ?_))
        exact ⟨account, payee_touched ha, payee_touched hb⟩

theorem clash_symm (h : Clash a b) : Clash b a := by
  obtain h | h | ⟨x, hxa, hxb⟩ := h
  · exact Or.inr (Or.inl h)
  · exact Or.inl h
  · exact Or.inr (Or.inr ⟨x, hxb, hxa⟩)

/-- Effects of operations that do not clash are on different objects. -/
theorem effectOne_apart (h : ¬ Clash a b) {u v : Effect} (hu : effectOne db a = some u)
    (hv : effectOne db b = some v) : u.key ≠ v.key := by
  intro heq
  obtain ⟨x, hx, hu⟩ := Option.bind_eq_some_iff.mp hu
  obtain ⟨y, hy, hv⟩ := Option.bind_eq_some_iff.mp hv
  refine h (Or.inr (Or.inr ⟨objectString u.key, objectString_touched hx (effect_key hu), ?_⟩))
  rw [heq]
  exact objectString_touched hy (effect_key hv)

/-- Two operations in turn. -/
theorem attempt_twice (hs : HasStorage db) (h : ¬ Clash a b) :
    consensus (attempt b (attempt a db).2).2 =
      runEffect (effectOne db b) (runEffect (effectOne db a) (consensus db)) := by
  rw [attempt_effect (attempt_hasStorage hs a) b, (sameView_attempt hs h).effectOne,
    attempt_effect hs a]

/-- Operations that do not clash commute. -/
theorem attempt_commutes (h : ¬ Clash a b) : Commutes attempt HasStorage consensus a b := by
  have hsymm : ¬ Clash b a := fun hba => h (clash_symm hba)
  refine ⟨fun db hs => ?_, fun db hs => ?_, fun db hs => ?_⟩
  · exact (sameView_attempt hs hsymm).outcome
  · exact (sameView_attempt hs h).outcome
  · rw [attempt_twice hs h, attempt_twice hs hsymm]
    exact runEffect_comm (fun u v hu hv => effectOne_apart hsymm hu hv) _

theorem attempt_observed : Observed attempt HasStorage consensus := by
  refine ⟨fun op db hs => attempt_hasStorage hs op, fun op db db' _ _ h => ?_,
    fun op db db' hs hs' h => ?_⟩
  · exact (sameView_of_consensus op h).outcome
  · rw [attempt_effect hs, attempt_effect hs', h, (sameView_of_consensus op h).effectOne]

/-! ## The layers of a schedule -/

/-- The operations at these positions do not clash. -/
def Apart (ops : List ScheduledOp) (i j : ℕ) : Prop :=
  ∀ a b, ops[i]? = some a → ops[j]? = some b → ¬ Clash a b

/-- The positions of one layer are those of one level. -/
theorem layer_levels (ops : List ScheduledOp) {layer : List ℕ}
    (h : layer ∈ (planSchedule ops).layers.map (·.opIndices)) :
    ∃ k, layer = ((leveled (fun p q : ScheduledOp × ℕ => Clash p.1 q.1) ops.zipIdx).filter
      fun p => p.2 = k).map fun p => p.1.2 := by
  have hmem : layer ∈ ((classifyAll ops).foldl placeOp []).map (·.opIndices) := by
    unfold planSchedule at h
    split at h
    · cases h
    · simpa [scheduleOf, buildParallelSchedule] using h
  rw [(layered_foldl (classifyAll ops)).indices] at hmem
  obtain ⟨k, -, rfl⟩ := List.mem_map.mp hmem
  refine ⟨k, ?_⟩
  rw [classifyAll, leveled_map fun p q => conflict_classify p.2 q.2 p.1 q.1, atLevel,
    List.filter_map, List.map_map, List.map_map]
  apply List.map_congr_left
  intro p _
  exact classify_index p.1.2 p.1.1

/-- The operations of one layer do not clash. -/
theorem layer_apart (ops : List ScheduledOp) {layer : List ℕ}
    (h : layer ∈ (planSchedule ops).layers.map (·.opIndices)) : layer.Pairwise (Apart ops) := by
  obtain ⟨k, rfl⟩ := layer_levels ops h
  rw [List.pairwise_map, List.pairwise_filter]
  refine (leveled_apart ops.zipIdx).imp_of_mem fun {p q} hp hq hapart hpk hqk a b ha hb => ?_
  have hget : ∀ {p : (ScheduledOp × ℕ) × ℕ},
      p ∈ leveled (fun p q : ScheduledOp × ℕ => Clash p.1 q.1) ops.zipIdx →
        ops[p.1.2]? = some p.1.1 := by
    intro p hp
    have hitem := List.mem_map_of_mem (f := Prod.fst) hp
    rw [leveled_map_fst] at hitem
    exact List.mk_mem_zipIdx_iff_getElem?.mp hitem
  rw [hget hp] at ha
  rw [hget hq] at hb
  cases ha
  cases hb
  rw [decide_eq_true_eq] at hpk hqk
  exact hapart (hpk.trans hqk.symm)

theorem attemptAt_some {ops : List ScheduledOp} {idx : ℕ} {op : ScheduledOp}
    (h : ops[idx]? = some op) : attemptAt ops idx = attempt op := by
  funext db
  rw [attemptAt, h, Option.elim_some]

theorem attemptAt_none {ops : List ScheduledOp} {idx : ℕ} (h : ops[idx]? = none)
    (db : Database) : attemptAt ops idx db = (false, db) := by
  rw [attemptAt, h, Option.elim_none]

theorem attemptAt_commutes {ops : List ScheduledOp} {i j : ℕ} (h : Apart ops i j) :
    Commutes (attemptAt ops) HasStorage consensus i j := by
  cases hi : ops[i]? with
  | none => constructor <;> intro db _ <;> simp only [attemptAt_none hi]
  | some a =>
      cases hj : ops[j]? with
      | none => constructor <;> intro db _ <;> simp only [attemptAt_none hj]
      | some b =>
          have hc := attempt_commutes (h a b hi hj)
          constructor
          · rw [attemptAt_some hi, attemptAt_some hj]
            exact hc.left
          · rw [attemptAt_some hi, attemptAt_some hj]
            exact hc.right
          · rw [attemptAt_some hi, attemptAt_some hj]
            exact hc.viewed

theorem attemptAt_observed (ops : List ScheduledOp) :
    Observed (attemptAt ops) HasStorage consensus := by
  constructor
  · intro idx db hs
    cases hidx : ops[idx]? with
    | none =>
        rw [attemptAt_none hidx]
        exact hs
    | some op =>
        rw [attemptAt_some hidx]
        exact attempt_observed.kept op db hs
  · intro idx db db' hs hs' h
    cases hidx : ops[idx]? with
    | none => rw [attemptAt_none hidx, attemptAt_none hidx]
    | some op =>
        rw [attemptAt_some hidx]
        exact attempt_observed.outcome op db db' hs hs' h
  · intro idx db db' hs hs' h
    cases hidx : ops[idx]? with
    | none =>
        rw [attemptAt_none hidx, attemptAt_none hidx]
        exact h
    | some op =>
        rw [attemptAt_some hidx]
        exact attempt_observed.viewed op db db' hs hs' h

/-! ## Main result -/

theorem sameChain_of_consensus (h : consensus db' = consensus db) : SameChain db db' := by
  have same := consensus_eq_iff.mp h
  exact ⟨same.funds.balances, same.tokens.nfts, same.tokens.collections, same.tokens.operators,
    same.funds.htlcs, same.contracts.contracts, same.contracts.contractStorage⟩

/-- Whatever the order in which the operations of each layer are applied, the same
operations fail and the tables of the chain end the same. -/
theorem layer_order_irrelevant (config : NodeConfig) (steps : List Step) (ops : List ScheduledOp)
    (orders : List (List ℕ))
    (h : List.Forall₂ List.Perm orders ((planSchedule ops).layers.map (·.opIndices))) :
    let original := applySkipping ops ((planSchedule ops).layers.map (·.opIndices))
      (final config steps)
    let permuted := applySkipping ops orders (final config steps)
    (∀ idx, idx ∈ permuted.1 ↔ idx ∈ original.1) ∧ SameChain original.2 permuted.2 := by
  intro original permuted
  have hs := hasStorage_run config steps
  obtain ⟨hfailed, hview⟩ := attempts_batches (attemptAt_observed ops) h
    (fun layer hlayer => (layer_apart ops hlayer).imp attemptAt_commutes) hs hs rfl
  exact ⟨fun idx => hfailed.mem_iff, sameChain_of_consensus hview⟩

/-- Bob redeems his lock, Alice calls a contract that is not there, and a marker
comes last. -/
def mixedOps : List ScheduledOp :=
  [ .htlcRedeem { «to» := text "bob", htlcId := 1, preimage := text "abc" },
    .contractCall
      { caller := text "alice", contractId := 7, exportName := text "run"
        args := text "GET:k", fuelLimit := 1000 },
    .globalMarker {} ]

/-- The call fails in either order of the first layer. -/
theorem layer_order_irrelevant_mixedOps :
    let original := applySkipping mixedOps [[0, 1], [2]] (final {} lockRun)
    let permuted := applySkipping mixedOps [[1, 0], [2]] (final {} lockRun)
    original.1 = [1] ∧ 1 ∈ permuted.1 ∧ SameChain original.2 permuted.2 := by
  have hlayers : (planSchedule mixedOps).layers.map (·.opIndices) = [[0, 1], [2]] := by
    decide +kernel
  have hfailed : (applySkipping mixedOps [[0, 1], [2]] (final {} lockRun)).1 = [1] := by
    decide +kernel
  have h := layer_order_irrelevant {} lockRun mixedOps [[1, 0], [2]] (by
    rw [hlayers]
    exact .cons (.swap 0 1 []) (.cons (.refl _) .nil))
  rw [hlayers] at h
  refine ⟨hfailed, (h.1 1).mpr ?_, h.2⟩
  rw [hfailed]
  exact List.mem_singleton_self 1

end HiveNative.Perf
