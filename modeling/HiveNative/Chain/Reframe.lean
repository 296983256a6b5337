import HiveNative.Chain.Activation

/-!
# What the evaluators do not see

No evaluator reads the log of virtual operations, and of the configuration it reads
whether its feature is refused only.  So a database with an older part in front of its
log and a configuration with the same refusals (`reframe`) takes every step the way the
database itself does: the step ends alike, texts of errors included, in databases
that differ as they did before (`exec_reframe`, `run_reframe`).

A consumer that drains the log and a node whose switches are set another way are both
reframed databases.
-/

namespace HiveNative.Chain

open Std (ExtTreeMap)
open EState

/-- The database under another configuration and with an older part in front of its
log. -/
def Database.reframe (db : Database) (cfg : NodeConfig) (older : List VirtualOp) : Database :=
  { db with config := cfg, pendingVirtualOps := older ++ db.pendingVirtualOps }

/-- The first database is the second, reframed. -/
structure Reframed (cfg cfg' : NodeConfig) (older : List VirtualOp) (db db' : Database) :
    Prop where
  frame : db = db'.reframe cfg older
  config : db'.config = cfg'

variable {cfg cfg' : NodeConfig} {older : List VirtualOp} {db db' : Database}

theorem Reframed.config_left (h : Reframed cfg cfg' older db db') : db.config = cfg := by
  rw [h.frame]
  rfl

/-! ## Building blocks -/

section Blocks

variable {α : Type} (h : Reframed cfg cfg' older db db')
include h

theorem reframed_throwIf {c d : Prop} [Decidable c] [Decidable d] (hcd : c ↔ d) (what : String) :
    Alike (Reframed cfg cfg' older) (Eval.throwIf c what db) (Eval.throwIf d what db') := by
  unfold Eval.throwIf failIf
  simp only [hcd]
  split
  · exact alike_throw _ h
  · exact alike_pure _ h

theorem reframed_lift (x : Except Exception α) :
    Alike (Reframed cfg cfg' older) (Eval.lift x db) (Eval.lift x db') := by
  cases x with
  | ok a => exact alike_pure a h
  | error e => exact alike_throw _ h

theorem reframed_find (it : Option α) (what : String) :
    Alike (Reframed cfg cfg' older) (Eval.find it what db) (Eval.find it what db') := by
  cases it with
  | some a => exact alike_pure a h
  | none => exact alike_throw _ h

/-- A write of neither the configuration nor the log. -/
theorem reframed_write {f g : Database → Database}
    (hf : ∀ d, f (d.reframe cfg older) = (g d).reframe cfg older)
    (hg : ∀ d, (g d).config = d.config) :
    Alike (Reframed cfg cfg' older) ((modify f : Eval Unit) db) ((modify g : Eval Unit) db') := by
  refine alike_modify ⟨?_, (hg db').trans h.config⟩
  rw [h.frame, hf]

theorem reframed_charge (cost : UInt64) :
    Alike (Reframed cfg cfg' older) (charge cost db) (charge cost db') :=
  reframed_write h (fun _ => rfl) fun _ => rfl

theorem reframed_pushVirtual (name : String) (payload : Bytes) :
    Alike (Reframed cfg cfg' older) (pushVirtual name payload db)
      (pushVirtual name payload db') := by
  refine reframed_write h (fun d => ?_) fun _ => rfl
  simp only [Database.reframe, List.append_assoc]

theorem reframed_negate (x : ShareType) :
    Alike (Reframed cfg cfg' older) (negate x db) (negate x db') := by
  unfold negate
  split
  · exact alike_throw _ h
  · exact alike_pure _ h

theorem reframed_add (x y : ShareType) :
    Alike (Reframed cfg cfg' older) (add x y db) (add x y db') := by
  unfold add
  split
  · exact alike_throw _ h
  · exact alike_pure _ h

theorem reframed_requireFunds (field amount : ShareType) :
    Alike (Reframed cfg cfg' older) (requireFunds field amount db)
      (requireFunds field amount db') := by
  unfold requireFunds
  split
  · exact alike_bind (reframed_negate h amount) fun _ _ _ h => reframed_throwIf h Iff.rfl _
  · exact alike_pure _ h

theorem reframed_adjustBalance (name : AccountName) (delta : Asset) :
    Alike (Reframed cfg cfg' older) (adjustBalance name delta db)
      (adjustBalance name delta db') := by
  obtain ⟨rfl, hc⟩ := h
  refine alike_get_bind ?_
  refine alike_bind (reframed_throwIf ⟨rfl, hc⟩ Iff.rfl _) fun _ _ _ h => ?_
  refine alike_bind (reframed_requireFunds h _ _) fun _ _ _ h => ?_
  refine alike_bind (reframed_add h _ _) fun sum _ _ h => ?_
  exact reframed_write h (fun _ => rfl) fun _ => rfl

end Blocks

/-- The guards of a feature that is refused alike. -/
theorem reframed_guards {part : Part} (same : refusal cfg part = refusal cfg' part)
    (h : Reframed cfg cfg' older db db') {rest rest' : Eval Unit}
    (hrest : Alike (Reframed cfg cfg' older) (rest db) (rest' db')) :
    Alike (Reframed cfg cfg' older)
      ((do requireHardfork part.hardfork; requireState part; rest : Eval Unit) db)
      ((do requireHardfork part.hardfork; requireState part; rest' : Eval Unit) db') := by
  rw [guards_bind, guards_bind, h.config, h.config_left, same]
  cases refusal cfg' part with
  | some what => exact ⟨rfl, h⟩
  | none => exact hrest

/-! ## Evaluators -/

section Tokens

variable (same : refusal cfg .tokens = refusal cfg' .tokens)
  (h : Reframed cfg cfg' older db db')
include same h

theorem reframed_nftCreateCollection (op : NftCreateCollectionOperation) :
    Alike (Reframed cfg cfg' older) (applyNftCreateCollection op db)
      (applyNftCreateCollection op db') := by
  refine reframed_guards same h ?_
  refine alike_bind (reframed_lift h _) fun _ _ _ h => ?_
  obtain ⟨rfl, hc⟩ := h
  refine alike_get_bind ?_
  refine alike_bind (reframed_throwIf ⟨rfl, hc⟩ Iff.rfl _) fun _ _ _ h => ?_
  refine alike_bind (reframed_throwIf h Iff.rfl _) fun _ _ _ h => ?_
  refine alike_bind (reframed_charge h _) fun _ _ _ h => ?_
  refine alike_bind (reframed_write h (fun _ => rfl) fun _ => rfl) fun _ _ _ h => ?_
  exact reframed_pushVirtual h _ _

theorem reframed_nftMint (op : NftMintOperation) :
    Alike (Reframed cfg cfg' older) (applyNftMint op db) (applyNftMint op db') := by
  refine reframed_guards same h ?_
  refine alike_bind (reframed_lift h _) fun _ _ _ h => ?_
  obtain ⟨rfl, hc⟩ := h
  refine alike_get_bind ?_
  refine alike_bind (reframed_throwIf ⟨rfl, hc⟩ Iff.rfl _) fun _ _ _ h => ?_
  refine alike_bind (reframed_find h _ _) fun col _ _ h => ?_
  refine alike_bind (reframed_throwIf h Iff.rfl _) fun _ _ _ h => ?_
  refine alike_bind (reframed_throwIf h Iff.rfl _) fun _ _ _ h => ?_
  refine alike_bind (reframed_charge h _) fun _ _ _ h => ?_
  refine alike_bind (reframed_write h (fun _ => rfl) fun _ => rfl) fun _ _ _ h => ?_
  exact reframed_pushVirtual h _ _

theorem reframed_nftTransfer (op : NftTransferOperation) :
    Alike (Reframed cfg cfg' older) (applyNftTransfer op db) (applyNftTransfer op db') := by
  refine reframed_guards same h ?_
  refine alike_bind (reframed_lift h _) fun _ _ _ h => ?_
  obtain ⟨rfl, hc⟩ := h
  refine alike_get_bind ?_
  refine alike_bind (reframed_throwIf ⟨rfl, hc⟩ Iff.rfl _) fun _ _ _ h => ?_
  refine alike_bind (reframed_find h _ _) fun n _ _ h => ?_
  refine alike_bind (reframed_throwIf h Iff.rfl _) fun _ _ _ h => ?_
  refine alike_bind (reframed_throwIf h Iff.rfl _) fun _ _ _ h => ?_
  refine alike_bind (reframed_charge h _) fun _ _ _ h => ?_
  refine alike_bind (reframed_write h (fun _ => rfl) fun _ => rfl) fun _ _ _ h => ?_
  exact reframed_pushVirtual h _ _

theorem reframed_nftApprove (op : NftApproveOperation) :
    Alike (Reframed cfg cfg' older) (applyNftApprove op db) (applyNftApprove op db') := by
  refine reframed_guards same h ?_
  refine alike_bind (reframed_lift h _) fun _ _ _ h => ?_
  obtain ⟨rfl, hc⟩ := h
  refine alike_get_bind ?_
  refine alike_bind (reframed_find ⟨rfl, hc⟩ _ _) fun n _ _ h => ?_
  refine alike_bind (reframed_throwIf h Iff.rfl _) fun _ _ _ h => ?_
  refine alike_bind (reframed_throwIf h Iff.rfl _) fun _ _ _ h => ?_
  refine alike_bind (reframed_charge h _) fun _ _ _ h => ?_
  refine alike_bind (reframed_write h (fun _ => rfl) fun _ => rfl) fun _ _ _ h => ?_
  exact reframed_pushVirtual h _ _

theorem reframed_nftSetApprovalForAll (op : NftSetApprovalForAllOperation) :
    Alike (Reframed cfg cfg' older) (applyNftSetApprovalForAll op db)
      (applyNftSetApprovalForAll op db') := by
  refine reframed_guards same h ?_
  refine alike_bind (reframed_lift h _) fun _ _ _ h => ?_
  obtain ⟨rfl, hc⟩ := h
  refine alike_get_bind ?_
  refine alike_bind (reframed_throwIf ⟨rfl, hc⟩ Iff.rfl _) fun _ _ _ h => ?_
  refine alike_bind (reframed_throwIf h Iff.rfl _) fun _ _ _ h => ?_
  refine alike_bind (reframed_charge h _) fun _ _ _ h => ?_
  refine alike_bind (reframed_write h (fun _ => rfl) fun _ => rfl) fun _ _ _ h => ?_
  exact reframed_pushVirtual h _ _

theorem reframed_nftBurn (op : NftBurnOperation) :
    Alike (Reframed cfg cfg' older) (applyNftBurn op db) (applyNftBurn op db') := by
  refine reframed_guards same h ?_
  refine alike_bind (reframed_lift h _) fun _ _ _ h => ?_
  obtain ⟨rfl, hc⟩ := h
  refine alike_get_bind ?_
  refine alike_bind (reframed_find ⟨rfl, hc⟩ _ _) fun n _ _ h => ?_
  refine alike_bind (reframed_throwIf h Iff.rfl _) fun _ _ _ h => ?_
  refine alike_bind (reframed_charge h _) fun _ _ _ h => ?_
  refine alike_bind (reframed_write h (fun _ => rfl) fun _ => rfl) fun _ _ _ h => ?_
  exact reframed_pushVirtual h _ _

end Tokens

section Locks

variable (same : refusal cfg .locks = refusal cfg' .locks) (h : Reframed cfg cfg' older db db')
include same h

theorem reframed_htlcCreate (op : HtlcCreateOperation) :
    Alike (Reframed cfg cfg' older) (applyHtlcCreate op db) (applyHtlcCreate op db') := by
  refine reframed_guards same h ?_
  obtain ⟨rfl, hc⟩ := h
  refine alike_get_bind ?_
  refine alike_bind (reframed_lift ⟨rfl, hc⟩ _) fun _ _ _ h => ?_
  refine alike_bind (reframed_throwIf h Iff.rfl _) fun _ _ _ h => ?_
  refine alike_bind (reframed_throwIf h Iff.rfl _) fun _ _ _ h => ?_
  refine alike_bind (reframed_charge h _) fun _ _ _ h => ?_
  refine alike_bind (reframed_negate h _) fun debit _ _ h => ?_
  refine alike_bind (reframed_adjustBalance h _ _) fun _ _ _ h => ?_
  refine alike_bind (reframed_write h (fun _ => rfl) fun _ => rfl) fun _ _ _ h => ?_
  exact reframed_pushVirtual h _ _

theorem reframed_htlcRedeem (op : HtlcRedeemOperation) :
    Alike (Reframed cfg cfg' older) (applyHtlcRedeem op db) (applyHtlcRedeem op db') := by
  refine reframed_guards same h ?_
  refine alike_bind (reframed_lift h _) fun _ _ _ h => ?_
  obtain ⟨rfl, hc⟩ := h
  refine alike_get_bind ?_
  refine alike_bind (reframed_find ⟨rfl, hc⟩ _ _) fun x _ _ h => ?_
  refine alike_bind (reframed_throwIf h Iff.rfl _) fun _ _ _ h => ?_
  refine alike_bind (reframed_throwIf h Iff.rfl _) fun _ _ _ h => ?_
  refine alike_bind (reframed_throwIf h Iff.rfl _) fun _ _ _ h => ?_
  refine alike_bind (reframed_throwIf h Iff.rfl _) fun _ _ _ h => ?_
  refine alike_bind (reframed_throwIf h Iff.rfl _) fun _ _ _ h => ?_
  refine alike_bind (reframed_charge h _) fun _ _ _ h => ?_
  refine alike_bind (reframed_adjustBalance h _ _) fun _ _ _ h => ?_
  refine alike_bind (reframed_write h (fun _ => rfl) fun _ => rfl) fun _ _ _ h => ?_
  exact reframed_pushVirtual h _ _

theorem reframed_htlcRefund (op : HtlcRefundOperation) :
    Alike (Reframed cfg cfg' older) (applyHtlcRefund op db) (applyHtlcRefund op db') := by
  refine reframed_guards same h ?_
  refine alike_bind (reframed_lift h _) fun _ _ _ h => ?_
  obtain ⟨rfl, hc⟩ := h
  refine alike_get_bind ?_
  refine alike_bind (reframed_find ⟨rfl, hc⟩ _ _) fun x _ _ h => ?_
  refine alike_bind (reframed_throwIf h Iff.rfl _) fun _ _ _ h => ?_
  refine alike_bind (reframed_throwIf h Iff.rfl _) fun _ _ _ h => ?_
  refine alike_bind (reframed_throwIf h Iff.rfl _) fun _ _ _ h => ?_
  refine alike_bind (reframed_charge h _) fun _ _ _ h => ?_
  refine alike_bind (reframed_adjustBalance h _ _) fun _ _ _ h => ?_
  refine alike_bind (reframed_write h (fun _ => rfl) fun _ => rfl) fun _ _ _ h => ?_
  exact reframed_pushVirtual h _ _

end Locks

section Contracts

variable (same : refusal cfg .contracts = refusal cfg' .contracts)
  (h : Reframed cfg cfg' older db db')
include same h

theorem reframed_contractDeploy (op : ContractDeployOperation) :
    Alike (Reframed cfg cfg' older) (applyContractDeploy op db) (applyContractDeploy op db') := by
  refine reframed_guards same h ?_
  refine alike_bind (reframed_lift h _) fun _ _ _ h => ?_
  obtain ⟨rfl, hc⟩ := h
  refine alike_get_bind ?_
  refine alike_bind (reframed_throwIf ⟨rfl, hc⟩ Iff.rfl _) fun _ _ _ h => ?_
  refine alike_bind (reframed_throwIf h Iff.rfl _) fun _ _ _ h => ?_
  refine alike_bind (reframed_charge h _) fun _ _ _ h => ?_
  refine alike_bind (reframed_write h (fun _ => rfl) fun _ => rfl) fun _ _ _ h => ?_
  exact reframed_pushVirtual h _ _

omit same in
theorem reframed_settleCall (op : ContractCallOperation) (storage : Contracts.Storage)
    (res : Contracts.CallResult) :
    Alike (Reframed cfg cfg' older) (settleCall op storage res db)
      (settleCall op storage res db') := by
  refine alike_bind (reframed_charge h _) fun _ _ _ h => ?_
  by_cases hs : res.success = true
  · rw [if_neg (not_not.mpr hs)]
    refine alike_bind (reframed_write h (fun _ => rfl) fun _ => rfl) fun _ _ _ h => ?_
    exact reframed_pushVirtual h _ _
  · rw [if_pos hs]
    exact alike_bind (reframed_pushVirtual h _ _) fun _ _ _ h => alike_throw _ h

theorem reframed_contractCall (op : ContractCallOperation) :
    Alike (Reframed cfg cfg' older) (applyContractCall op db) (applyContractCall op db') := by
  refine reframed_guards same h ?_
  refine alike_bind (reframed_lift h _) fun _ _ _ h => ?_
  obtain ⟨rfl, hc⟩ := h
  refine alike_get_bind ?_
  refine alike_bind (reframed_throwIf ⟨rfl, hc⟩ Iff.rfl _) fun _ _ _ h => ?_
  refine alike_bind (reframed_find h _ _) fun c _ _ h => ?_
  refine alike_bind (reframed_write h (fun _ => rfl) fun _ => rfl) fun _ _ _ h => ?_
  refine alike_bind (reframed_lift h _) fun res _ _ h => ?_
  exact reframed_settleCall h op _ res

end Contracts

theorem reframed_apply {op : Operation} (same : refusal cfg op.part = refusal cfg' op.part)
    (h : Reframed cfg cfg' older db db') :
    Alike (Reframed cfg cfg' older) (apply op db) (apply op db') := by
  cases op with
  | nftCreateCollection op => exact reframed_nftCreateCollection same h op
  | nftMint op => exact reframed_nftMint same h op
  | nftTransfer op => exact reframed_nftTransfer same h op
  | nftApprove op => exact reframed_nftApprove same h op
  | nftSetApprovalForAll op => exact reframed_nftSetApprovalForAll same h op
  | nftBurn op => exact reframed_nftBurn same h op
  | htlcCreate op => exact reframed_htlcCreate same h op
  | htlcRedeem op => exact reframed_htlcRedeem same h op
  | htlcRefund op => exact reframed_htlcRefund same h op
  | contractDeploy op => exact reframed_contractDeploy same h op
  | contractCall op => exact reframed_contractCall same h op

/-! ## Steps and runs -/

/-- The configurations refuse the step alike, if they do. -/
def Step.SameRefusal (cfg cfg' : NodeConfig) : Step → Prop
  | .createAccount _ _ _ => True
  | .setHeadTime _ => True
  | .apply op => refusal cfg op.part = refusal cfg' op.part

instance (cfg cfg' : NodeConfig) : DecidablePred (Step.SameRefusal cfg cfg')
  | .createAccount _ _ _ => isTrue trivial
  | .setHeadTime _ => isTrue trivial
  | .apply op => inferInstanceAs (Decidable (refusal cfg op.part = refusal cfg' op.part))

theorem Step.sameRefusal_refl (s : Step) (cfg : NodeConfig) : s.SameRefusal cfg cfg := by
  cases s with
  | createAccount name hive hbd => trivial
  | setHeadTime t => trivial
  | apply op => rfl

theorem reframed_program {s : Step} (same : s.SameRefusal cfg cfg')
    (h : Reframed cfg cfg' older db db') :
    Alike (Reframed cfg cfg' older) (s.program db) (s.program db') := by
  cases s with
  | createAccount name hive hbd =>
      exact alike_bind (reframed_lift h _) fun _ _ _ h =>
        reframed_write h (fun _ => rfl) fun _ => rfl
  | setHeadTime t => exact reframed_write h (fun _ => rfl) fun _ => rfl
  | apply op => exact reframed_apply same h

/-- A reframed database takes every step as the database does. -/
theorem exec_reframe {s : Step} (same : s.SameRefusal cfg db.config) (older : List VirtualOp) :
    exec s (db.reframe cfg older) =
      ((exec s db).1, (exec s db).2.reframe cfg older) := by
  have h : Reframed cfg db.config older (db.reframe cfg older) db := ⟨rfl, rfl⟩
  unfold exec
  cases (reframed_program same h).ends with
  | inl hok =>
      obtain ⟨u, d, d', hd, hd', hr⟩ := hok
      rw [hd, hd', hr.frame]
  | inr herr =>
      obtain ⟨e, d, d', hd, hd', hr⟩ := herr
      rw [hd, hd', hr.frame]

/-- The outcomes of a run, newest first. -/
def outcomes (db : Database) (steps : List Step) : List (Except Stop Unit) :=
  (Machine.trace exec db steps).map (·.outcome)

theorem config_final (db : Database) (steps : List Step) :
    (Machine.final exec db steps).config = db.config := by
  induction steps with
  | nil => rfl
  | cons s steps ih => exact (config_step _ s).trans ih

/-- So does it take every run. -/
theorem run_reframe (db : Database) (older : List VirtualOp) (steps : List Step)
    (same : ∀ s ∈ steps, s.SameRefusal cfg db.config) :
    Machine.final exec (db.reframe cfg older) steps =
        (Machine.final exec db steps).reframe cfg older ∧
      outcomes (db.reframe cfg older) steps = outcomes db steps := by
  induction steps with
  | nil => exact ⟨rfl, rfl⟩
  | cons s steps ih =>
      obtain ⟨hs, hrest⟩ := List.forall_mem_cons.mp same
      obtain ⟨hfinal, houtcomes⟩ := ih hrest
      have hstep : exec s ((Machine.final exec db steps).reframe cfg older) = _ :=
        exec_reframe ((config_final db steps).symm ▸ hs) older
      refine ⟨?_, ?_⟩
      · rw [Machine.final_cons, Machine.final_cons, hfinal, hstep]
      · rw [outcomes, Machine.trace_cons, List.map_cons]
        refine congrArg₂ List.cons ?_ houtcomes
        show (exec s (Machine.final exec (db.reframe cfg older) steps)).1 = _
        rw [hfinal, hstep]
        rfl

/-! ## Main result -/

/-- Two nodes of any roles, hardforks and skips that refuse the same of the operations they
are given end every step the same way and hold the same database. -/
theorem run_follows_refusals (cfg cfg' : NodeConfig) (steps : List Step)
    (same : ∀ s ∈ steps, s.SameRefusal cfg cfg') :
    final cfg steps = { final cfg' steps with config := cfg } ∧
      outcomes (.empty cfg) steps = outcomes (.empty cfg') steps := by
  obtain ⟨hfinal, houtcomes⟩ := run_reframe (.empty cfg') [] steps same
  exact ⟨hfinal, houtcomes⟩

/-- A witness before the hardfork of the contracts and an API node after it. -/
theorem run_follows_refusals_skippingRun :
    let early : NodeConfig := { hardfork := hiveHardforkHtlc }
    let pruned : NodeConfig := { contractsSkip := true, isConsensusNode := false }
    outcomes (.empty early) skippingRun = outcomes (.empty pruned) skippingRun := by
  intro early pruned
  refine (run_follows_refusals early pruned skippingRun ?_).2
  decide

end HiveNative.Chain
