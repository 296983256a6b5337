import HiveNative.Chain.EvaluatorSpecs

/-!
# How an evaluator fails

`Within` relates two databases that differ at most in the charge and the pending
virtual operations.  Every evaluator but the contract call fails within it,
whatever the database; a failed contract call does so when every contract has a
storage entry.  What the argument needs of `Within` is only that charges and
virtual operations move inside it, so it is made once for every such relation
(`Lax`).

A failure is an exception except in one place: the credit of a settled lock is a
signed sum, and `apply_undefined` says that nothing else can be undefined.
-/

namespace HiveNative.Chain

open Std (ExtTreeMap)
open EState OrderedMap

variable {db db' : Database} {u : Unit} {e : Stop}

/-- The two databases differ at most in the charge and the pending virtual
operations. -/
def Within (db db' : Database) : Prop :=
  db' = { db with
    pendingVirtualOps := db'.pendingVirtualOps
    lastRcCharged := db'.lastRcCharged }

theorem Within.refl (db : Database) : Within db db := rfl

theorem Within.trans (db₁ db₂ db₃ : Database) (h₁ : Within db₁ db₂) (h₂ : Within db₂ db₃) :
    Within db₁ db₃ := by
  unfold Within at *
  rw [h₂, h₁]

/-- A program that fails within `Within`, by an exception. -/
def Atomic {α : Type} (x : Eval α) : Prop := FailsWithin Within (· ≠ .undefined) x

/-- A program that fails within `Within`, in whatever way. -/
def Contained {α : Type} (x : Eval α) : Prop := FailsWithin Within (fun _ => True) x

/-- A relation of databases that a program without writes stays in. -/
structure Still (R : Database → Database → Prop) : Prop where
  refl : ∀ db, R db db
  trans : ∀ db₁ db₂ db₃, R db₁ db₂ → R db₂ db₃ → R db₁ db₃

theorem still_eq : Still Eq := ⟨fun _ => rfl, fun _ _ _ => Eq.trans⟩

/-- A relation of databases that does not see the charge. -/
structure Lax (R : Database → Database → Prop) : Prop where
  refl : ∀ db, R db db
  trans : ∀ db₁ db₂ db₃, R db₁ db₂ → R db₂ db₃ → R db₁ db₃
  charged : ∀ (db : Database) (c : UInt64), R db { db with lastRcCharged := c }

theorem Lax.still {R : Database → Database → Prop} (hR : Lax R) : Still R := ⟨hR.refl, hR.trans⟩

theorem lax_within : Lax Within := ⟨Within.refl, Within.trans, fun _ _ => rfl⟩

theorem still_within : Still Within := lax_within.still

/-! ## Guards

Before its charge an evaluator only checks, and from its charge on most evaluators
cannot fail. -/

namespace Still

variable {R : Database → Database → Prop} (hR : Still R)
include hR

theorem bind {α β : Type} {P : Stop → Prop} {x : Eval α} {f : α → Eval β} (hx : Guards R P x)
    (hf : ∀ a, FailsWithin R P (f a)) : FailsWithin R P (x >>= f) :=
  failsWithin_bind hR.trans hx hf

theorem throwIf (c : Prop) [Decidable c] (what : String) :
    Guards R (· ≠ .undefined) (Eval.throwIf c what) :=
  guards_failIf hR.refl c (fun h => by cases h)

theorem get : Guards R (· ≠ .undefined) (get : Eval Database) := guards_get hR.refl

theorem lift {α : Type} (x : Except Exception α) : Guards R (· ≠ .undefined) (Eval.lift x) := by
  refine ⟨fun s a t h => ?_, fun s e t h => ?_⟩
  · obtain ⟨-, rfl⟩ := lift_ok.mp h
    exact hR.refl s
  · obtain ⟨⟨x', -, rfl⟩, rfl⟩ := lift_error.mp h
    exact ⟨hR.refl s, fun hc => by cases hc⟩

theorem find {α : Type} (it : Option α) (what : String) :
    Guards R (· ≠ .undefined) (Eval.find it what) := by
  refine ⟨fun s a t h => ?_, fun s e t h => ?_⟩
  · obtain ⟨-, rfl⟩ := find_ok.mp h
    exact hR.refl s
  · obtain ⟨-, rfl, rfl⟩ := find_error.mp h
    exact ⟨hR.refl s, fun hc => by cases hc⟩

theorem requireHardfork (hf : UInt32) :
    Guards R (· ≠ .undefined) (Chain.requireHardfork hf) :=
  guards_bind hR.trans hR.get fun _ => hR.throwIf _ _

theorem requireFullNftState : Guards R (· ≠ .undefined) Chain.requireFullNftState :=
  guards_bind hR.trans hR.get fun _ =>
    guards_bind hR.trans (hR.throwIf _ _) fun _ => hR.throwIf _ _

theorem requireFullHtlcState : Guards R (· ≠ .undefined) Chain.requireFullHtlcState :=
  guards_bind hR.trans hR.get fun _ =>
    guards_bind hR.trans (hR.throwIf _ _) fun _ => hR.throwIf _ _

theorem requireContracts : Guards R (· ≠ .undefined) Chain.requireContracts :=
  guards_bind hR.trans hR.get fun _ => hR.throwIf _ _

end Still

/-! ## Evaluators -/

/-- The last two steps of every evaluator: one write and one virtual operation. -/
theorem total_write (f : Database → Database) (name : String) (payload : Bytes) :
    Total (do modify f; pushVirtual name payload : Eval Unit) :=
  total_bind (total_modify f) fun _ => total_modify _

/-- The last three steps of most evaluators: the charge and the two writes. -/
theorem total_charged (cost : UInt64) (f : Database → Database) (name : String)
    (payload : Bytes) : Total (do charge cost; modify f; pushVirtual name payload : Eval Unit) :=
  total_bind (total_modify _) fun _ => total_write f name payload

namespace Still

variable {R : Database → Database → Prop} (hR : Still R)
include hR

/-- How these evaluators begin: the hardfork, what the node keeps, the operation itself,
and then the state is read. -/
theorem opened {α β : Type} {hf : UInt32} {kept : Eval Unit} {v : Except Exception α}
    {f : Database → Eval β} (hkept : Guards R (· ≠ .undefined) kept)
    (h : ∀ db, FailsWithin R (· ≠ .undefined) (f db)) :
    FailsWithin R (· ≠ .undefined) (do
      Chain.requireHardfork hf
      kept
      let _ ← Eval.lift v
      let db ← MonadState.get
      f db) := by
  refine hR.bind (hR.requireHardfork _) fun _ => ?_
  refine hR.bind hkept fun _ => ?_
  refine hR.bind (hR.lift _) fun _ => ?_
  exact hR.bind hR.get h

theorem nftCreateCollection (op : NftCreateCollectionOperation) :
    FailsWithin R (· ≠ .undefined) (applyNftCreateCollection op) := by
  refine hR.opened hR.requireFullNftState fun _ => ?_
  refine hR.bind (hR.throwIf _ _) fun _ => ?_
  refine hR.bind (hR.throwIf _ _) fun _ => ?_
  exact failsWithin_of_total (total_charged _ _ _ _)

theorem nftMint (op : NftMintOperation) :
    FailsWithin R (· ≠ .undefined) (applyNftMint op) := by
  refine hR.opened hR.requireFullNftState fun _ => ?_
  refine hR.bind (hR.throwIf _ _) fun _ => ?_
  refine hR.bind (hR.find _ _) fun _ => ?_
  refine hR.bind (hR.throwIf _ _) fun _ => ?_
  refine hR.bind (hR.throwIf _ _) fun _ => ?_
  exact failsWithin_of_total (total_charged _ _ _ _)

theorem nftTransfer (op : NftTransferOperation) :
    FailsWithin R (· ≠ .undefined) (applyNftTransfer op) := by
  refine hR.opened hR.requireFullNftState fun _ => ?_
  refine hR.bind (hR.throwIf _ _) fun _ => ?_
  refine hR.bind (hR.find _ _) fun _ => ?_
  refine hR.bind (hR.throwIf _ _) fun _ => ?_
  refine hR.bind (hR.throwIf _ _) fun _ => ?_
  exact failsWithin_of_total (total_charged _ _ _ _)

theorem nftApprove (op : NftApproveOperation) :
    FailsWithin R (· ≠ .undefined) (applyNftApprove op) := by
  refine hR.opened hR.requireFullNftState fun _ => ?_
  refine hR.bind (hR.find _ _) fun _ => ?_
  refine hR.bind (hR.throwIf _ _) fun _ => ?_
  refine hR.bind (hR.throwIf _ _) fun _ => ?_
  exact failsWithin_of_total (total_charged _ _ _ _)

theorem nftSetApprovalForAll (op : NftSetApprovalForAllOperation) :
    FailsWithin R (· ≠ .undefined) (applyNftSetApprovalForAll op) := by
  refine hR.opened hR.requireFullNftState fun _ => ?_
  refine hR.bind (hR.throwIf _ _) fun _ => ?_
  refine hR.bind (hR.throwIf _ _) fun _ => ?_
  exact failsWithin_of_total (total_charged _ _ _ _)

theorem nftBurn (op : NftBurnOperation) :
    FailsWithin R (· ≠ .undefined) (applyNftBurn op) := by
  refine hR.opened hR.requireFullNftState fun _ => ?_
  refine hR.bind (hR.find _ _) fun _ => ?_
  refine hR.bind (hR.throwIf _ _) fun _ => ?_
  exact failsWithin_of_total (total_charged _ _ _ _)

theorem contractDeploy (op : ContractDeployOperation) :
    FailsWithin R (· ≠ .undefined) (applyContractDeploy op) := by
  refine hR.opened hR.requireContracts fun _ => ?_
  refine hR.bind (hR.throwIf _ _) fun _ => ?_
  refine hR.bind (hR.throwIf _ _) fun _ => ?_
  exact failsWithin_of_total (total_charged _ _ _ _)

end Still

/-! ## Evaluators that move funds

These charge first and ask the balance afterwards. -/

/-- The operation failed at a check in front of its charge: by an exception, with
nothing changed. -/
def Refused (db : Database) (e : Stop) (db' : Database) : Prop := db' = db ∧ e ≠ .undefined

theorem Refused.of_guard {α : Type} {x : Eval α} (hx : Guards Eq (· ≠ .undefined) x)
    (h : x db = .error e db') : Refused db e db' := by
  obtain ⟨hdb, he⟩ := hx.fails _ _ _ h
  exact ⟨hdb.symm, he⟩

/-- A debit that fails is not covered, and fails by an exception. -/
theorem debit_error {name : AccountName} {a : Asset} {b : AccountBalance} (hpos : 0 < a.amount)
    (hb : db.balances[name]? = some b)
    (h : adjustBalance name { amount := -a.amount, symbol := a.symbol } db = .error e db') :
    db' = db ∧ e ≠ .undefined ∧ (b.field a.symbol).toInt < a.amount.toInt := by
  have hp : 0 < a.amount.toInt := by
    rwa [Int64.lt_iff_toInt_lt, Int64.toInt_zero] at hpos
  have ha := a.amount.toInt_lt
  have hf := (b.field a.symbol).toInt_lt
  have hn : (-a.amount).toInt = -a.amount.toInt := toInt_neg (by omega)
  obtain ⟨hfails, rfl⟩ := adjustBalance_error.mp h
  cases hfails with
  | missing absent => simp [hb] at absent
  | unnegatable found least => simp only [hn] at least; omega
  | uncovered found debit negatable short =>
      rw [hb] at found
      cases found
      simp only [hn] at short
      exact ⟨rfl, fun hu => (by cases hu), by omega⟩
  | overflows found covered outside =>
      rw [hb] at found
      cases found
      have hcov := (covered (by rw [hn]; omega)).2
      simp only [hn] at hcov outside
      omega

/-- A credit to an account fails only where it overflows. -/
theorem credit_error {name : AccountName} {a : Asset} {b : AccountBalance} (hpos : 0 < a.amount)
    (hb : db.balances[name]? = some b) (h : adjustBalance name a db = .error e db') :
    e = .undefined := by
  have hp : 0 < a.amount.toInt := by
    rwa [Int64.lt_iff_toInt_lt, Int64.toInt_zero] at hpos
  obtain ⟨hfails, -⟩ := adjustBalance_error.mp h
  cases hfails with
  | missing absent => simp [hb] at absent
  | unnegatable found least => rfl
  | uncovered found debit negatable short => omega
  | overflows found covered outside => rfl

/-- The checks `htlc_create` makes in front of its charge, with the balance `b` of
the owner.  Whether the balance covers the amount is not among them. -/
structure LockChecked (db : Database) (op : HtlcCreateOperation) (b : AccountBalance) :
    Prop where
  active : HtlcActive db
  valid : op.Valid db.headTime
  dest_exists : db.accountExists op.to = true
  room : db.openHtlcCount op.from < htlcMaxOpenPerAccount
  found : db.balances[op.from]? = some b

/-- A lock that passes the checks but is of more than its owner has. -/
structure OverdrawnLock (db : Database) (op : HtlcCreateOperation) (b : AccountBalance) : Prop
    extends LockChecked db op b where
  overdrawn : (b.field op.amount.symbol).toInt < op.amount.amount.toInt

/-- The database with the charge of an operation. -/
def Database.charged (db : Database) (cost : UInt64) : Database := { db with lastRcCharged := cost }

@[simp] theorem Database.charged_balances (db : Database) (cost : UInt64) :
    (db.charged cost).balances = db.balances := rfl

@[simp] theorem Database.charged_lastRcCharged (db : Database) (cost : UInt64) :
    (db.charged cost).lastRcCharged = cost := rfl

@[simp] theorem Database.charged_pendingVirtualOps (db : Database) (cost : UInt64) :
    (db.charged cost).pendingVirtualOps = db.pendingVirtualOps := by
  rw [Database.charged]

theorem applyHtlcCreate_error {op : HtlcCreateOperation}
    (h : applyHtlcCreate op db = .error e db') :
    Refused db e db' ∨ (∃ b, OverdrawnLock db op b) ∧ e ≠ .undefined ∧
      db' = db.charged (Rc.costHtlcCreate op) := by
  simp only [applyHtlcCreate, bind_error, requireHardfork_ok, requireFullHtlcState_ok, lift_ok,
    HtlcCreateOperation.validate_iff, get_ok, get_error, throwIf_ok, charge, modify_ok,
    modify_error, pushVirtual, negate_error, negate_ok, false_or, or_false, and_false,
    exists_false, exists_and_left, and_assoc, exists_eq_left', exists_const, not_or,
    Bool.not_eq_true, Bool.not_eq_false, ge_iff_le, UInt32.not_le] at h
  obtain h | ⟨hfork, h | ⟨hfull, h | ⟨hv, h | ⟨hfrom, hto, h | ⟨hroom, h⟩⟩⟩⟩⟩ := h
  · exact Or.inl (.of_guard (still_eq.requireHardfork _) h)
  · exact Or.inl (.of_guard still_eq.requireFullHtlcState h)
  · exact Or.inl (.of_guard (still_eq.lift _) h)
  · exact Or.inl (.of_guard (still_eq.throwIf _ _) h)
  · exact Or.inl (.of_guard (still_eq.throwIf _ _) h)
  · have hpos : 0 < op.amount.amount.toInt := by
      have := hv.amount_pos
      rwa [Int64.lt_iff_toInt_lt, Int64.toInt_zero] at this
    obtain ⟨b, hb⟩ := accountExists_iff.mp hfrom
    obtain ⟨hm, -, -⟩ | ⟨-, h⟩ := h
    · omega
    · have hcharged : (db.charged (Rc.costHtlcCreate op)).balances[op.from]? = some b := by
        rw [Database.charged_balances, hb]
      obtain ⟨hdb, hu, hcov⟩ := debit_error hv.amount_pos hcharged h
      exact Or.inr ⟨⟨b, ⟨⟨⟨hfork, hfull⟩, hv, hto, hroom, hb⟩, hcov⟩⟩, hu, hdb⟩

/-- The settlement of the open lock `x` under `id` was charged, and the credit to
`name` failed. -/
structure CreditFailed (db : Database) (id : HtlcId) (x : HtlcObject) (name : AccountName)
    (cost : UInt64) (e : Stop) (db' : Database) : Prop where
  found : db.htlcs[id]? = some x
  still_open : x.status = HtlcStatus.open
  credit : adjustBalance name x.amount (db.charged cost) = .error e db'

theorem CreditFailed.charged {id : HtlcId} {x : HtlcObject} {name : AccountName} {cost : UInt64}
    (h : CreditFailed db id x name cost e db') : db' = db.charged cost :=
  (adjustBalance_error.mp h.credit).2.symm

theorem applyHtlcRedeem_error {op : HtlcRedeemOperation}
    (h : applyHtlcRedeem op db = .error e db') :
    Refused db e db' ∨
      ∃ x, CreditFailed db op.htlcId x x.to (Rc.costHtlcRedeem op) e db' := by
  simp only [applyHtlcRedeem, bind_error, requireHardfork_ok, requireFullHtlcState_ok, lift_ok,
    get_ok, get_error, find_ok, throwIf_ok, charge, modify_ok, modify_error, pushVirtual, false_or,
    or_false, and_false, exists_false, not_not, ne_eq, exists_and_left, exists_eq_left',
    exists_const, and_assoc] at h
  obtain h | ⟨-, h | ⟨-, h | ⟨_, -, h | ⟨x, hx, h | ⟨hopen, h | ⟨-, h | ⟨-, h | ⟨-, h |
    ⟨-, h⟩⟩⟩⟩⟩⟩⟩⟩⟩ := h
  · exact Or.inl (.of_guard (still_eq.requireHardfork _) h)
  · exact Or.inl (.of_guard still_eq.requireFullHtlcState h)
  · exact Or.inl (.of_guard (still_eq.lift _) h)
  · exact Or.inl (.of_guard (still_eq.find _ _) h)
  · exact Or.inl (.of_guard (still_eq.throwIf _ _) h)
  · exact Or.inl (.of_guard (still_eq.throwIf _ _) h)
  · exact Or.inl (.of_guard (still_eq.throwIf _ _) h)
  · exact Or.inl (.of_guard (still_eq.throwIf _ _) h)
  · exact Or.inl (.of_guard (still_eq.throwIf _ _) h)
  · exact Or.inr ⟨x, hx, hopen, h⟩

theorem applyHtlcRefund_error {op : HtlcRefundOperation}
    (h : applyHtlcRefund op db = .error e db') :
    Refused db e db' ∨
      ∃ x, CreditFailed db op.htlcId x x.from (Rc.costHtlcRefund op) e db' := by
  simp only [applyHtlcRefund, bind_error, requireHardfork_ok, requireFullHtlcState_ok, lift_ok,
    get_ok, get_error, find_ok, throwIf_ok, charge, modify_ok, modify_error, pushVirtual, false_or,
    or_false, and_false, exists_false, not_not, ne_eq, exists_and_left, exists_eq_left',
    exists_const, and_assoc] at h
  obtain h | ⟨-, h | ⟨-, h | ⟨_, -, h | ⟨x, hx, h | ⟨hopen, h | ⟨-, h | ⟨-, h⟩⟩⟩⟩⟩⟩⟩ := h
  · exact Or.inl (.of_guard (still_eq.requireHardfork _) h)
  · exact Or.inl (.of_guard still_eq.requireFullHtlcState h)
  · exact Or.inl (.of_guard (still_eq.lift _) h)
  · exact Or.inl (.of_guard (still_eq.find _ _) h)
  · exact Or.inl (.of_guard (still_eq.throwIf _ _) h)
  · exact Or.inl (.of_guard (still_eq.throwIf _ _) h)
  · exact Or.inl (.of_guard (still_eq.throwIf _ _) h)
  · exact Or.inr ⟨x, hx, hopen, h⟩

namespace Lax

variable {R : Database → Database → Prop} (hR : Lax R)
include hR

theorem of_refused (h : Refused db e db') : R db db' := by
  obtain ⟨rfl, -⟩ := h
  exact hR.refl _

theorem of_charged {cost : UInt64} (h : db' = db.charged cost) : R db db' := by
  rw [h]
  exact hR.charged db cost

theorem htlcCreate (op : HtlcCreateOperation) :
    FailsWithin R (· ≠ .undefined) (applyHtlcCreate op) := by
  intro db e db' h
  cases applyHtlcCreate_error h with
  | inl hr => exact ⟨hR.of_refused hr, hr.2⟩
  | inr hr =>
      obtain ⟨-, hu, hdb⟩ := hr
      exact ⟨hR.of_charged hdb, hu⟩

theorem htlcRedeem (op : HtlcRedeemOperation) :
    FailsWithin R (fun _ => True) (applyHtlcRedeem op) := by
  intro db e db' h
  cases applyHtlcRedeem_error h with
  | inl hr => exact ⟨hR.of_refused hr, trivial⟩
  | inr hr =>
      obtain ⟨x, hx⟩ := hr
      exact ⟨hR.of_charged hx.charged, trivial⟩

theorem htlcRefund (op : HtlcRefundOperation) :
    FailsWithin R (fun _ => True) (applyHtlcRefund op) := by
  intro db e db' h
  cases applyHtlcRefund_error h with
  | inl hr => exact ⟨hR.of_refused hr, trivial⟩
  | inr hr =>
      obtain ⟨x, hx⟩ := hr
      exact ⟨hR.of_charged hx.charged, trivial⟩

/-- Every evaluator but the contract call writes at its very end. -/
theorem apply {op : Operation} (hop : ∀ call, op ≠ .contractCall call) :
    FailsWithin R (fun _ => True) (Chain.apply op) := by
  have any : ∀ {x : Eval Unit}, FailsWithin R (· ≠ .undefined) x →
      FailsWithin R (fun _ => True) x :=
    fun hx s e t h => ⟨(hx s e t h).1, trivial⟩
  cases op with
  | nftCreateCollection op => exact any (hR.still.nftCreateCollection op)
  | nftMint op => exact any (hR.still.nftMint op)
  | nftTransfer op => exact any (hR.still.nftTransfer op)
  | nftApprove op => exact any (hR.still.nftApprove op)
  | nftSetApprovalForAll op => exact any (hR.still.nftSetApprovalForAll op)
  | nftBurn op => exact any (hR.still.nftBurn op)
  | htlcCreate op => exact any (hR.htlcCreate op)
  | htlcRedeem op => exact hR.htlcRedeem op
  | htlcRefund op => exact hR.htlcRefund op
  | contractDeploy op => exact any (hR.still.contractDeploy op)
  | contractCall op => exact absurd rfl (hop op)

end Lax

theorem contained_apply {op : Operation} (hop : ∀ call, op ≠ .contractCall call) :
    Contained (apply op) := lax_within.apply hop

/-! ## What is undefined -/

/-- Crediting `amount` to the account `name` is undefined: the amount has no
negation or the sum does not fit. -/
def CreditOverflows (db : Database) (name : AccountName) (amount : Asset) : Prop :=
  ∃ b, db.balances[name]? = some b ∧
    (amount.amount.toInt = -2 ^ 63 ∨
      ¬ (-2 ^ 63 ≤ (b.field amount.symbol).toInt + amount.amount.toInt ∧
        (b.field amount.symbol).toInt + amount.amount.toInt < 2 ^ 63))

theorem adjustBalance_undefined {name : AccountName} {delta : Asset}
    (h : adjustBalance name delta db = .error .undefined db') : CreditOverflows db name delta := by
  obtain ⟨hfails, -⟩ := adjustBalance_error.mp h
  cases hfails with
  | unnegatable found least => exact ⟨_, found, Or.inl least⟩
  | overflows found covered outside => exact ⟨_, found, Or.inr (by omega)⟩

/-- A redeem is undefined only where the credit of an open lock overflows. -/
theorem applyHtlcRedeem_undefined {op : HtlcRedeemOperation}
    (h : applyHtlcRedeem op db = .error .undefined db') :
    ∃ x, db.htlcs[op.htlcId]? = some x ∧ x.status = HtlcStatus.open ∧
      CreditOverflows db x.to x.amount := by
  cases applyHtlcRedeem_error h with
  | inl hr => exact absurd rfl hr.2
  | inr hr =>
      obtain ⟨x, hx, hopen, hcredit⟩ := hr
      have ho : CreditOverflows _ x.to x.amount := adjustBalance_undefined hcredit
      exact ⟨x, hx, hopen, ho⟩

/-- The same for a refund. -/
theorem applyHtlcRefund_undefined {op : HtlcRefundOperation}
    (h : applyHtlcRefund op db = .error .undefined db') :
    ∃ x, db.htlcs[op.htlcId]? = some x ∧ x.status = HtlcStatus.open ∧
      CreditOverflows db x.from x.amount := by
  cases applyHtlcRefund_error h with
  | inl hr => exact absurd rfl hr.2
  | inr hr =>
      obtain ⟨x, hx, hopen, hcredit⟩ := hr
      have ho : CreditOverflows _ x.from x.amount := adjustBalance_undefined hcredit
      exact ⟨x, hx, hopen, ho⟩

/-! ## Contract calls -/

/-- The database with the storage entry that `contract_storage[id]` makes. -/
def Database.touchStorage (db : Database) (id : ContractId) : Database :=
  { db with contractStorage := db.contractStorage.insert id (db.storageOf id) }

/-- No virtual operation is pending that was not before, but possibly the one of a
call that the engine let fail. -/
def CallLogged (op : ContractCallOperation) (db db' : Database) : Prop :=
  db'.pendingVirtualOps = db.pendingVirtualOps ∨
    ∃ fuel, db'.pendingVirtualOps = db.pendingVirtualOps ++
      [⟨"contract_called", contractCalledPayload op.contractId false fuel⟩]

/-- The two databases have the same pending virtual operations. -/
def SamePending (db db' : Database) : Prop := db'.pendingVirtualOps = db.pendingVirtualOps

theorem lax_samePending : Lax SamePending :=
  ⟨fun _ => rfl, fun _ _ _ h₁ h₂ => h₂.trans h₁, fun _ _ => rfl⟩

/-- How a call fails: at a check, by an exception the engine throws, or because
the engine reported a failure, which is charged and logged. -/
inductive CallFailed (db : Database) (op : ContractCallOperation) (e : Stop) (db' : Database) :
    Prop where
  | refused (quiet : Refused db e db')
  | thrown {c : ContractObject} {x : Exception} (guards : Callable db op c)
      (run : runCall db op c = .error x) (error : e = .threw x)
      (after : db' = db.touchStorage op.contractId)
  | rejected {c : ContractObject} {res : Contracts.CallResult} (guards : Callable db op c)
      (run : runCall db op c = .ok res) (unsuccessful : res.success = false)
      (error : e = .threw (.protocolError (errorOr res.error "call failed")))
      (after : db' =
        { db.touchStorage op.contractId with
          lastRcCharged := Rc.costContractCall op res.fuelUsed
          pendingVirtualOps := db.pendingVirtualOps ++ [⟨"contract_called",
            contractCalledPayload op.contractId false res.fuelUsed⟩] })

theorem callFailed {op : ContractCallOperation} (h : applyContractCall op db = .error e db') :
    CallFailed db op e db' := by
  simp only [applyContractCall, bind_error, requireHardfork_ok, requireContracts_ok, lift_ok,
    ContractCallOperation.validate_iff, get_ok, find_ok, throwIf_ok, modify_ok, modify_error,
    get_error, false_or, not_not, exists_and_left, and_assoc, exists_eq_left', exists_const] at h
  obtain h | ⟨hfork, h | ⟨hrun, h | ⟨hv, h | ⟨hcaller, h | ⟨c, hc, h | ⟨res, hres, h⟩⟩⟩⟩⟩⟩ := h
  · exact .refused (.of_guard (still_eq.requireHardfork _) h)
  · exact .refused (.of_guard still_eq.requireContracts h)
  · exact .refused (.of_guard (still_eq.lift _) h)
  · exact .refused (.of_guard (still_eq.throwIf _ _) h)
  · exact .refused (.of_guard (still_eq.find _ _) h)
  · obtain ⟨⟨x, hx, rfl⟩, rfl⟩ := lift_error.mp h
    exact .thrown ⟨⟨hfork, hrun⟩, hv, hcaller, hc⟩ hx rfl rfl
  · obtain ⟨hs, he, hdb⟩ := settleCall_error h
    exact .rejected ⟨⟨hfork, hrun⟩, hv, hcaller, hc⟩ hres hs he hdb

/-- A failed call throws.  It stays within `Within` up to the storage entry of
the contract it looked up. -/
theorem applyContractCall_error {op : ContractCallOperation}
    (h : applyContractCall op db = .error e db') :
    e ≠ .undefined ∧ CallLogged op db db' ∧
      (Within db db' ∨ (∃ c, db.contracts[op.contractId]? = some c) ∧
        Within (db.touchStorage op.contractId) db') := by
  cases callFailed h with
  | refused quiet =>
      obtain ⟨rfl, hu⟩ := quiet
      exact ⟨hu, Or.inl rfl, Or.inl rfl⟩
  | @thrown c x guards run error after =>
      rw [error, after]
      exact ⟨fun hn => (by cases hn), Or.inl rfl, Or.inr ⟨⟨c, guards.found⟩, rfl⟩⟩
  | @rejected c res guards run unsuccessful error after =>
      rw [error, after]
      exact ⟨fun hn => (by cases hn), Or.inr ⟨res.fuelUsed, rfl⟩,
        Or.inr ⟨⟨c, guards.found⟩, rfl⟩⟩

/-- Every deployed contract has a storage entry. -/
def HasStorage (db : Database) : Prop :=
  ∀ (id : ContractId) (c : ContractObject), db.contracts[id]? = some c →
    ∃ s, db.contractStorage[id]? = some s

theorem touchStorage_eq {id : ContractId} (h : ∃ s, db.contractStorage[id]? = some s) :
    db.touchStorage id = db := by
  obtain ⟨s, hs⟩ := h
  have hof : db.storageOf id = s := by
    rw [Database.storageOf, ExtTreeMap.getD_eq_getD_getElem?, hs, Option.getD_some]
  unfold Database.touchStorage
  rw [hof, insert_getElem?_self hs]

/-- An operation that fails leaves everything but the charge and the pending
virtual operations. -/
theorem apply_error {op : Operation} (hs : HasStorage db) (h : apply op db = .error e db') :
    Within db db' := by
  cases op with
  | contractCall op =>
      obtain ⟨-, -, hw⟩ := applyContractCall_error h
      cases hw with
      | inl hw => exact hw
      | inr hw =>
          obtain ⟨⟨c, hc⟩, hw⟩ := hw
          rwa [touchStorage_eq (hs _ c hc)] at hw
  | _ => exact (contained_apply (by simp) _ _ _ h).1

/-- The only operations that can be undefined are the settlements of an open
lock whose credit overflows. -/
theorem apply_undefined {op : Operation} (h : apply op db = .error .undefined db') :
    ∃ (id : HtlcId) (x : HtlcObject) (name : AccountName), db.htlcs[id]? = some x ∧
      x.status = HtlcStatus.open ∧ (name = x.to ∨ name = x.from) ∧
      CreditOverflows db name x.amount := by
  cases op with
  | nftCreateCollection op => exact absurd rfl (still_within.nftCreateCollection op _ _ _ h).2
  | nftMint op => exact absurd rfl (still_within.nftMint op _ _ _ h).2
  | nftTransfer op => exact absurd rfl (still_within.nftTransfer op _ _ _ h).2
  | nftApprove op => exact absurd rfl (still_within.nftApprove op _ _ _ h).2
  | nftSetApprovalForAll op => exact absurd rfl (still_within.nftSetApprovalForAll op _ _ _ h).2
  | nftBurn op => exact absurd rfl (still_within.nftBurn op _ _ _ h).2
  | htlcCreate op => exact absurd rfl (lax_within.htlcCreate op _ _ _ h).2
  | htlcRedeem op =>
      obtain ⟨x, hx, hopen, ho⟩ := applyHtlcRedeem_undefined h
      exact ⟨_, x, _, hx, hopen, Or.inl rfl, ho⟩
  | htlcRefund op =>
      obtain ⟨x, hx, hopen, ho⟩ := applyHtlcRefund_undefined h
      exact ⟨_, x, _, hx, hopen, Or.inr rfl, ho⟩
  | contractDeploy op => exact absurd rfl (still_within.contractDeploy op _ _ _ h).2
  | contractCall op => exact absurd rfl (applyContractCall_error h).1

/-- Of the operations that fail only a contract call can leave a virtual
operation. -/
theorem apply_error_pending {op : Operation} (h : apply op db = .error e db') :
    db'.pendingVirtualOps = db.pendingVirtualOps ∨
      ∃ call, op = .contractCall call ∧ CallLogged call db db' := by
  cases op with
  | contractCall op => exact Or.inr ⟨op, rfl, (applyContractCall_error h).2.1⟩
  | _ => exact Or.inl (lax_samePending.apply (by simp) _ _ _ h).1

end HiveNative.Chain
