import HiveNative.Contracts.Fuel
import HiveNative.Chain.CallAccounting

/-!
# Charges

An evaluator checks, charges, writes and emits, in this order.  A check that fails
leaves the database as it was.  What comes after the charge can fail in two places.
A contract call is charged and logged when the engine reports a failure, on
purpose.  A lock is charged before its owner's balance is asked: `adjust_balance`
throws from behind the charge, and the charge of an operation that never happened
stays on record.  `rejects_quietly_iff` says that there is no third place.

The credit of a settled lock also comes after the charge.  It cannot throw, since a
stored lock has a positive amount and parties that exist.

The second half is about the amount.  The costs are sums of 64-bit numbers, and what
`validate` bounds keeps every one of them from wrapping, the fuel component included
(`cost_exact`).  The engine reports no more fuel than the limit, so a call pays
between the cost of one unit and the cost of its limit.
-/

namespace HiveNative.Chain

open Std (ExtTreeMap)
open EState OrderedMap Contracts

variable {db db' : Database} {e : Stop}

/-! ## Rejected operations -/

/-- Nothing was charged and nothing emitted. -/
structure Unrecorded (db db' : Database) : Prop where
  charge : db'.lastRcCharged = db.lastRcCharged
  pending : db'.pendingVirtualOps = db.pendingVirtualOps

theorem Unrecorded.of_refused (h : Refused db e db') : Unrecorded db db' := by
  obtain ⟨rfl, -⟩ := h
  exact ⟨rfl, rfl⟩

/-- The operation is a call that the engine ran and reported as failed. -/
def EngineRefused (db : Database) (op : Operation) : Prop :=
  ∃ call c res, op = .contractCall call ∧ Callable db call c ∧ runCall db call c = .ok res ∧
    res.success = false

theorem not_engineRefused_lock {lock : HtlcCreateOperation} :
    ¬ EngineRefused db (.htlcCreate lock) := by
  intro h
  obtain ⟨call, c, res, hop, -⟩ := h
  cases hop

/-- If the operation throws, and not because the engine reported a failure, nothing
is recorded. -/
def RejectsQuietly (db : Database) (op : Operation) : Prop :=
  ∀ x db', apply op db = .error (.threw x) db' → ¬ EngineRefused db op → Unrecorded db db'

/-- The operation is a lock of more than its owner has, and its cost is not the
charge that is on record already. -/
def ChargedAnyway (db : Database) (op : Operation) : Prop :=
  ∃ lock b, op = .htlcCreate lock ∧ OverdrawnLock db lock b ∧
    Rc.costHtlcCreate lock ≠ db.lastRcCharged

/-- An evaluator that fails at its checks only rejects quietly. -/
theorem unrecorded_of_still {x : Eval Unit} (hx : FailsWithin Eq (· ≠ .undefined) x)
    (h : x db = .error e db') : Unrecorded db db' := by
  obtain ⟨rfl, -⟩ := hx _ _ _ h
  exact ⟨rfl, rfl⟩

/-- The credit of a stored lock to one of its parties does not throw. -/
theorem creditFailed_undefined (hl : LocksSound db) {id : HtlcId} {x : HtlcObject}
    {name : AccountName} {cost : UInt64} (h : CreditFailed db id x name cost e db')
    (hname : name = x.from ∨ name = x.to) : e = .undefined := by
  have hwf := hl id x h.found
  have hexists : db.accountExists name = true := by
    cases hname with
    | inl hn => exact hn ▸ hwf.source_exists
    | inr hn => exact hn ▸ hwf.dest_exists
  obtain ⟨b, hb⟩ := accountExists_iff.mp hexists
  have hcharged : (db.charged cost).balances[name]? = some b := by
    rw [Database.charged_balances, hb]
  exact credit_error hwf.amount_pos hcharged h.credit

/-- Past the checks a lock is charged, and then its owner is debited. -/
theorem applyHtlcCreate_of_checked {op : HtlcCreateOperation} {b : AccountBalance}
    (h : LockChecked db op b) :
    applyHtlcCreate op db =
      (do adjustBalance op.from { amount := -op.amount.amount, symbol := op.amount.symbol }
          modify fun db' =>
            { db' with
              nextHtlcId := db'.nextHtlcId + 1
              htlcs := db'.htlcs.insert (newHtlc db op).id (newHtlc db op) }
          pushVirtual "htlc_created"
            (jsonObject [jsonNat "htlc_id" (newHtlc db op).id, jsonStr "from" (newHtlc db op).from,
              jsonStr "to" (newHtlc db op).to]) : Eval Unit)
        (db.charged (Rc.costHtlcCreate op)) := by
  have hexists := accountExists_iff.mpr ⟨b, h.found⟩
  have hpos : 0 < op.amount.amount.toInt := toInt_pos_iff.mp h.valid.amount_pos
  have hfork : requireHardfork hiveHardforkHtlc db = .ok () db :=
    requireHardfork_ok.mpr ⟨h.active.hardfork, rfl⟩
  have hfull : requireFullHtlcState db = .ok () db :=
    requireFullHtlcState_ok.mpr ⟨h.active.full, rfl⟩
  have hget : (get : Eval Database) db = .ok db db := rfl
  have hvalid : Eval.lift (op.validate db.headTime) db = .ok () db :=
    lift_ok.mpr ⟨HtlcCreateOperation.validate_iff.mpr h.valid, rfl⟩
  have hparties : Eval.throwIf
      (¬ db.accountExists op.from = true ∨ ¬ db.accountExists op.to = true)
      "account missing" db = .ok () db :=
    throwIf_ok.mpr ⟨by simp [hexists, h.dest_exists], rfl⟩
  have hroom : Eval.throwIf (db.openHtlcCount op.from ≥ htlcMaxOpenPerAccount)
      "too many open htlcs" db = .ok () db :=
    throwIf_ok.mpr ⟨UInt32.not_le.mpr h.room, rfl⟩
  have hcharge : charge (Rc.costHtlcCreate op) db =
      .ok () (db.charged (Rc.costHtlcCreate op)) := rfl
  have hdebit : negate op.amount.amount (db.charged (Rc.costHtlcCreate op)) =
      .ok (-op.amount.amount) (db.charged (Rc.costHtlcCreate op)) :=
    negate_ok.mpr ⟨by omega, rfl, rfl⟩
  rw [applyHtlcCreate, bind_of_ok hfork, bind_of_ok hfull, bind_of_ok hget, bind_of_ok hvalid,
    bind_of_ok hparties, bind_of_ok hroom, bind_of_ok hcharge, bind_of_ok hdebit]

/-- A lock of more than its owner has throws behind its charge. -/
theorem applyHtlcCreate_of_overdrawn {op : HtlcCreateOperation} {b : AccountBalance}
    (h : OverdrawnLock db op b) :
    ∃ x, applyHtlcCreate op db = .error (.threw x) (db.charged (Rc.costHtlcCreate op)) := by
  have hcharged : (db.charged (Rc.costHtlcCreate op)).balances[op.from]? = some b := by
    rw [Database.charged_balances, h.found]
  rw [applyHtlcCreate_of_checked h.toLockChecked]
  cases hrun : adjustBalance op.from { amount := -op.amount.amount, symbol := op.amount.symbol }
      (db.charged (Rc.costHtlcCreate op)) with
  | ok u db' =>
      obtain ⟨b', hb', hadj, -⟩ := adjustBalance_ok.mp hrun
      have hcov := (adjustable_debit h.valid.amount_pos).mp hadj
      have hover := h.overdrawn
      rw [Option.some.inj (hb'.symm.trans hcharged)] at hcov
      omega
  | error e db' =>
      obtain ⟨rfl, hu, -⟩ := debit_error h.valid.amount_pos hcharged hrun
      cases e with
      | undefined => exact absurd rfl hu
      | threw x => exact ⟨x, bind_error.mpr (Or.inl hrun)⟩

/-- An operation that throws records something only when the engine refused it, or
when it is a lock of more than its owner has. -/
theorem unrecorded_of_throws (hl : LocksSound db) {op : Operation} {x : Exception}
    (h : apply op db = .error (.threw x) db') (hengine : ¬ EngineRefused db op)
    (hcharged : ¬ ChargedAnyway db op) : Unrecorded db db' := by
  cases op with
  | nftCreateCollection op => exact unrecorded_of_still (still_eq.nftCreateCollection op) h
  | nftMint op => exact unrecorded_of_still (still_eq.nftMint op) h
  | nftTransfer op => exact unrecorded_of_still (still_eq.nftTransfer op) h
  | nftApprove op => exact unrecorded_of_still (still_eq.nftApprove op) h
  | nftSetApprovalForAll op => exact unrecorded_of_still (still_eq.nftSetApprovalForAll op) h
  | nftBurn op => exact unrecorded_of_still (still_eq.nftBurn op) h
  | contractDeploy op => exact unrecorded_of_still (still_eq.contractDeploy op) h
  | htlcCreate op =>
      cases applyHtlcCreate_error h with
      | inl hr => exact .of_refused hr
      | inr hr =>
          obtain ⟨⟨b, hover⟩, -, rfl⟩ := hr
          by_cases hcost : Rc.costHtlcCreate op = db.lastRcCharged
          · exact ⟨hcost, Database.charged_pendingVirtualOps db _⟩
          · exact absurd ⟨op, b, rfl, hover, hcost⟩ hcharged
  | htlcRedeem op =>
      cases applyHtlcRedeem_error h with
      | inl hr => exact .of_refused hr
      | inr hr =>
          obtain ⟨lock, hfailed⟩ := hr
          cases creditFailed_undefined hl hfailed (Or.inr rfl)
  | htlcRefund op =>
      cases applyHtlcRefund_error h with
      | inl hr => exact .of_refused hr
      | inr hr =>
          obtain ⟨lock, hfailed⟩ := hr
          cases creditFailed_undefined hl hfailed (Or.inl rfl)
  | contractCall op =>
      cases callFailed h with
      | refused quiet => exact .of_refused quiet
      | thrown guards run error after =>
          rw [after]
          exact ⟨rfl, rfl⟩
      | rejected guards run unsuccessful error after =>
          exact absurd ⟨op, _, _, rfl, guards, run, unsuccessful⟩ hengine

/-- In every reachable database an operation rejects quietly, unless it is a lock of
more than its owner has that passes all other checks. -/
theorem rejects_quietly_iff (config : NodeConfig) (steps : List Step) (op : Operation) :
    RejectsQuietly (final config steps) op ↔ ¬ ChargedAnyway (final config steps) op := by
  constructor
  · intro hquiet hcharged
    obtain ⟨lock, b, rfl, hover, hcost⟩ := hcharged
    obtain ⟨x, hrun⟩ := applyHtlcCreate_of_overdrawn hover
    exact hcost (hquiet x _ hrun not_engineRefused_lock).charge
  · intro hcharged x db' h hengine
    exact unrecorded_of_throws (locksSound_run config steps) h hengine hcharged

/-- A lock of five HIVE. -/
def fiveHive : HtlcCreateOperation :=
  { «from» := text "alice", «to» := text "bob", amount := ⟨5, .hive⟩
    preimageHash := ⟨.sha256, List.replicate 32 0⟩, preimageSize := 3, expiration := 3600 }

/-- Alice has one HIVE and locks five.  She is refused, and charged. -/
theorem overdrawn_lock_charged :
    ¬ RejectsQuietly
      (final {} [.createAccount (text "bob") 0 0, .createAccount (text "alice") 1 0])
      (.htlcCreate fiveHive) := by
  intro hquiet
  have hover : OverdrawnLock
      (final {} [.createAccount (text "bob") 0 0, .createAccount (text "alice") 1 0])
      fiveHive ⟨1, 0⟩ :=
    { active := ⟨by decide +kernel, by decide +kernel⟩
      valid := (HtlcCreateOperation.validate_iff (u := ())).mp (by decide +kernel)
      dest_exists := by decide +kernel
      room := by decide +kernel
      found := by decide +kernel
      overdrawn := by decide +kernel }
  obtain ⟨x, hrun⟩ := applyHtlcCreate_of_overdrawn hover
  have hcharge := (hquiet x _ hrun not_engineRefused_lock).charge
  revert hcharge
  decide +kernel

/-! ## The amount of a charge -/

/-- The `validate` of the operation's type.  Only a lock reads the time. -/
def Operation.validate (now : TimePointSec) : Operation → Except Exception Unit
  | .nftCreateCollection op => op.validate
  | .nftMint op => op.validate
  | .nftTransfer op => op.validate
  | .nftApprove op => op.validate
  | .nftSetApprovalForAll op => op.validate
  | .nftBurn op => op.validate
  | .htlcCreate op => op.validate now
  | .htlcRedeem op => op.validate
  | .htlcRefund op => op.validate
  | .contractDeploy op => op.validate
  | .contractCall op => op.validate

/-- The `rc::cost_*` of the operation's type.  Only a call reads the fuel. -/
def Operation.cost (fuelUsed : UInt64) : Operation → UInt64
  | .nftCreateCollection op => Rc.costNftCreateCollection op
  | .nftMint op => Rc.costNftMint op
  | .nftTransfer op => Rc.costNftTransfer op
  | .nftApprove op => Rc.costNftApprove op
  | .nftSetApprovalForAll op => Rc.costNftSetApprovalForAll op
  | .nftBurn op => Rc.costNftBurn op
  | .htlcCreate op => Rc.costHtlcCreate op
  | .htlcRedeem op => Rc.costHtlcRedeem op
  | .htlcRefund op => Rc.costHtlcRefund op
  | .contractDeploy op => Rc.costContractDeploy op
  | .contractCall op => Rc.costContractCall op fuelUsed

/-- The byte tax, unbounded. -/
def bytesFormula (n : ℕ) : ℕ := n * 2

/-- The fuel component, unbounded. -/
def fuelFormula (fuel : ℕ) : ℕ := fuel * Rc.fuelToRcNum.toNat / Rc.fuelToRcDen.toNat

/-- The formulas of the cost functions, over the natural numbers. -/
def Operation.formula (fuelUsed : ℕ) : Operation → ℕ
  | .nftCreateCollection op =>
      Rc.transferBase.toNat * 3 + bytesFormula (op.symbol.length + op.name.length) + 500
  | .nftMint op => Rc.transferBase.toNat * 2 + bytesFormula op.uri.length + 800
  | .nftTransfer op => Rc.transferBase.toNat + bytesFormula op.memo.length
  | .nftApprove _ => Rc.transferBase.toNat / 2
  | .nftSetApprovalForAll _ => Rc.transferBase.toNat / 2 + 100
  | .nftBurn _ => Rc.transferBase.toNat
  | .htlcCreate op => Rc.transferBase.toNat * 2 + bytesFormula op.memo.length + 600
  | .htlcRedeem op => Rc.transferBase.toNat + bytesFormula op.preimage.length + 200
  | .htlcRefund _ => Rc.transferBase.toNat
  | .contractDeploy op =>
      Rc.transferBase.toNat * 10 + bytesFormula op.code.length + fuelFormula op.fuelLimit.toNat
  | .contractCall op =>
      Rc.transferBase.toNat * 2 + bytesFormula op.args.length +
        fuelFormula (if fuelUsed ≠ 0 then fuelUsed else op.fuelLimit.toNat)

theorem toNat_bytesCost {n : ℕ} (h : n < 2 ^ 63) : (Rc.bytesCost n).toNat = bytesFormula n := by
  rw [Rc.bytesCost, UInt64.toNat_mul, UInt64.toNat_ofNat']
  simp only [UInt64.toNat_ofNat, bytesFormula]
  omega

/-- Fuel is multiplied by one, so the product does not wrap. -/
theorem toNat_fuelCost (fuel : UInt64) :
    (fuel * Rc.fuelToRcNum / Rc.fuelToRcDen).toNat = fuelFormula fuel.toNat := by
  have hlt := fuel.toNat_lt
  rw [UInt64.toNat_div, UInt64.toNat_mul, fuelFormula]
  simp only [Rc.fuelToRcNum, UInt64.toNat_ofNat]
  rw [Nat.mod_eq_of_lt (by omega)]

theorem fuelFormula_eq (fuel : ℕ) : fuelFormula fuel = fuel / 10 := by
  show fuel * 1 / 10 = fuel / 10
  rw [Nat.mul_one]

/-- A base, the byte tax of at most 2 MiB and something that fills less than the rest of the
64 bits. -/
theorem toNat_cost (base : UInt64) (n : ℕ) (rest : UInt64) (hbase : base.toNat ≤ 2 ^ 20)
    (hn : n ≤ 2 ^ 20) (hrest : rest.toNat < 2 ^ 62) :
    (base + Rc.bytesCost n + rest).toNat = base.toNat + bytesFormula n + rest.toNat := by
  have hbytes := toNat_bytesCost (show n < 2 ^ 63 by omega)
  rw [bytesFormula] at hbytes ⊢
  rw [UInt64.toNat_add, UInt64.toNat_add, hbytes]
  omega

/-- The same with a fuel component on top. -/
theorem toNat_cost_fuel (base : UInt64) (n : ℕ) (fuel : UInt64) (hbase : base.toNat ≤ 2 ^ 20)
    (hn : n ≤ 2 ^ 20) :
    (base + Rc.bytesCost n + fuel * Rc.fuelToRcNum / Rc.fuelToRcDen).toNat =
      base.toNat + bytesFormula n + fuelFormula fuel.toNat := by
  have hlt := fuel.toNat_lt
  have hfuel := toNat_fuelCost fuel
  rw [fuelFormula_eq] at hfuel
  rw [toNat_cost base n _ hbase hn (by omega), hfuel, fuelFormula_eq]

theorem toNat_costContractCall {op : ContractCallOperation} (hv : op.Valid) (fuelUsed : UInt64) :
    (Rc.costContractCall op fuelUsed).toNat =
      (Operation.contractCall op).formula fuelUsed.toNat := by
  have ha : op.args.length ≤ 64 * 1024 := hv.args_short
  have hzero : fuelUsed ≠ 0 ↔ fuelUsed.toNat ≠ 0 := not_congr UInt64.toNat_inj.symm
  rw [Rc.costContractCall, Operation.formula, toNat_cost_fuel _ _ _ (by decide) (by omega)]
  by_cases h : fuelUsed ≠ 0
  · rw [if_pos h, if_pos (hzero.mp h)]
    rfl
  · rw [if_neg h, if_neg (mt hzero.mpr h)]
    rfl

/-- No cost wraps for an operation that passes its `validate`. -/
theorem cost_exact {now : TimePointSec} {op : Operation} (h : op.validate now = .ok ())
    (fuelUsed : UInt64) : (op.cost fuelUsed).toNat = op.formula fuelUsed.toNat := by
  cases op with
  | nftCreateCollection op =>
      have hv := NftCreateCollectionOperation.validate_iff.mp h
      have hs : op.symbol.length ≤ 16 := hv.symbol_short
      have hn : op.name.length ≤ 64 := hv.name_short
      exact toNat_cost _ _ _ (by decide) (by omega) (by decide)
  | nftMint op =>
      have hu : op.uri.length ≤ 256 := (NftMintOperation.validate_iff.mp h).uri_short
      exact toNat_cost _ _ _ (by decide) (by omega) (by decide)
  | nftTransfer op =>
      have hm : op.memo.length ≤ 2048 := (NftTransferOperation.validate_iff.mp h).memo_short
      have hcost := toNat_cost Rc.transferBase op.memo.length 0 (by decide) (by omega) (by decide)
      rwa [UInt64.add_zero] at hcost
  | nftApprove op => rfl
  | nftSetApprovalForAll op => rfl
  | nftBurn op => rfl
  | htlcCreate op =>
      have hm : op.memo.length ≤ 2048 := (HtlcCreateOperation.validate_iff.mp h).memo_short
      exact toNat_cost _ _ _ (by decide) (by omega) (by decide)
  | htlcRedeem op =>
      have hp : op.preimage.length ≤ 1024 :=
        (HtlcRedeemOperation.validate_iff.mp h).preimage_short
      exact toNat_cost _ _ _ (by decide) (by omega) (by decide)
  | htlcRefund op => rfl
  | contractDeploy op =>
      have hc : op.code.length ≤ 512 * 1024 :=
        (ContractDeployOperation.validate_iff.mp h).code_short
      exact toNat_cost_fuel _ _ op.fuelLimit (by decide) (by omega)
  | contractCall op =>
      exact toNat_costContractCall (ContractCallOperation.validate_iff.mp h) fuelUsed

/-! ## What a call is charged -/

/-- A call charged for some fuel within its limit, or for its limit, pays between the
cost of one unit and the cost of the limit. -/
theorem costContractCall_between {op : ContractCallOperation} (hv : op.Valid) {fuel : UInt64}
    (hle : fuel ≤ op.fuelLimit) :
    Rc.costContractCall op 1 ≤ Rc.costContractCall op fuel ∧
      Rc.costContractCall op fuel ≤ Rc.costContractCall op op.fuelLimit := by
  have hone := toNat_costContractCall hv 1
  have hfuel := toNat_costContractCall hv fuel
  have hmax := toNat_costContractCall hv op.fuelLimit
  have hlimit : op.fuelLimit.toNat ≠ 0 := fun hz => hv.fuel_ne (UInt64.toNat_inj.mp hz)
  rw [UInt64.le_iff_toNat_le] at hle
  rw [UInt64.le_iff_toNat_le, UInt64.le_iff_toNat_le, hone, hfuel, hmax]
  simp only [Operation.formula, fuelFormula_eq, UInt64.toNat_one]
  split_ifs <;> omega

/-- The call set a charge: it finished, or the engine ran it and reported a failure. -/
def SetsCharge (db : Database) (op : ContractCallOperation) (db' : Database) : Prop :=
  apply (.contractCall op) db = .ok () db' ∨
    EngineRefused db (.contractCall op) ∧ ∃ x, apply (.contractCall op) db = .error x db'

/-- What is charged is the cost of the fuel that the engine reported. -/
theorem charge_of_setsCharge {op : ContractCallOperation} (h : SetsCharge db op db') :
    ∃ c res, Callable db op c ∧ runCall db op c = .ok res ∧
      db'.lastRcCharged = Rc.costContractCall op res.fuelUsed := by
  cases h with
  | inl hok =>
      obtain ⟨c, res, hcall, hres, -, hdb⟩ := applyContractCall_ok.mp hok
      exact ⟨c, res, hcall, hres, by rw [hdb]⟩
  | inr hrefused =>
      obtain ⟨⟨call, c, res, hop, hcall, hres, -⟩, x, herror⟩ := hrefused
      cases hop
      obtain ⟨db'', hset⟩ := settled_of_result hcall hres
      have hsame : db'' = db' := by
        obtain ⟨hok, -⟩ | ⟨message, hfail, -⟩ := hset.ended
        · rw [hok] at herror
          cases herror
        · rw [hfail] at herror
          cases herror
          rfl
      exact ⟨c, res, hcall, hres, hsame ▸ hset.charged⟩

/-- The costs are their formulas, and a call is charged for at least one unit of fuel
and at most for its limit. -/
theorem rc_exact_and_bounded :
    (∀ (now : TimePointSec) (op : Operation) (fuelUsed : UInt64), op.validate now = .ok () →
      (op.cost fuelUsed).toNat = op.formula fuelUsed.toNat) ∧
    ∀ (config : NodeConfig) (steps : List Step) (op : ContractCallOperation) (db' : Database),
      SetsCharge (final config steps) op db' →
        Rc.costContractCall op 1 ≤ db'.lastRcCharged ∧
          db'.lastRcCharged ≤ Rc.costContractCall op op.fuelLimit := by
  refine ⟨fun now op fuelUsed h => cost_exact h fuelUsed, fun config steps op db' h => ?_⟩
  obtain ⟨c, res, hcall, hres, hcharge⟩ := charge_of_setsCharge h
  rw [hcharge]
  exact costContractCall_between hcall.valid (Contracts.call_used_le hres)

/-- A call that burns seven units. -/
theorem rc_exact_and_bounded_contractRun :
    (Operation.cost 57 (.contractCall (callWith (text "BURN:7")))).toNat =
        Operation.formula 57 (.contractCall (callWith (text "BURN:7"))) ∧
      ∃ db', SetsCharge (final {} contractRun) (callWith (text "BURN:7")) db' ∧
        Rc.costContractCall (callWith (text "BURN:7")) 1 ≤ db'.lastRcCharged ∧
        db'.lastRcCharged ≤ Rc.costContractCall (callWith (text "BURN:7")) 1000 := by
  have hdone : Succeeds (apply (.contractCall (callWith (text "BURN:7"))))
      (final {} contractRun) := by decide +kernel
  obtain ⟨db', hok⟩ := hdone
  obtain ⟨hexact, hbounded⟩ := rc_exact_and_bounded
  exact ⟨hexact 0 (.contractCall (callWith (text "BURN:7"))) 57 (by decide), db', Or.inl hok,
    hbounded {} contractRun _ db' (Or.inl hok)⟩

end HiveNative.Chain
