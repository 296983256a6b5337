import HiveNative.Chain.Run

/-!
# Conservation of funds

The funds of a symbol are split over two maps: the liquid amounts of the
accounts, and the amounts of the open locks.  `FundsInv` says that their sum is
what the accounts were created with, less what a second `create_account` on the
same name overwrote, and keeps with it what a stored lock owes to the checks made
when it was created.

Every balance and every open lock is at most the sum, so a sum that fits in 63
bits leaves no signed addition that can overflow.
-/

namespace HiveNative.Chain

open Std (ExtTreeMap)
open EState OrderedMap

/-! ## Totals -/

/-- The sum of the balances of a symbol. -/
def liquid (sym : AssetSymbol) (db : Database) : ℤ :=
  sumOf (fun b => (b.field sym).toInt) db.balances

/-- What a lock holds of a symbol.  A settled lock holds nothing. -/
def HtlcObject.holds (sym : AssetSymbol) (h : HtlcObject) : ℤ :=
  if h.status = HtlcStatus.open ∧ h.amount.symbol = sym then h.amount.amount.toInt else 0

/-- The sum of the open locks of a symbol. -/
def locked (sym : AssetSymbol) (db : Database) : ℤ := sumOf (HtlcObject.holds sym) db.htlcs

/-- What an event credits: the opening balance of the account it creates. -/
def credit (sym : AssetSymbol) (e : Event) : ℤ :=
  match e.label with
  | .createAccount _ hive hbd =>
      if Succeeded e then (AccountBalance.field ⟨hive, hbd⟩ sym).toInt else 0
  | _ => 0

/-- What `create_account` credited in a run. -/
def credited (sym : AssetSymbol) (tr : List Event) : ℤ := (tr.map (credit sym)).sum

/-- What an event overwrites: the balance of an account that is created again. -/
def loss (sym : AssetSymbol) (e : Event) : ℤ :=
  match e.label with
  | .createAccount name _ _ =>
      if Succeeded e then ((e.before.balances.getD name {}).field sym).toInt else 0
  | _ => 0

def overwritten (sym : AssetSymbol) (tr : List Event) : ℤ := (tr.map (loss sym)).sum

/-- The symbols an asset can have. -/
def Named (sym : AssetSymbol) : Prop := sym = .hive ∨ sym = .hbd

/-- The runs in which the funds fit: accounts are created with non-negative
amounts of at most `2^63 - 1` in total, and the lock counter does not wrap. -/
structure Funded (tr : List Event) : Prop where
  nonneg : ∀ e ∈ tr, ∀ name hive hbd, e.label = .createAccount name hive hbd →
    0 ≤ hive ∧ 0 ≤ hbd
  bounded : ∀ sym, Named sym → credited sym tr ≤ 2 ^ 63 - 1
  locks : created Step.isHtlcCreate tr < 2 ^ 64 - 1

/-- No account is created twice. -/
def FreshAccounts (tr : List Event) : Prop :=
  ∀ e ∈ tr, ∀ name hive hbd, e.label = .createAccount name hive hbd →
    e.before.accountExists name = false

variable {tr : List Event} {e : Event} {sym : AssetSymbol} {db : Database}

@[simp] theorem credited_nil (sym : AssetSymbol) : credited sym [] = 0 := rfl

theorem credited_cons (sym : AssetSymbol) (e : Event) (tr : List Event) :
    credited sym (e :: tr) = credit sym e + credited sym tr := by
  unfold credited
  rw [List.map_cons, List.sum_cons]

@[simp] theorem overwritten_nil (sym : AssetSymbol) : overwritten sym [] = 0 := rfl

theorem overwritten_cons (sym : AssetSymbol) (e : Event) (tr : List Event) :
    overwritten sym (e :: tr) = loss sym e + overwritten sym tr := by
  unfold overwritten
  rw [List.map_cons, List.sum_cons]

theorem credit_of_quiet (sym : AssetSymbol)
    (h : Succeeded e → ∀ name hive hbd, e.label ≠ .createAccount name hive hbd) :
    credit sym e = 0 := by
  unfold credit
  split
  · next name hive hbd hl =>
      rw [if_neg]
      exact fun hs => h hs name hive hbd hl
  · rfl

theorem loss_of_quiet (sym : AssetSymbol)
    (h : Succeeded e → ∀ name hive hbd, e.label ≠ .createAccount name hive hbd) :
    loss sym e = 0 := by
  unfold loss
  split
  · next name hive hbd hl =>
      rw [if_neg]
      exact fun hs => h hs name hive hbd hl
  · rfl

/-- An event that succeeds in creating no account leaves both running sums alone. -/
theorem credited_of_quiet (sym : AssetSymbol) (tr : List Event)
    (h : Succeeded e → ∀ name hive hbd, e.label ≠ .createAccount name hive hbd) :
    credited sym (e :: tr) = credited sym tr := by
  rw [credited_cons, credit_of_quiet sym h, zero_add]

theorem overwritten_of_quiet (sym : AssetSymbol) (tr : List Event)
    (h : Succeeded e → ∀ name hive hbd, e.label ≠ .createAccount name hive hbd) :
    overwritten sym (e :: tr) = overwritten sym tr := by
  rw [overwritten_cons, loss_of_quiet sym h, zero_add]

theorem toInt_nonneg_iff {x : ShareType} : 0 ≤ x ↔ 0 ≤ x.toInt := by
  rw [Int64.le_iff_toInt_le, Int64.toInt_zero]

theorem toInt_pos_iff {x : ShareType} : 0 < x ↔ 0 < x.toInt := by
  rw [Int64.lt_iff_toInt_lt, Int64.toInt_zero]

/-- Both amounts of a balance are non-negative. -/
def AccountBalance.NonNeg (b : AccountBalance) : Prop :=
  ∀ sym, Named sym → 0 ≤ (b.field sym).toInt

theorem nonNeg_iff {b : AccountBalance} : b.NonNeg ↔ 0 ≤ b.hive ∧ 0 ≤ b.hbd := by
  rw [toInt_nonneg_iff, toInt_nonneg_iff]
  constructor
  · intro h
    exact ⟨h .hive (Or.inl rfl), h .hbd (Or.inr rfl)⟩
  · intro h sym hsym
    cases hsym with
    | inl hsym =>
        subst hsym
        exact h.1
    | inr hsym =>
        subst hsym
        exact h.2

theorem credit_nonneg (hsym : Named sym)
    (h : ∀ name hive hbd, e.label = .createAccount name hive hbd → 0 ≤ hive ∧ 0 ≤ hbd) :
    0 ≤ credit sym e := by
  unfold credit
  split
  · next name hive hbd hl =>
      split
      · exact nonNeg_iff.mpr (h name hive hbd hl) sym hsym
      · exact le_rfl
  · exact le_rfl

/-- The funds fit at every earlier point of a run in which they fit. -/
theorem Funded.tail (h : Funded (e :: tr)) : Funded tr := by
  refine ⟨fun x hx => h.nonneg x (List.mem_cons_of_mem e hx), fun sym hsym => ?_, ?_⟩
  · have hb := h.bounded sym hsym
    have hc := credit_nonneg hsym (h.nonneg e List.mem_cons_self)
    rw [credited_cons] at hb
    omega
  · exact lt_of_le_of_lt (created_le_cons _ e tr) h.locks

/-! ## Balances after a move -/

theorem field_setField (b : AccountBalance) (s : AssetSymbol) (x : ShareType) (hs : Named s)
    (hsym : Named sym) : (b.setField s x).field sym = if s = sym then x else b.field sym := by
  cases hs with
  | inl hs =>
      cases hsym with
      | inl hsym => simp [hs, hsym, AccountBalance.setField, AccountBalance.field]
      | inr hsym => simp [hs, hsym, AccountBalance.setField, AccountBalance.field]
  | inr hs =>
      cases hsym with
      | inl hsym => simp [hs, hsym, AccountBalance.setField, AccountBalance.field]
      | inr hsym => simp [hs, hsym, AccountBalance.setField, AccountBalance.field]

/-- What an asset is worth in a symbol. -/
def share (a : Asset) (sym : AssetSymbol) : ℤ := if a.symbol = sym then a.amount.toInt else 0

theorem toInt_adjusted {b : AccountBalance} {a : Asset} (h : Adjustable b a)
    (ha : Named a.symbol) (hsym : Named sym) :
    ((b.adjusted a).field sym).toInt = (b.field sym).toInt + share a sym := by
  unfold AccountBalance.adjusted share
  rw [field_setField b _ _ ha hsym]
  split
  · next heq => rw [toInt_add h.fits_below h.fits, heq]
  · rw [add_zero]

theorem toInt_debited {b : AccountBalance} {a : Asset} (hpos : 0 < a.amount)
    (hcov : a.amount.toInt ≤ (b.field a.symbol).toInt) (ha : Named a.symbol) (hsym : Named sym) :
    ((b.debited a).field sym).toInt = (b.field sym).toInt - share a sym := by
  have hn : (-a.amount).toInt = -a.amount.toInt := by
    have := toInt_pos_iff.mp hpos
    exact toInt_neg (by omega)
  have hadj := toInt_adjusted ((adjustable_debit hpos).mpr hcov) ha hsym
  unfold share at hadj ⊢
  have hstep : ((b.debited a).field sym).toInt =
      (b.field sym).toInt + if a.symbol = sym then (-a.amount).toInt else 0 := hadj
  rw [hstep, hn]
  split
  · exact (sub_eq_add_neg _ _).symm
  · rw [add_zero, sub_zero]

theorem holds_open {h : HtlcObject} (ho : h.status = HtlcStatus.open) :
    h.holds sym = share h.amount sym := by
  simp [HtlcObject.holds, share, ho]

theorem holds_settled {h : HtlcObject} (ho : h.status ≠ HtlcStatus.open) : h.holds sym = 0 := by
  simp [HtlcObject.holds, ho]

/-! ## The invariant -/

/-- What a stored lock owes to the checks at its creation. -/
structure LockWf (db : Database) (id : HtlcId) (h : HtlcObject) : Prop where
  id_eq : h.id = id
  amount_pos : 0 < h.amount.amount
  symbol_named : Named h.amount.symbol
  source_valid : ValidName h.from
  dest_valid : ValidName h.to
  source_exists : db.accountExists h.from = true
  dest_exists : db.accountExists h.to = true
  size_ne : h.preimageSize ≠ 0
  size_le : h.preimageSize.toNat ≤ maxHtlcPreimageLen

structure FundsInv (tr : List Event) (db : Database) : Prop where
  balances_nonneg : ∀ (name : AccountName) (b : AccountBalance),
    db.balances[name]? = some b → b.NonNeg
  locks_wf : ∀ (id : HtlcId) (h : HtlcObject), db.htlcs[id]? = some h → LockWf db id h
  allocated : Allocated db.nextHtlcId db.htlcs (created Step.isHtlcCreate tr)
  loss_nonneg : ∀ sym, Named sym → 0 ≤ overwritten sym tr
  total : ∀ sym, Named sym →
    liquid sym db + locked sym db + overwritten sym tr = credited sym tr

theorem FundsInv.holds_nonneg (inv : FundsInv tr db) (sym : AssetSymbol) (id : HtlcId)
    (h : HtlcObject) (hh : db.htlcs[id]? = some h) : 0 ≤ h.holds sym := by
  have hp := toInt_pos_iff.mp (inv.locks_wf id h hh).amount_pos
  unfold HtlcObject.holds
  split
  · exact hp.le
  · exact le_rfl

/-- In a run whose funds fit, the amount of an open lock can be credited to any
account. -/
theorem FundsInv.adjustable (inv : FundsInv tr db) (hf : Funded tr) {id : HtlcId} {h : HtlcObject}
    (hh : db.htlcs[id]? = some h) (ho : h.status = HtlcStatus.open) {name : AccountName}
    {b : AccountBalance} (hb : db.balances[name]? = some b) : Adjustable b h.amount := by
  have hwf := inv.locks_wf id h hh
  have hp := toInt_pos_iff.mp hwf.amount_pos
  have hnn := inv.balances_nonneg name b hb _ hwf.symbol_named
  have hliq : (b.field h.amount.symbol).toInt ≤ liquid h.amount.symbol db :=
    le_sumOf (fun b => (b.field h.amount.symbol).toInt) hb fun n x hx =>
      inv.balances_nonneg n x hx _ hwf.symbol_named
  have hlock : h.amount.amount.toInt ≤ locked h.amount.symbol db := by
    have hle := le_sumOf (HtlcObject.holds h.amount.symbol) hh fun i x hx =>
      inv.holds_nonneg _ i x hx
    rwa [holds_open ho, share, if_pos rfl] at hle
  have htot := inv.total _ hwf.symbol_named
  have hlos := inv.loss_nonneg _ hwf.symbol_named
  have hmax := hf.bounded _ hwf.symbol_named
  refine ⟨fun hneg => absurd hneg (by omega), by omega, by omega⟩

theorem fundsInv_empty (config : NodeConfig) : FundsInv [] (.empty config) := by
  refine ⟨fun name b hb => ?_, fun id h hh => ?_, Allocated.start, fun _ _ => le_rfl,
    fun sym _ => ?_⟩
  · simp [Database.empty] at hb
  · simp [Database.empty] at hh
  · simp [Database.empty, liquid, locked]

/-! ## One event -/

section Step

/-- Accounts are never removed. -/
theorem LockWf.mono {db' : Database} {id : HtlcId} {h : HtlcObject} (hw : LockWf db id h)
    (hacc : ∀ name, db.accountExists name = true → db'.accountExists name = true) :
    LockWf db' id h :=
  { hw with
    source_exists := hacc _ hw.source_exists
    dest_exists := hacc _ hw.dest_exists }

theorem accountExists_insert {db' : Database} {name : AccountName} {b : AccountBalance}
    (h : db'.balances = db.balances.insert name b) (n : AccountName)
    (hn : db.accountExists n = true) : db'.accountExists n = true := by
  unfold Database.accountExists at *
  rw [h, ExtTreeMap.contains_insert, hn, Bool.or_true]

theorem nonNeg_insert {m m' : ExtTreeMap AccountName AccountBalance} {name : AccountName}
    {b : AccountBalance} (heq : m' = m.insert name b) (hb : b.NonNeg)
    (hm : ∀ (n : AccountName) (x : AccountBalance), m[n]? = some x → x.NonNeg)
    (n : AccountName) (x : AccountBalance) (hx : m'[n]? = some x) : x.NonNeg := by
  rw [heq, getElem?_insert_eq] at hx
  split at hx
  · cases hx
    exact hb
  · exact hm n x hx

theorem locksWf_insert {db' : Database} {id : HtlcId} {h : HtlcObject}
    (heq : db'.htlcs = db.htlcs.insert id h) (hw : LockWf db' id h)
    (hm : ∀ (i : HtlcId) (x : HtlcObject), db.htlcs[i]? = some x → LockWf db' i x)
    (i : HtlcId) (x : HtlcObject) (hx : db'.htlcs[i]? = some x) : LockWf db' i x := by
  rw [heq, getElem?_insert_eq] at hx
  split at hx
  · next hi =>
      cases hx
      subst hi
      exact hw
  · exact hm i x hx

/-- A new lock is well-formed by the checks of `htlc_create`. -/
theorem lockWf_new {db' : Database} {op : HtlcCreateOperation} {b : AccountBalance}
    (guards : Lockable db op b)
    (hacc : ∀ name, db.accountExists name = true → db'.accountExists name = true) :
    LockWf db' db.nextHtlcId (newHtlc db op) where
  id_eq := rfl
  amount_pos := guards.valid.amount_pos
  symbol_named := guards.valid.symbol_named
  source_valid := guards.valid.source
  dest_valid := guards.valid.dest
  source_exists := hacc _ (accountExists_iff.mpr ⟨b, guards.found⟩)
  dest_exists := hacc _ guards.dest_exists
  size_ne := guards.valid.size_ne
  size_le := guards.valid.size_le

/-- Every stored lock is well-formed. -/
def LocksSound (db : Database) : Prop :=
  ∀ (id : HtlcId) (h : HtlcObject), db.htlcs[id]? = some h → LockWf db id h

theorem locksSound_step (s : Step) (hl : LocksSound db) :
    LocksSound (Machine.event exec db s).after := by
  cases fundsMove db s with
  | idle same quiet =>
      intro id h hh
      rw [same.htlcs] at hh
      refine (hl id h hh).mono fun name hn => ?_
      rw [Database.accountExists, same.balances]
      exact hn
  | account done label valid balances htlcs next =>
      intro id h hh
      rw [htlcs] at hh
      exact (hl id h hh).mono (accountExists_insert balances)
  | lock done label guards balances htlcs next =>
      have hacc := accountExists_insert balances
      exact locksWf_insert htlcs (lockWf_new guards hacc) fun i x hx => (hl i x hx).mono hacc
  | redeem done label guards balances htlcs next =>
      have hacc := accountExists_insert balances
      have hwf := (hl _ _ guards.found).mono hacc
      exact locksWf_insert htlcs { hwf with } fun i x hx => (hl i x hx).mono hacc
  | refund done label guards balances htlcs next =>
      have hacc := accountExists_insert balances
      have hwf := (hl _ _ guards.found).mono hacc
      exact locksWf_insert htlcs { hwf with } fun i x hx => (hl i x hx).mono hacc

theorem locksSound_run (config : NodeConfig) (steps : List Step) :
    LocksSound (final config steps) := by
  induction steps with
  | nil =>
      intro id h hh
      simp [Database.empty] at hh
  | cons s steps ih => exact locksSound_step s ih

/-- A credit of the amount of an open lock keeps the balances non-negative. -/
theorem nonNeg_adjusted {b : AccountBalance} {a : Asset} (hb : b.NonNeg) (h : Adjustable b a)
    (hpos : 0 < a.amount) (ha : Named a.symbol) : (b.adjusted a).NonNeg := by
  intro sym hsym
  have hn := hb sym hsym
  have hp := toInt_pos_iff.mp hpos
  rw [toInt_adjusted h ha hsym]
  unfold share
  split
  · omega
  · omega

theorem nonNeg_debited {b : AccountBalance} {a : Asset} (hb : b.NonNeg) (hpos : 0 < a.amount)
    (hcov : a.amount.toInt ≤ (b.field a.symbol).toInt) (ha : Named a.symbol) :
    (b.debited a).NonNeg := by
  intro sym hsym
  have hn := hb sym hsym
  rw [toInt_debited hpos hcov ha hsym]
  unfold share
  split
  · next heq =>
      subst heq
      omega
  · omega

theorem liquid_insert_old {db' : Database} {name : AccountName} {b b' : AccountBalance}
    (heq : db'.balances = db.balances.insert name b') (hb : db.balances[name]? = some b) :
    liquid sym db' = liquid sym db + ((b'.field sym).toInt - (b.field sym).toInt) := by
  unfold liquid
  rw [heq, sumOf_insert_old _ hb]

theorem locked_insert_old {db' : Database} {id : HtlcId} {h h' : HtlcObject}
    (heq : db'.htlcs = db.htlcs.insert id h') (hh : db.htlcs[id]? = some h) :
    locked sym db' = locked sym db + (h'.holds sym - h.holds sym) := by
  unfold locked
  rw [heq, sumOf_insert_old _ hh]

theorem quiet_of_apply {op : Operation} (hl : e.label = .apply op) :
    Succeeded e → ∀ name hive hbd, e.label ≠ .createAccount name hive hbd := by
  intro _ name hive hbd hc
  rw [hl] at hc
  cases hc

theorem fundsInv_idle (inv : FundsInv tr e.before) (locks : LocksSound e.after)
    (same : SameFunds e.before e.after)
    (quiet : Succeeded e → e.label.isHtlcCreate = false ∧
      ∀ name hive hbd, e.label ≠ .createAccount name hive hbd) :
    FundsInv (e :: tr) e.after := by
  refine ⟨?_, locks, ?_, ?_, ?_⟩
  · rw [same.balances]
    exact inv.balances_nonneg
  · rw [same.next, same.htlcs, created_of_quiet tr fun hs => (quiet hs).1]
    exact inv.allocated
  · intro sym hsym
    rw [overwritten_of_quiet sym tr fun hs => (quiet hs).2]
    exact inv.loss_nonneg sym hsym
  · intro sym hsym
    rw [overwritten_of_quiet sym tr fun hs => (quiet hs).2,
      credited_of_quiet sym tr fun hs => (quiet hs).2, liquid, locked, same.balances, same.htlcs]
    exact inv.total sym hsym

theorem fundsInv_account (inv : FundsInv tr e.before) (locks : LocksSound e.after)
    (hf : Funded (e :: tr)) {name : AccountName} {hive hbd : ShareType}
    (done : Succeeded e) (label : e.label = .createAccount name hive hbd)
    (balances : e.after.balances = e.before.balances.insert name ⟨hive, hbd⟩)
    (htlcs : e.after.htlcs = e.before.htlcs) (next : e.after.nextHtlcId = e.before.nextHtlcId) :
    FundsInv (e :: tr) e.after := by
  have hcredit : ∀ sym, credit sym e = (AccountBalance.field ⟨hive, hbd⟩ sym).toInt := by
    intro sym
    rw [credit, label]
    exact if_pos done
  have hloss : ∀ sym, loss sym e = ((e.before.balances.getD name {}).field sym).toInt := by
    intro sym
    rw [loss, label]
    exact if_pos done
  have hnew : AccountBalance.NonNeg ⟨hive, hbd⟩ :=
    nonNeg_iff.mpr (hf.nonneg e List.mem_cons_self name hive hbd label)
  refine ⟨nonNeg_insert balances hnew inv.balances_nonneg, locks, ?_, ?_, ?_⟩
  · rw [next, htlcs, created_of_quiet tr fun _ => by rw [label]; rfl]
    exact inv.allocated
  · intro sym hsym
    have hold := inv.loss_nonneg sym hsym
    rw [overwritten_cons, hloss, ExtTreeMap.getD_eq_getD_getElem?]
    cases hb : e.before.balances[name]? with
    | none => simpa [AccountBalance.field] using hold
    | some b =>
        have := inv.balances_nonneg name b hb sym hsym
        simp only [Option.getD_some]
        omega
  · intro sym hsym
    have htot := inv.total sym hsym
    rw [overwritten_cons, hloss, credited_cons, hcredit, ExtTreeMap.getD_eq_getD_getElem?]
    have hlocked : locked sym e.after = locked sym e.before := by rw [locked, htlcs, locked]
    cases hb : e.before.balances[name]? with
    | none =>
        have hliq : liquid sym e.after =
            liquid sym e.before + (AccountBalance.field ⟨hive, hbd⟩ sym).toInt := by
          unfold liquid
          rw [balances, sumOf_insert_new _ hb]
        have hzero : (AccountBalance.field {} sym).toInt = 0 := by simp [AccountBalance.field]
        rw [hliq, hlocked, Option.getD_none, hzero]
        omega
    | some b =>
        rw [liquid_insert_old balances hb, hlocked, Option.getD_some]
        omega

theorem fundsInv_lock (inv : FundsInv tr e.before) (locks : LocksSound e.after)
    (hf : Funded (e :: tr))
    {op : HtlcCreateOperation} {b : AccountBalance} (done : Succeeded e)
    (label : e.label = .apply (.htlcCreate op)) (guards : Lockable e.before op b)
    (balances : e.after.balances = e.before.balances.insert op.from (b.debited op.amount))
    (htlcs : e.after.htlcs = e.before.htlcs.insert e.before.nextHtlcId (newHtlc e.before op))
    (next : e.after.nextHtlcId = e.before.nextHtlcId + 1) : FundsInv (e :: tr) e.after := by
  have hpos := guards.valid.amount_pos
  have hnamed : Named op.amount.symbol := guards.valid.symbol_named
  have hcount : created Step.isHtlcCreate (e :: tr) = created Step.isHtlcCreate tr + 1 :=
    created_of_kind tr done (by rw [label]; rfl)
  refine ⟨?_, locks, ?_, ?_, ?_⟩
  · exact nonNeg_insert balances
      (nonNeg_debited (inv.balances_nonneg _ b guards.found) hpos guards.covered hnamed)
      inv.balances_nonneg
  · rw [next, htlcs, hcount]
    refine inv.allocated.insert ?_ _
    have := hf.locks
    omega
  · intro sym hsym
    rw [overwritten_of_quiet sym tr (quiet_of_apply label)]
    exact inv.loss_nonneg sym hsym
  · intro sym hsym
    have htot := inv.total sym hsym
    have hlocked : locked sym e.after = locked sym e.before + share op.amount sym := by
      unfold locked
      rw [htlcs, sumOf_insert_new _ inv.allocated.fresh, holds_open rfl]
      rfl
    rw [overwritten_of_quiet sym tr (quiet_of_apply label),
      credited_of_quiet sym tr (quiet_of_apply label), liquid_insert_old balances guards.found,
      hlocked, toInt_debited hpos guards.covered hnamed hsym]
    omega

/-- A redeem and a refund both credit the amount of an open lock to some account
and settle the lock. -/
theorem fundsInv_settle (inv : FundsInv tr e.before) (locks : LocksSound e.after) {op : Operation}
    (label : e.label = .apply op) (hkind : e.label.isHtlcCreate = false) {id : HtlcId}
    {h : HtlcObject} {name : AccountName} {b : AccountBalance} {status : HtlcStatus}
    (found : e.before.htlcs[id]? = some h) (still_open : h.status = HtlcStatus.open)
    (settled : status ≠ HtlcStatus.open) (account : e.before.balances[name]? = some b)
    (adjustable : Adjustable b h.amount)
    (balances : e.after.balances = e.before.balances.insert name (b.adjusted h.amount))
    (htlcs : e.after.htlcs = e.before.htlcs.insert id { h with status := status })
    (next : e.after.nextHtlcId = e.before.nextHtlcId) : FundsInv (e :: tr) e.after := by
  have hwf := inv.locks_wf id h found
  refine ⟨?_, locks, ?_, ?_, ?_⟩
  · exact nonNeg_insert balances
      (nonNeg_adjusted (inv.balances_nonneg _ b account) adjustable hwf.amount_pos
        hwf.symbol_named) inv.balances_nonneg
  · rw [next, htlcs, created_of_quiet tr fun _ => hkind]
    exact inv.allocated.update found _
  · intro sym hsym
    rw [overwritten_of_quiet sym tr (quiet_of_apply label)]
    exact inv.loss_nonneg sym hsym
  · intro sym hsym
    have htot := inv.total sym hsym
    rw [overwritten_of_quiet sym tr (quiet_of_apply label),
      credited_of_quiet sym tr (quiet_of_apply label), liquid_insert_old balances account,
      locked_insert_old htlcs found, toInt_adjusted adjustable hwf.symbol_named hsym,
      holds_open still_open, holds_settled settled]
    omega

theorem fundsInv_step (db : Database) (s : Step) (hf : Funded (Machine.event exec db s :: tr))
    (inv : FundsInv tr db) : FundsInv (Machine.event exec db s :: tr) (exec s db).2 := by
  have locks := locksSound_step s inv.locks_wf
  cases fundsMove db s with
  | idle same quiet => exact fundsInv_idle inv locks same quiet
  | account done label valid balances htlcs next =>
      exact fundsInv_account inv locks hf done label balances htlcs next
  | lock done label guards balances htlcs next =>
      exact fundsInv_lock inv locks hf done label guards balances htlcs next
  | redeem done label guards balances htlcs next =>
      have hr : HtlcStatus.redeemed ≠ HtlcStatus.open := fun hc => by cases hc
      exact fundsInv_settle inv locks label (by rw [label]; rfl) guards.found guards.still_open hr
        guards.account guards.adjustable balances htlcs next
  | refund done label guards balances htlcs next =>
      have hr : HtlcStatus.refunded ≠ HtlcStatus.open := fun hc => by cases hc
      exact fundsInv_settle inv locks label (by rw [label]; rfl) guards.found guards.still_open hr
        guards.account guards.adjustable balances htlcs next

end Step

/-! ## Whole runs -/

theorem fundsInv_run (config : NodeConfig) (steps : List Step)
    (h : Funded (trace config steps)) : FundsInv (trace config steps) (final config steps) :=
  Machine.invariant_of Funded FundsInv (fun _ _ => Funded.tail) (fundsInv_empty config)
    (fun _ db s hf inv => fundsInv_step db s hf inv) steps h

/-- A run whose funds fit is a continuation of runs whose funds fit. -/
theorem funded_earlier {config : NodeConfig} {past : List Step} (later : List Step)
    (h : Funded (trace config (later ++ past))) : Funded (trace config past) := by
  induction later with
  | nil => exact h
  | cons s later ih => exact ih h.tail

/-- The state before an event of a run satisfies the invariant. -/
theorem fundsInv_before (config : NodeConfig) (steps : List Step)
    (hf : Funded (trace config steps)) (he : e ∈ trace config steps) :
    ∃ tr, FundsInv tr e.before ∧ Funded (e :: tr) ∧ e = Machine.event exec e.before e.label :=
  Machine.invariant_before Funded FundsInv (fun _ _ => Funded.tail) (fundsInv_empty config)
    (fun _ db s hf inv => fundsInv_step db s hf inv) steps hf he

/-- Where the funds fit, no step is undefined. -/
theorem FundsInv.defined (inv : FundsInv tr db) (hf : Funded tr) (s : Step) :
    (Machine.event exec db s).outcome ≠ .error .undefined := by
  intro hu
  cases event_cases db s with
  | inl hok =>
      obtain ⟨hs, -⟩ := hok
      rw [hs] at hu
      cases hu
  | inr hfail =>
      obtain ⟨x, ho, hfail⟩ := hfail
      rw [ho] at hu
      cases hu
      cases s with
      | createAccount name hive hbd => exact (atomic_createAccount name hive hbd _ _ _ hfail).2 rfl
      | setHeadTime t => exact modify_error.mp hfail
      | apply op =>
          obtain ⟨id, x, name, hx, hopen, -, b, hb, hover⟩ := apply_undefined hfail
          have hadj := inv.adjustable hf hx hopen hb
          have hpos := toInt_pos_iff.mp (inv.locks_wf id x hx).amount_pos
          cases hover with
          | inl hm => omega
          | inr hr => exact hr ⟨hadj.fits_below, hadj.fits⟩

theorem overwritten_of_fresh (h : FreshAccounts tr) (sym : AssetSymbol) :
    overwritten sym tr = 0 := by
  induction tr with
  | nil => rfl
  | cons e tr ih =>
      rw [overwritten_cons, ih fun x hx => h x (List.mem_cons_of_mem e hx), add_zero]
      unfold loss
      split
      · next name hive hbd hl =>
          have hnone : e.before.balances[name]? = none := by
            have hfree := h e List.mem_cons_self name hive hbd hl
            rw [Database.accountExists, ← Bool.not_eq_true, ExtTreeMap.contains_iff_mem,
              not_mem_iff] at hfree
            exact hfree
          rw [ExtTreeMap.getD_eq_getD_getElem?, hnone]
          simp [AccountBalance.field]
      · rfl

/-- Funds are conserved: the balances and the open locks of a symbol add up to
what the accounts were created with, no balance is negative, every lock holds a
positive amount, and no signed operation overflows. -/
theorem funds_conserved (config : NodeConfig) (steps : List Step)
    (hfunded : Funded (trace config steps)) (hfresh : FreshAccounts (trace config steps)) :
    (∀ sym, Named sym → liquid sym (final config steps) + locked sym (final config steps) =
        credited sym (trace config steps)) ∧
      (∀ (name : AccountName) (b : AccountBalance),
        (final config steps).balances[name]? = some b → 0 ≤ b.hive ∧ 0 ≤ b.hbd) ∧
      (∀ (id : HtlcId) (h : HtlcObject), (final config steps).htlcs[id]? = some h →
        0 < h.amount.amount) ∧
      ∀ e ∈ trace config steps, e.outcome ≠ .error .undefined := by
  have inv := fundsInv_run config steps hfunded
  refine ⟨fun sym hsym => ?_, fun name b hb => ?_, fun id h hh => ?_, fun e he => ?_⟩
  · have htot := inv.total sym hsym
    rwa [overwritten_of_fresh hfresh sym, add_zero] at htot
  · exact nonNeg_iff.mp (inv.balances_nonneg name b hb)
  · exact (inv.locks_wf id h hh).amount_pos
  · obtain ⟨tr, hinv, hf, heq⟩ := fundsInv_before config steps hfunded he
    rw [heq]
    exact hinv.defined hf.tail e.label

/-- A run is funded when its steps create accounts with non-negative amounts and
the totals fit. -/
theorem funded_of_steps {config : NodeConfig} {steps : List Step}
    (hnonneg : ∀ name hive hbd, .createAccount name hive hbd ∈ steps → 0 ≤ hive ∧ 0 ≤ hbd)
    (hhive : credited .hive (trace config steps) ≤ 2 ^ 63 - 1)
    (hhbd : credited .hbd (trace config steps) ≤ 2 ^ 63 - 1)
    (hlocks : created Step.isHtlcCreate (trace config steps) < 2 ^ 64 - 1) :
    Funded (trace config steps) := by
  refine ⟨fun e he name hive hbd hl => ?_, fun sym hsym => ?_, hlocks⟩
  · have hmem := Machine.label_mem he
    rw [hl] at hmem
    exact hnonneg name hive hbd hmem
  · cases hsym with
    | inl h => exact h ▸ hhive
    | inr h => exact h ▸ hhbd

/-- Alice locks 40 of her 100 HIVE for Bob, takes them back after an hour and
locks 10. -/
def refundRun : List Step :=
  [ .apply (.htlcCreate
      { «from» := text "alice", «to» := text "bob", amount := ⟨10, .hive⟩
        preimageHash := ⟨.sha256, List.replicate 32 0⟩, preimageSize := 32, expiration := 7300 }),
    .apply (.htlcRefund { «from» := text "alice", htlcId := 1 }),
    .setHeadTime 3700,
    .apply (.htlcCreate
      { «from» := text "alice", «to» := text "bob", amount := ⟨40, .hive⟩
        preimageHash := ⟨.sha256, List.replicate 32 0⟩, preimageSize := 32, expiration := 3600 }),
    .createAccount (text "bob") 5 7,
    .createAccount (text "alice") 100 0 ]

theorem refundRun_funded : Funded (trace {} refundRun) := by
  refine funded_of_steps (fun name hive hbd hmem => ?_) (by decide +kernel) (by decide +kernel)
    (by decide +kernel)
  simp [refundRun] at hmem
  obtain ⟨-, rfl, rfl⟩ | ⟨-, rfl, rfl⟩ := hmem
  · decide
  · decide

theorem funds_conserved_refundRun :
    Funded (trace {} refundRun) ∧ liquid .hive (final {} refundRun) = 95 ∧
      liquid .hive (final {} refundRun) + locked .hive (final {} refundRun) = 105 := by
  have hfresh : FreshAccounts (trace {} refundRun) := by
    intro e he name hive hbd hl
    simp only [trace, refundRun, Machine.trace_cons, Machine.trace_nil, List.mem_cons,
      List.not_mem_nil, or_false] at he
    obtain rfl | rfl | rfl | rfl | rfl | rfl := he
    case inr.inr.inr.inr.inl => cases hl; decide +kernel
    case inr.inr.inr.inr.inr => cases hl; decide +kernel
    all_goals cases hl
  have hsum := (funds_conserved {} refundRun refundRun_funded hfresh).1 .hive (Or.inl rfl)
  exact ⟨refundRun_funded, by decide +kernel, hsum.trans (by decide +kernel)⟩

end HiveNative.Chain
