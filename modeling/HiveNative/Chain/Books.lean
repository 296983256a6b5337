import HiveNative.Lib.DoubleEntry
import HiveNative.Chain.LockQuota

/-!
# The books of a run

A bookkeeper is told which steps were accepted, and nothing else.  The journal has the
accounts for holders, a holder for every lock, and the outside, where new balances come
from.  A lock moves its amount from its owner to the lock, and settling it closes the
lock.  An account that is created again is closed first.

The books show what the database holds (`books_show_holdings`), account by account and
lock by lock: no balance moves but by these entries, a settled lock is left with nothing,
and no 64-bit sum went wrong.  As the books are balanced, what came in from the outside
is all in the balances and the open locks.
-/

namespace HiveNative.Chain

open Std (ExtTreeMap)
open EState OrderedMap DoubleEntry

/-! ## The journal -/

/-- Who can have funds. -/
inductive Holder where
  | outside
  | account (name : AccountName)
  | lock (id : HtlcId)
deriving Repr, DecidableEq

/-- An amount of every symbol. -/
abbrev Amounts := AssetSymbol → ℤ

abbrev Books := Journal Holder Amounts

def AccountBalance.amounts (b : AccountBalance) : Amounts := fun sym => (b.field sym).toInt

/-- The entries of an accepted step, newest first, when the accepted steps before it made
`locks` locks and are in the books. -/
def entriesOf (locks : ℕ) (j : Books) : Step → Books
  | .createAccount name hive hbd =>
      [⟨.outside, .account name, AccountBalance.amounts ⟨hive, hbd⟩⟩,
        closing j (.account name) .outside]
  | .apply (.htlcCreate op) =>
      [⟨.account op.from, .lock (UInt64.ofNat (locks + 1)), share op.amount⟩]
  | .apply (.htlcRedeem op) => [closing j (.lock op.htlcId) (.account op.to)]
  | .apply (.htlcRefund op) => [closing j (.lock op.htlcId) (.account op.from)]
  | _ => []

/-- The books after these steps were accepted, the newest of them first. -/
def booksOf : List Step → Books
  | [] => []
  | s :: past => entriesOf (past.countP Step.isHtlcCreate) (booksOf past) s ++ booksOf past

/-- The steps of a run that were accepted. -/
def accepted (tr : List Event) : List Step :=
  (tr.filter fun e => decide (Succeeded e)).map (·.label)

variable {tr : List Event} {e : Event} {db db' : Database} {j : Books} {s : Step}
variable {sym : AssetSymbol}

theorem accepted_of_done (tr : List Event) (h : Succeeded e) :
    accepted (e :: tr) = e.label :: accepted tr := by
  unfold accepted
  rw [List.filter_cons_of_pos (by simpa using h), List.map_cons]

theorem accepted_of_failed (tr : List Event) (h : ¬ Succeeded e) :
    accepted (e :: tr) = accepted tr := by
  unfold accepted
  rw [List.filter_cons_of_neg (by simpa using h)]

theorem countP_accepted (kind : Step → Bool) (tr : List Event) :
    (accepted tr).countP kind = created kind tr := by
  unfold accepted created
  rw [List.countP_map, List.countP_filter]
  refine List.countP_congr fun e _ => ?_
  rw [Function.comp_apply, Bool.and_comm]

/-! ## What the database holds -/

def Database.balanceOf (db : Database) (sym : AssetSymbol) (name : AccountName) : ℤ :=
  db.balances[name]?.elim 0 fun b => b.amounts sym

def Database.heldBy (db : Database) (sym : AssetSymbol) (id : HtlcId) : ℤ :=
  db.htlcs[id]?.elim 0 (HtlcObject.holds sym)

/-- What a holder has in the database.  The outside is short of all the others have. -/
def Database.holding (db : Database) (sym : AssetSymbol) : Holder → ℤ
  | .outside => -(liquid sym db + locked sym db)
  | .account name => db.balanceOf sym name
  | .lock id => db.heldBy sym id

/-- The books show the balances and the locks. -/
structure BooksShow (j : Books) (db : Database) : Prop where
  accounts : ∀ name sym, Named sym → balance j (.account name) sym = db.balanceOf sym name
  locks : ∀ id sym, Named sym → balance j (.lock id) sym = db.heldBy sym id

theorem balanceOf_congr (h : db'.balances = db.balances) (sym : AssetSymbol)
    (name : AccountName) : db'.balanceOf sym name = db.balanceOf sym name := by
  rw [Database.balanceOf, h, Database.balanceOf]

theorem heldBy_congr (h : db'.htlcs = db.htlcs) (sym : AssetSymbol) (id : HtlcId) :
    db'.heldBy sym id = db.heldBy sym id := by
  rw [Database.heldBy, h, Database.heldBy]

theorem balanceOf_insert {name : AccountName} {b : AccountBalance}
    (h : db'.balances = db.balances.insert name b) (sym : AssetSymbol) (a : AccountName) :
    db'.balanceOf sym a = if a = name then b.amounts sym else db.balanceOf sym a := by
  rw [Database.balanceOf, h, elim_insert, Database.balanceOf]

theorem heldBy_insert {id : HtlcId} {h : HtlcObject} (heq : db'.htlcs = db.htlcs.insert id h)
    (sym : AssetSymbol) (i : HtlcId) :
    db'.heldBy sym i = if i = id then h.holds sym else db.heldBy sym i := by
  rw [Database.heldBy, heq, elim_insert, Database.heldBy]

theorem balanceOf_of_some {name : AccountName} {b : AccountBalance}
    (h : db.balances[name]? = some b) (sym : AssetSymbol) :
    db.balanceOf sym name = b.amounts sym := by
  rw [Database.balanceOf, h, Option.elim_some]

theorem heldBy_of_some {id : HtlcId} {h : HtlcObject} (heq : db.htlcs[id]? = some h)
    (sym : AssetSymbol) : db.heldBy sym id = h.holds sym := by
  rw [Database.heldBy, heq, Option.elim_some]

/-! ## One step -/

theorem BooksShow.congr (h : BooksShow j db) (same : SameFunds db db') : BooksShow j db' where
  accounts := fun name sym hsym =>
    (h.accounts name sym hsym).trans (balanceOf_congr same.balances sym name).symm
  locks := fun id sym hsym => (h.locks id sym hsym).trans (heldBy_congr same.htlcs sym id).symm

/-- An account is closed, if it was there, and opened. -/
theorem BooksShow.open (h : BooksShow j db) {name : AccountName} {hive hbd : ShareType}
    (balances : db'.balances = db.balances.insert name ⟨hive, hbd⟩)
    (htlcs : db'.htlcs = db.htlcs) :
    BooksShow (⟨.outside, .account name, AccountBalance.amounts ⟨hive, hbd⟩⟩ ::
      closing j (.account name) .outside :: j) db' where
  accounts := fun a sym hsym => by
    rw [balanceOf_insert balances]
    split
    · next ha =>
        subst ha
        rw [balance_cons_target (by simp), balance_closing_source (by simp), zero_add]
    · next ha =>
        have hne : Holder.account name ≠ .account a := by simpa using Ne.symm ha
        rw [balance_cons_other (by simp) hne, balance_cons_other hne (by simp [closing])]
        exact h.accounts a sym hsym
  locks := fun id sym hsym => by
    rw [balance_cons_other (by simp) (by simp), balance_cons_other (by simp [closing])
      (by simp [closing]), h.locks id sym hsym, heldBy_congr htlcs]

/-- An amount goes from its owner into a lock of its own. -/
theorem BooksShow.lock (h : BooksShow j db) {op : HtlcCreateOperation} {b : AccountBalance}
    {locks : ℕ} (ids : Allocated db.nextHtlcId db.htlcs locks) (guards : Lockable db op b)
    (balances : db'.balances = db.balances.insert op.from (b.debited op.amount))
    (htlcs : db'.htlcs = db.htlcs.insert db.nextHtlcId (newHtlc db op)) :
    BooksShow (entriesOf locks j (.apply (.htlcCreate op)) ++ j) db' := by
  have hid : UInt64.ofNat (locks + 1) = db.nextHtlcId := by
    rw [← ids.next_eq, UInt64.ofNat_toNat]
  have hentry : entriesOf locks j (.apply (.htlcCreate op)) =
      [⟨.account op.from, .lock db.nextHtlcId, share op.amount⟩] := by
    rw [entriesOf, hid]
  rw [hentry, List.singleton_append]
  refine ⟨fun a sym hsym => ?_, fun id sym hsym => ?_⟩
  · rw [balanceOf_insert balances]
    split
    · next ha =>
        subst ha
        have hdebit := toInt_debited guards.valid.amount_pos guards.covered
          guards.valid.symbol_named hsym
        rw [balance_cons_source (by simp), Pi.sub_apply, h.accounts _ sym hsym,
          balanceOf_of_some guards.found]
        exact hdebit.symm
    · next ha =>
        rw [balance_cons_other (by simpa using Ne.symm ha) (by simp)]
        exact h.accounts a sym hsym
  · rw [heldBy_insert htlcs]
    split
    · next hi =>
        subst hi
        have hnothing : db.heldBy sym db.nextHtlcId = 0 := by
          rw [Database.heldBy, ids.fresh, Option.elim_none]
        rw [balance_cons_target (by simp), Pi.add_apply, h.locks _ sym hsym, hnothing, zero_add]
        exact (holds_open (h := newHtlc db op) rfl).symm
    · next hi =>
        rw [balance_cons_other (by simp) (by simpa using Ne.symm hi)]
        exact h.locks id sym hsym

/-- A lock is closed in favour of the account that the operation names. -/
theorem BooksShow.settle (h : BooksShow j db) (status : HtlcStatus) {id : HtlcId} {x : HtlcObject}
    {payee name : AccountName} {b : AccountBalance} (named : payee = name)
    (found : db.htlcs[id]? = some x) (wf : LockWf db id x)
    (still_open : x.status = HtlcStatus.open) (settled : status ≠ HtlcStatus.open)
    (account : db.balances[payee]? = some b) (adjustable : Adjustable b x.amount)
    (balances : db'.balances = db.balances.insert payee (b.adjusted x.amount))
    (htlcs : db'.htlcs = db.htlcs.insert id { x with status := status }) :
    BooksShow (closing j (.lock id) (.account name) :: j) db' := by
  subst named
  refine ⟨fun a sym hsym => ?_, fun i sym hsym => ?_⟩
  · rw [balanceOf_insert balances]
    split
    · next ha =>
        subst ha
        rw [balance_closing_target (by simp), Pi.add_apply, h.accounts _ sym hsym,
          h.locks id sym hsym, balanceOf_of_some account, heldBy_of_some found,
          holds_open still_open]
        exact (toInt_adjusted adjustable wf.symbol_named hsym).symm
    · next ha =>
        rw [balance_cons_other (by simp [closing]) (by simpa [closing] using Ne.symm ha)]
        exact h.accounts a sym hsym
  · rw [heldBy_insert htlcs]
    split
    · next hi =>
        subst hi
        rw [balance_closing_source (by simp), Pi.zero_apply]
        exact (holds_settled settled).symm
    · next hi =>
        rw [balance_cons_other (by simpa [closing] using Ne.symm hi) (by simp [closing])]
        exact h.locks i sym hsym

/-- The books follow a step that was accepted, and no other step does anything. -/
theorem shown_step (h : BooksShow (booksOf (accepted tr)) db) (wf : LocksWf tr db) (s : Step) :
    BooksShow (booksOf (accepted (Machine.event exec db s :: tr)))
      (Machine.event exec db s).after := by
  cases event_cases db s with
  | inr hfail =>
      obtain ⟨x, ho, hfail⟩ := hfail
      rw [accepted_of_failed tr fun hs => by rw [Succeeded, ho] at hs; cases hs]
      exact h.congr (program_error_funds hfail)
  | inl hok =>
      obtain ⟨hs, hok⟩ := hok
      rw [accepted_of_done tr hs, booksOf, countP_accepted]
      cases s with
      | createAccount name hive hbd =>
          obtain ⟨-, hdb⟩ := createAccount_ok.mp hok
          exact h.open (by rw [hdb]) (by rw [hdb])
      | setHeadTime t =>
          have hdb := (modify_ok.mp hok).symm
          exact h.congr (by rw [hdb]; exact ⟨rfl, rfl, rfl⟩)
      | apply op =>
          have hframe : Framed op db _ := apply_frame hok
          cases op with
          | htlcCreate op =>
              obtain ⟨b, hg, hdb⟩ := applyHtlcCreate_ok.mp hok
              exact h.lock wf.allocated hg (by rw [hdb]) (by rw [hdb])
          | htlcRedeem op =>
              obtain ⟨x, b, hg, hdb⟩ := applyHtlcRedeem_ok.mp hok
              exact h.settle .redeemed hg.dest hg.found (wf.locks _ x hg.found).1
                hg.still_open (by decide) hg.account hg.adjustable (by rw [hdb]) (by rw [hdb])
          | htlcRefund op =>
              obtain ⟨x, b, hg, hdb⟩ := applyHtlcRefund_ok.mp hok
              exact h.settle .refunded hg.source hg.found (wf.locks _ x hg.found).1
                hg.still_open (by decide) hg.account hg.adjustable (by rw [hdb]) (by rw [hdb])
          | _ => exact h.congr (hframe.funds fun h => by cases h)

/-! ## Whole runs -/

theorem shown_run (config : NodeConfig) (steps : List Step)
    (h : CountedLocks (trace config steps)) :
    BooksShow (booksOf (accepted (trace config steps))) (final config steps) := by
  induction steps with
  | nil =>
      refine ⟨fun name sym _ => ?_, fun id sym _ => ?_⟩
      · simp [accepted, booksOf, Database.balanceOf, Database.empty]
      · simp [accepted, booksOf, Database.heldBy, Database.empty]
  | cons s steps ih => exact shown_step (ih h.tail) (quotaInv_run config steps h.tail).locks s

/-- The holders of a database that can have something. -/
def Database.holders (db : Database) : Finset Holder :=
  insert .outside ((keySet db.balances).image .account ∪ (keySet db.htlcs).image .lock)

theorem balanceOf_of_not_mem {name : AccountName} (h : name ∉ keySet db.balances) :
    db.balanceOf sym name = 0 := by
  cases hb : db.balances[name]? with
  | none => rw [Database.balanceOf, hb, Option.elim_none]
  | some b => exact absurd (mem_keySet.mpr ⟨b, hb⟩) h

theorem heldBy_of_not_mem {id : HtlcId} (h : id ∉ keySet db.htlcs) : db.heldBy sym id = 0 := by
  cases hx : db.htlcs[id]? with
  | none => rw [Database.heldBy, hx, Option.elim_none]
  | some x => exact absurd (mem_keySet.mpr ⟨x, hx⟩) h

theorem sum_holders (db : Database) (f : Holder → ℤ) :
    ∑ a ∈ db.holders, f a = f .outside +
      (∑ name ∈ keySet db.balances, f (.account name) + ∑ id ∈ keySet db.htlcs, f (.lock id)) := by
  rw [Database.holders, Finset.sum_insert (by simp), Finset.sum_union, Finset.sum_image,
    Finset.sum_image]
  · exact fun _ _ _ _ heq => Holder.lock.inj heq
  · exact fun _ _ _ _ heq => Holder.account.inj heq
  · rw [Finset.disjoint_left]
    intro a ha hb
    obtain ⟨name, -, rfl⟩ := Finset.mem_image.mp ha
    obtain ⟨id, -, heq⟩ := Finset.mem_image.mp hb
    cases heq

theorem BooksShow.mem_holders (h : BooksShow j db) (hsym : Named sym) (a : Holder)
    (hne : balance j a sym ≠ 0) : a ∈ db.holders := by
  cases a with
  | outside => exact Finset.mem_insert_self _ _
  | account name =>
      refine Finset.mem_insert_of_mem (Finset.mem_union_left _ (Finset.mem_image_of_mem _ ?_))
      by_contra hout
      exact hne ((h.accounts name sym hsym).trans (balanceOf_of_not_mem hout))
  | lock id =>
      refine Finset.mem_insert_of_mem (Finset.mem_union_right _ (Finset.mem_image_of_mem _ ?_))
      by_contra hout
      exact hne ((h.locks id sym hsym).trans (heldBy_of_not_mem hout))

/-- What the outside is short of is in the balances and the open locks. -/
theorem BooksShow.outside (h : BooksShow j db) (hsym : Named sym) :
    balance j .outside sym = -(liquid sym db + locked sym db) := by
  have hzero : ∑ a ∈ db.holders, balance j a sym = 0 :=
    trial_balance (Pi.evalAddMonoidHom (fun _ => ℤ) sym) j (h.mem_holders hsym)
  have hliquid : ∑ name ∈ keySet db.balances, balance j (.account name) sym = liquid sym db := by
    rw [liquid, sumOf_eq_sum]
    exact Finset.sum_congr rfl fun name _ => h.accounts name sym hsym
  have hlocked : ∑ id ∈ keySet db.htlcs, balance j (.lock id) sym = locked sym db := by
    rw [locked, sumOf_eq_sum]
    exact Finset.sum_congr rfl fun id _ => h.locks id sym hsym
  rw [sum_holders, hliquid, hlocked] at hzero
  exact eq_neg_of_add_eq_zero_left hzero

/-- What the bookkeeper's journal says is what the database holds: the balance of every
account, what every lock holds, and that the two together are what came from the outside. -/
theorem books_show_holdings (config : NodeConfig) (steps : List Step)
    (hlocks : CountedLocks (trace config steps)) (a : Holder) (sym : AssetSymbol)
    (hsym : Named sym) :
    balance (booksOf (accepted (trace config steps))) a sym =
      (final config steps).holding sym a := by
  have hshown := shown_run config steps hlocks
  cases a with
  | outside => exact hshown.outside hsym
  | account name => exact hshown.accounts name sym hsym
  | lock id => exact hshown.locks id sym hsym

/-- The books of `refundRun`: alice has 90, her second lock 10 and the first nothing. -/
theorem books_show_holdings_refundRun :
    CountedLocks (trace {} refundRun) ∧
      balance (booksOf (accepted (trace {} refundRun))) (.account (text "alice")) .hive = 90 ∧
      balance (booksOf (accepted (trace {} refundRun))) (.lock 1) .hive = 0 ∧
      balance (booksOf (accepted (trace {} refundRun))) (.lock 2) .hive = 10 ∧
      balance (booksOf (accepted (trace {} refundRun))) .outside .hive = -105 := by
  have hlocks : CountedLocks (trace {} refundRun) := refundRun_funded.locks
  have hbooks (a : Holder) := books_show_holdings {} refundRun hlocks a .hive (.inl rfl)
  refine ⟨hlocks, (hbooks _).trans ?_, (hbooks _).trans ?_, (hbooks _).trans ?_,
    (hbooks _).trans ?_⟩
  all_goals decide +kernel

end HiveNative.Chain
