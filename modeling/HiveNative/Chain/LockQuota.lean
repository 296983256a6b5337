import HiveNative.Chain.WellFormed

/-!
# The quota of open locks

`open_htlc_count` scans the table of locks, which also keeps the settled ones, and
counts in 32 bits.  `openCount` is the count in the natural numbers.  A lock raises
it for its owner, a settlement lowers it, and no other step moves it, so the guard of
`htlc_create` keeps it at most `HTLC_MAX_OPEN_PER_ACCOUNT` for every account, far
below where the machine counter would wrap.
-/

namespace HiveNative.Chain

open Std (ExtTreeMap)
open EState OrderedMap

variable {tr : List Event} {e : Event} {db db' : Database} {a : AccountName}

/-! ## Counts of open locks -/

/-- The lock is open and of this account. -/
def HtlcObject.openOf (a : AccountName) (h : HtlcObject) : Bool :=
  h.from = a ∧ h.status = HtlcStatus.open

/-- The number of open locks of an account. -/
def openCount (db : Database) (a : AccountName) : ℕ := countOf (HtlcObject.openOf a) db.htlcs

theorem openHtlcCount_eq (db : Database) (a : AccountName) :
    db.openHtlcCount a = UInt32.ofNat (openCount db a) := by
  rw [openCount, ← foldl_counter]
  simp only [Database.openHtlcCount, HtlcObject.openOf, decide_eq_true_eq]

/-- No account has more open locks than the quota. -/
def WithinQuota (db : Database) : Prop := ∀ a, openCount db a ≤ htlcMaxOpenPerAccount.toNat

theorem toNat_openHtlcCount (h : WithinQuota db) (a : AccountName) :
    (db.openHtlcCount a).toNat = openCount db a := by
  have hle : openCount db a ≤ 256 := h a
  rw [openHtlcCount_eq, UInt32.toNat_ofNat']
  exact Nat.mod_eq_of_lt (by omega)

/-! ## One event -/

/-- Before the event the count of `owner` is by one higher, all others are the same. -/
def Releases (e : Event) (owner : AccountName) : Prop :=
  ∀ a, openCount e.before a = openCount e.after a + if a = owner then 1 else 0

/-- An operation on locks. -/
def Step.isLockOperation : Step → Bool
  | .apply op => op.part = .locks
  | _ => false

/-- What an event does to the counts. -/
inductive QuotaMove (e : Event) : Prop where
  | idle (same : ∀ a, openCount e.after a = openCount e.before a)
      (quiet : Succeeded e → e.label.isLockOperation = false)
  | lock {op : HtlcCreateOperation} (done : Succeeded e) (label : e.label = .apply (.htlcCreate op))
      (room : e.before.openHtlcCount op.from < htlcMaxOpenPerAccount)
      (raised : ∀ a, openCount e.after a = openCount e.before a + if a = op.from then 1 else 0)
  | redeem {op : HtlcRedeemOperation} {h : HtlcObject} (done : Succeeded e)
      (label : e.label = .apply (.htlcRedeem op))
      (found : e.before.htlcs[op.htlcId]? = some h) (lowered : Releases e h.from)
  | refund {op : HtlcRefundOperation} {h : HtlcObject} (done : Succeeded e)
      (label : e.label = .apply (.htlcRefund op))
      (found : e.before.htlcs[op.htlcId]? = some h) (lowered : Releases e h.from)

/-- Settling an open lock releases one of its owner's. -/
theorem releases_of_settled {id : HtlcId} {h : HtlcObject} (status : HtlcStatus)
    (found : e.before.htlcs[id]? = some h) (still_open : h.status = HtlcStatus.open)
    (settled : status ≠ HtlcStatus.open)
    (htlcs : e.after.htlcs = e.before.htlcs.insert id { h with status := status }) :
    Releases e h.from := by
  intro a
  have hold := countOf_insert_old (HtlcObject.openOf a) found { h with status := status }
  rw [openCount, openCount, htlcs]
  simp only [HtlcObject.openOf, still_open, settled, and_true, and_false, decide_eq_true_eq,
    if_false, Nat.add_zero] at hold ⊢
  rw [← hold]
  simp only [eq_comm]

theorem openCount_congr (h : db'.htlcs = db.htlcs) (a : AccountName) :
    openCount db' a = openCount db a := by
  rw [openCount, h, openCount]

/-- A new lock is one more of its owner's. -/
theorem openCount_lock {op : HtlcCreateOperation} (fresh : db.htlcs[db.nextHtlcId]? = none)
    (htlcs : db'.htlcs = db.htlcs.insert db.nextHtlcId (newHtlc db op)) (a : AccountName) :
    openCount db' a = openCount db a + if a = op.from then 1 else 0 := by
  have hnew : HtlcObject.openOf a (newHtlc db op) = decide (a = op.from) := by
    simp [HtlcObject.openOf, newHtlc, eq_comm]
  rw [openCount, htlcs, countOf_insert_new _ fresh, openCount, hnew]
  simp only [decide_eq_true_eq]

theorem quotaMove (s : Step) (fresh : db.htlcs[db.nextHtlcId]? = none) :
    QuotaMove (Machine.event exec db s) := by
  cases event_cases db s with
  | inr hfail =>
      obtain ⟨x, ho, hfail⟩ := hfail
      refine .idle (openCount_congr (program_error_funds hfail).htlcs) fun hs => ?_
      rw [Succeeded, ho] at hs
      cases hs
  | inl hok =>
      obtain ⟨hs, hok⟩ := hok
      cases s with
      | createAccount name hive hbd =>
          obtain ⟨-, hdb⟩ := createAccount_ok.mp hok
          exact .idle (openCount_congr (by rw [hdb]; rfl)) fun _ => rfl
      | setHeadTime t =>
          have hdb := (modify_ok.mp hok).symm
          exact .idle (openCount_congr (by rw [hdb]; rfl)) fun _ => rfl
      | apply op =>
          have hframe : Framed op db _ := apply_frame hok
          cases op with
          | htlcCreate op =>
              obtain ⟨b, hg, hdb⟩ := applyHtlcCreate_ok.mp hok
              exact .lock hs rfl hg.quota (openCount_lock fresh (by rw [hdb]; rfl))
          | htlcRedeem op =>
              obtain ⟨h, b, hg, hdb⟩ := applyHtlcRedeem_ok.mp hok
              exact .redeem hs rfl hg.found
                (releases_of_settled .redeemed hg.found hg.still_open (by decide)
                  (by rw [hdb]; rfl))
          | htlcRefund op =>
              obtain ⟨h, b, hg, hdb⟩ := applyHtlcRefund_ok.mp hok
              exact .refund hs rfl hg.found
                (releases_of_settled .refunded hg.found hg.still_open (by decide)
                  (by rw [hdb]; rfl))
          | _ => exact .idle (openCount_congr (hframe.funds fun h => by cases h).htlcs) fun _ => rfl

/-- The guard of a new lock leaves room for it. -/
theorem WithinQuota.step (hq : WithinQuota e.before) (hm : QuotaMove e) : WithinQuota e.after := by
  intro a
  have hle := hq a
  cases hm with
  | idle same quiet => rw [same a]; exact hle
  | lock done label room raised =>
      rw [UInt32.lt_iff_toNat_lt, toNat_openHtlcCount hq] at room
      rw [raised a]
      split
      · next ha => rw [ha]; exact room
      · exact hle
  | redeem done label found lowered => have := lowered a; omega
  | refund done label found lowered => have := lowered a; omega

/-! ## Whole runs -/

/-- The lock counter does not wrap. -/
def CountedLocks (tr : List Event) : Prop := created Step.isHtlcCreate tr < 2 ^ 64 - 1

/-- The locks are well-formed and within the quota. -/
structure QuotaInv (tr : List Event) (db : Database) : Prop where
  locks : LocksWf tr db
  within : WithinQuota db

theorem quotaInv_empty (config : NodeConfig) : QuotaInv [] (.empty config) where
  locks := ⟨fun id h hh => by simp [Database.empty] at hh, Allocated.start⟩
  within := fun a => by
    have hzero : openCount (.empty config) a = 0 :=
      countOf_eq_zero _ fun id h hh => by simp [Database.empty] at hh
    rw [hzero]
    exact Nat.zero_le _

theorem quotaInv_step (db : Database) (s : Step)
    (hc : CountedLocks (Machine.event exec db s :: tr)) (inv : QuotaInv tr db) :
    QuotaInv (Machine.event exec db s :: tr) (exec s db).2 where
  locks := locksWf_step s inv.locks hc
  within := inv.within.step (quotaMove s inv.locks.allocated.fresh)

theorem CountedLocks.tail (h : CountedLocks (e :: tr)) : CountedLocks tr :=
  lt_of_le_of_lt (created_le_cons _ e tr) h

theorem quotaInv_run (config : NodeConfig) (steps : List Step)
    (h : CountedLocks (trace config steps)) :
    QuotaInv (trace config steps) (final config steps) :=
  Machine.invariant_of CountedLocks QuotaInv (fun _ _ => CountedLocks.tail)
    (quotaInv_empty config) (fun _ db s hc inv => quotaInv_step db s hc inv) steps h

theorem quotaInv_before (config : NodeConfig) (steps : List Step)
    (h : CountedLocks (trace config steps)) (he : e ∈ trace config steps) :
    WithinQuota e.before ∧ WithinQuota e.after ∧ QuotaMove e := by
  obtain ⟨tr, inv, hc, heq⟩ := Machine.invariant_before CountedLocks QuotaInv
    (fun _ _ => CountedLocks.tail) (quotaInv_empty config)
    (fun _ db s hc inv => quotaInv_step db s hc inv) steps h he
  have hm := quotaMove e.label inv.locks.allocated.fresh
  rw [← heq] at hm
  exact ⟨inv.within, inv.within.step hm, hm⟩

/-! ## Main result -/

/-- What one step does to the counts that `open_htlc_count` gives.  No operation but
the three of the locks moves any count, and none of these does when it fails. -/
structure QuotaExact (e : Event) : Prop where
  create : ∀ op, Succeeded e → e.label = .apply (.htlcCreate op) → ∀ a,
    (e.after.openHtlcCount a).toNat =
      (e.before.openHtlcCount a).toNat + if a = op.from then 1 else 0
  redeem : ∀ op, Succeeded e → e.label = .apply (.htlcRedeem op) →
    ∃ h, e.before.htlcs[op.htlcId]? = some h ∧ ∀ a,
      (e.before.openHtlcCount a).toNat =
        (e.after.openHtlcCount a).toNat + if a = h.from then 1 else 0
  refund : ∀ op, Succeeded e → e.label = .apply (.htlcRefund op) →
    ∃ h, e.before.htlcs[op.htlcId]? = some h ∧ ∀ a,
      (e.before.openHtlcCount a).toNat =
        (e.after.openHtlcCount a).toNat + if a = h.from then 1 else 0
  quiet : ¬ (Succeeded e ∧ e.label.isLockOperation = true) → ∀ a,
    e.after.openHtlcCount a = e.before.openHtlcCount a

/-- A lock that passes `validate`, names existing accounts and is covered, where locks
are active. -/
structure LockOrdered (db : Database) (op : HtlcCreateOperation) : Prop where
  active : HtlcActive db
  valid : op.validate db.headTime = .ok ()
  source_exists : db.accountExists op.from = true
  dest_exists : db.accountExists op.to = true
  covered : ∀ b : AccountBalance, db.balances[op.from]? = some b →
    op.amount.amount.toInt ≤ (b.field op.amount.symbol).toInt

theorem quotaExact_of_move (hbefore : WithinQuota e.before) (hafter : WithinQuota e.after)
    (hm : QuotaMove e) : QuotaExact e := by
  have before := toNat_openHtlcCount hbefore
  have after := toNat_openHtlcCount hafter
  cases hm with
  | idle same quiet =>
      have hno : ∀ op, op.part = .locks → Succeeded e → e.label ≠ .apply op := by
        intro op hpart hs hl
        have hq := quiet hs
        simp [hl, Step.isLockOperation, hpart] at hq
      refine ⟨fun op hs hl => absurd hl (hno _ rfl hs), fun op hs hl => absurd hl (hno _ rfl hs),
        fun op hs hl => absurd hl (hno _ rfl hs), fun _ a => ?_⟩
      rw [← UInt32.toNat_inj, before, after, same a]
  | lock done label room raised =>
      refine ⟨fun op hs hl a => ?_, fun op hs hl => ?_, fun op hs hl => ?_, fun hq => ?_⟩
      · rw [label] at hl
        cases hl
        rw [before, after, raised a]
      · rw [label] at hl
        cases hl
      · rw [label] at hl
        cases hl
      · exact absurd ⟨done, by rw [label]; rfl⟩ hq
  | redeem done label found lowered =>
      refine ⟨fun op hs hl => ?_, fun op hs hl => ?_, fun op hs hl => ?_, fun hq => ?_⟩
      · rw [label] at hl
        cases hl
      · rw [label] at hl
        cases hl
        exact ⟨_, found, fun a => by rw [before, after, lowered a]⟩
      · rw [label] at hl
        cases hl
      · exact absurd ⟨done, by rw [label]; rfl⟩ hq
  | refund done label found lowered =>
      refine ⟨fun op hs hl => ?_, fun op hs hl => ?_, fun op hs hl => ?_, fun hq => ?_⟩
      · rw [label] at hl
        cases hl
      · rw [label] at hl
        cases hl
      · rw [label] at hl
        cases hl
        exact ⟨_, found, fun a => by rw [before, after, lowered a]⟩
      · exact absurd ⟨done, by rw [label]; rfl⟩ hq

/-- In a run whose lock counter does not wrap the quota is kept for every account, the
counts move by exactly the locks made and settled, and a lock that has nothing else
against it is refused only at the quota. -/
theorem quota_exact (config : NodeConfig) (steps : List Step)
    (hlocks : created Step.isHtlcCreate (trace config steps) < 2 ^ 64 - 1) :
    (∀ a, (final config steps).openHtlcCount a ≤ htlcMaxOpenPerAccount) ∧
    (∀ e ∈ trace config steps, QuotaExact e) ∧
    ∀ op, LockOrdered (final config steps) op →
      ¬ Succeeds (apply (.htlcCreate op)) (final config steps) →
      (final config steps).openHtlcCount op.from = htlcMaxOpenPerAccount := by
  have hwithin := (quotaInv_run config steps hlocks).within
  have hmax : ∀ a, (final config steps).openHtlcCount a ≤ htlcMaxOpenPerAccount := by
    intro a
    rw [UInt32.le_iff_toNat_le, toNat_openHtlcCount hwithin]
    exact hwithin a
  refine ⟨hmax, fun e he => ?_, fun op hop hno => ?_⟩
  · obtain ⟨hbefore, hafter, hm⟩ := quotaInv_before config steps hlocks he
    exact quotaExact_of_move hbefore hafter hm
  · by_contra hne
    have hroom := UInt32.lt_of_le_of_ne (hmax op.from) hne
    obtain ⟨b, hb⟩ := accountExists_iff.mp hop.source_exists
    have hlock : Lockable (final config steps) op b :=
      { active := hop.active
        valid := HtlcCreateOperation.validate_iff.mp hop.valid
        dest_exists := hop.dest_exists
        quota := hroom
        found := hb
        covered := hop.covered b hb }
    exact hno ⟨_, applyHtlcCreate_ok.mpr ⟨b, hlock, rfl⟩⟩

/-- Alice has taken back one of her two locks. -/
theorem quota_exact_refundRun :
    (final {} refundRun).openHtlcCount (text "alice") = 1 ∧
      (∀ a, (final {} refundRun).openHtlcCount a ≤ htlcMaxOpenPerAccount) ∧
      ∀ e ∈ trace {} refundRun, QuotaExact e := by
  obtain ⟨hmax, hexact, -⟩ := quota_exact {} refundRun (by decide +kernel)
  exact ⟨by decide +kernel, hmax, hexact⟩

end HiveNative.Chain
