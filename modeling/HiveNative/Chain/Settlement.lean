import HiveNative.Chain.Conservation

/-!
# Settlement of locks

A lock is settled once, by a redeem before its expiration or by a refund from
then on.  The head time may be set to any value between two steps, so nothing
here rests on time moving forward: what separates the two settlements is that
each compares the head time of its own step with the expiration.
-/

namespace HiveNative.Chain

open Std (ExtTreeMap)
open EState OrderedMap

variable {tr : List Event} {e : Event} {db db' : Database} {id : HtlcId} {h h' : HtlcObject}

/-- Two states of a lock with the same terms: only the status may differ. -/
def SameTerms (h h' : HtlcObject) : Prop := h' = { h with status := h'.status }

/-- What a stored lock may become: it keeps its terms, and a settled lock its
status too. -/
def Continues (h h' : HtlcObject) : Prop :=
  SameTerms h h' ∧ (h.status ≠ HtlcStatus.open → h'.status = h.status)

theorem Continues.refl (h : HtlcObject) : Continues h h := ⟨rfl, fun _ => rfl⟩

theorem Continues.trans {h₁ h₂ h₃ : HtlcObject} (h₁₂ : Continues h₁ h₂) (h₂₃ : Continues h₂ h₃) :
    Continues h₁ h₃ := by
  obtain ⟨terms₁, status₁⟩ := h₁₂
  obtain ⟨terms₂, status₂⟩ := h₂₃
  refine ⟨?_, fun hs => ?_⟩
  · unfold SameTerms at *
    rw [terms₂, terms₁]
  · have hs₂ := status₁ hs
    rw [← hs₂] at hs ⊢
    exact status₂ hs

theorem Continues.settle (ho : h.status = HtlcStatus.open) (status : HtlcStatus) :
    Continues h { h with status := status } := ⟨rfl, fun hn => absurd ho hn⟩

/-- `db'` has the balances of `db` except that `name` has `a` more of the symbol
of `a`. -/
structure CreditsOnly (db db' : Database) (name : AccountName) (a : Asset) : Prop where
  positive : 0 < a.amount
  others : ∀ other, other ≠ name → db'.balances[other]? = db.balances[other]?
  credited : ∃ b b' : AccountBalance, db.balances[name]? = some b ∧
    db'.balances[name]? = some b' ∧ (b'.field a.symbol).toInt =
      (b.field a.symbol).toInt + a.amount.toInt ∧
    ∀ sym, Named sym → sym ≠ a.symbol → b'.field sym = b.field sym

theorem creditsOnly_of_insert {name : AccountName} {b : AccountBalance} {a : Asset}
    (hpos : 0 < a.amount) (hnamed : Named a.symbol) (hb : db.balances[name]? = some b)
    (hadj : Adjustable b a) (heq : db'.balances = db.balances.insert name (b.adjusted a)) :
    CreditsOnly db db' name a := by
  refine ⟨hpos, fun other hne => ?_, b, b.adjusted a, hb, ?_, ?_, fun sym hsym hne => ?_⟩
  · rw [heq, getElem?_insert_ne (Ne.symm hne)]
  · rw [heq, ExtTreeMap.getElem?_insert_self]
  · rw [toInt_adjusted hadj hnamed hnamed, share, if_pos rfl]
  · unfold AccountBalance.adjusted
    rw [field_setField b _ _ hnamed hsym, if_neg (Ne.symm hne)]

/-- What a redeem with `op` checked of the lock `h` in the database `db`. -/
structure RedeemChecks (db : Database) (op : HtlcRedeemOperation) (h : HtlcObject) : Prop where
  dest : op.to = h.to
  in_time : db.headTime < h.expiration
  size : op.preimage.length = h.preimageSize.toNat
  digest : (digestOf h.preimageHash.algo op.preimage).bytes = h.preimageHash.bytes

/-- What a refund with `op` checked of the lock `h` in the database `db`. -/
structure RefundChecks (db : Database) (op : HtlcRefundOperation) (h : HtlcObject) : Prop where
  source : op.from = h.from
  expired : h.expiration ≤ db.headTime

/-- The lock `id` gets the status in this event. -/
structure Becomes (e : Event) (id : HtlcId) (status : HtlcStatus) (h : HtlcObject) : Prop where
  stored : e.after.htlcs[id]? = some h
  status_eq : h.status = status
  not_before : ∀ x, e.before.htlcs[id]? = some x → x.status ≠ status

/-! ## One event -/

/-- A stored lock continues. -/
theorem lock_step (inv : FundsInv tr db) (s : Step) (hh : db.htlcs[id]? = some h) :
    ∃ h', (exec s db).2.htlcs[id]? = some h' ∧ Continues h h' := by
  have settled : ∀ {i : HtlcId} {x : HtlcObject} {st : HtlcStatus},
      db.htlcs[i]? = some x → x.status = HtlcStatus.open →
      (exec s db).2.htlcs = db.htlcs.insert i { x with status := st } →
      ∃ h', (exec s db).2.htlcs[id]? = some h' ∧ Continues h h' := by
    intro i x st hx ho heq
    rw [heq, getElem?_insert_eq]
    split
    · next hi =>
        subst hi
        rw [hx] at hh
        cases hh
        exact ⟨_, rfl, Continues.settle ho st⟩
    · exact ⟨h, hh, Continues.refl h⟩
  cases fundsMove db s with
  | idle same quiet => exact ⟨h, by rw [← hh]; exact congrArg (·[id]?) same.htlcs, Continues.refl h⟩
  | account done label valid balances htlcs next =>
      exact ⟨h, by rw [← hh]; exact congrArg (·[id]?) htlcs, Continues.refl h⟩
  | lock done label guards balances htlcs next =>
      have hne : db.nextHtlcId ≠ id := by
        intro heq
        have hfree := inv.allocated.fresh
        rw [heq, hh] at hfree
        cases hfree
      refine ⟨h, ?_, Continues.refl h⟩
      rw [← hh]
      exact (congrArg (·[id]?) htlcs).trans (getElem?_insert_ne hne)
  | redeem done label guards balances htlcs next =>
      exact settled guards.found guards.still_open htlcs
  | refund done label guards balances htlcs next =>
      exact settled guards.found guards.still_open htlcs

theorem Becomes.not_idle {st : HtlcStatus} (hb : Becomes e id st h)
    (heq : e.after.htlcs = e.before.htlcs) : False := by
  have hs := hb.stored
  rw [heq] at hs
  exact hb.not_before h hs hb.status_eq

theorem Becomes.inserted {st : HtlcStatus} (hb : Becomes e id st h) {i : HtlcId} {x : HtlcObject}
    (heq : e.after.htlcs = e.before.htlcs.insert i x) : id = i ∧ x = h := by
  have hs := hb.stored
  rw [heq, getElem?_insert_eq] at hs
  split at hs
  · next hi =>
      cases hs
      exact ⟨hi, rfl⟩
  · exact absurd hb.status_eq (hb.not_before h hs)

/-- How a lock becomes redeemed. -/
structure RedeemedBy (e : Event) (id : HtlcId) (h h' : HtlcObject) (op : HtlcRedeemOperation) :
    Prop where
  label : e.label = .apply (.htlcRedeem op)
  target : op.htlcId = id
  was_open : e.before.htlcs[id]? = some h ∧ h.status = HtlcStatus.open
  terms : SameTerms h h'
  checks : RedeemChecks e.before op h
  credits : CreditsOnly e.before e.after h.to h.amount

/-- How a lock becomes refunded. -/
structure RefundedBy (e : Event) (id : HtlcId) (h h' : HtlcObject) (op : HtlcRefundOperation) :
    Prop where
  label : e.label = .apply (.htlcRefund op)
  target : op.htlcId = id
  was_open : e.before.htlcs[id]? = some h ∧ h.status = HtlcStatus.open
  terms : SameTerms h h'
  checks : RefundChecks e.before op h
  credits : CreditsOnly e.before e.after h.from h.amount

theorem redeemed_step (inv : FundsInv tr db) (s : Step)
    (hb : Becomes (Machine.event exec db s) id .redeemed h') :
    ∃ h op, RedeemedBy (Machine.event exec db s) id h h' op := by
  cases fundsMove db s with
  | idle same quiet => exact (hb.not_idle same.htlcs).elim
  | account done label valid balances htlcs next => exact (hb.not_idle htlcs).elim
  | lock done label guards balances htlcs next =>
      obtain ⟨-, rfl⟩ := hb.inserted htlcs
      exact absurd hb.status_eq (fun hc => by cases hc)
  | refund done label guards balances htlcs next =>
      obtain ⟨-, rfl⟩ := hb.inserted htlcs
      exact absurd hb.status_eq (fun hc => by cases hc)
  | @redeem op h b done label guards balances htlcs next =>
      obtain ⟨rfl, rfl⟩ := hb.inserted htlcs
      have hwf := inv.locks_wf _ h guards.found
      exact ⟨h, op,
        { label := label
          target := rfl
          was_open := ⟨guards.found, guards.still_open⟩
          terms := rfl
          checks := ⟨guards.dest.symm, guards.in_time, guards.size, guards.digest⟩
          credits := creditsOnly_of_insert hwf.amount_pos hwf.symbol_named guards.account
            guards.adjustable balances }⟩

theorem refunded_step (inv : FundsInv tr db) (s : Step)
    (hb : Becomes (Machine.event exec db s) id .refunded h') :
    ∃ h op, RefundedBy (Machine.event exec db s) id h h' op := by
  cases fundsMove db s with
  | idle same quiet => exact (hb.not_idle same.htlcs).elim
  | account done label valid balances htlcs next => exact (hb.not_idle htlcs).elim
  | lock done label guards balances htlcs next =>
      obtain ⟨-, rfl⟩ := hb.inserted htlcs
      exact absurd hb.status_eq (fun hc => by cases hc)
  | redeem done label guards balances htlcs next =>
      obtain ⟨-, rfl⟩ := hb.inserted htlcs
      exact absurd hb.status_eq (fun hc => by cases hc)
  | @refund op h b done label guards balances htlcs next =>
      obtain ⟨rfl, rfl⟩ := hb.inserted htlcs
      have hwf := inv.locks_wf _ h guards.found
      exact ⟨h, op,
        { label := label
          target := rfl
          was_open := ⟨guards.found, guards.still_open⟩
          terms := rfl
          checks := ⟨guards.source.symm, guards.expired⟩
          credits := creditsOnly_of_insert hwf.amount_pos hwf.symbol_named guards.account
            guards.adjustable balances }⟩

/-- A new lock is stored under an id that was free, with the terms of its
operation. -/
theorem created_step (inv : FundsInv tr db) {s : Step} {op : HtlcCreateOperation}
    (hl : s = .apply (.htlcCreate op)) (hs : Succeeded (Machine.event exec db s)) :
    db.htlcs[db.nextHtlcId]? = none ∧
      (exec s db).2.htlcs[db.nextHtlcId]? = some (newHtlc db op) := by
  subst hl
  refine ⟨inv.allocated.fresh, ?_⟩
  cases fundsMove db (.apply (.htlcCreate op)) with
  | idle same quiet => exact absurd (quiet hs).1 (fun hc => by cases hc)
  | account done label valid balances htlcs next => cases label
  | redeem done label guards balances htlcs next => cases label
  | refund done label guards balances htlcs next => cases label
  | lock done label guards balances htlcs next =>
      cases label
      exact (congrArg (·[db.nextHtlcId]?) htlcs).trans ExtTreeMap.getElem?_insert_self

/-! ## Whole runs -/

/-- A stored lock continues along every continuation of the run. -/
theorem lock_continues (config : NodeConfig) (later past : List Step)
    (hf : Funded (trace config (later ++ past))) (hh : (final config past).htlcs[id]? = some h) :
    ∃ h', (final config (later ++ past)).htlcs[id]? = some h' ∧ Continues h h' := by
  induction later with
  | nil => exact ⟨h, hh, Continues.refl h⟩
  | cons s later ih =>
      obtain ⟨h₁, hh₁, hc₁⟩ := ih hf.tail
      obtain ⟨h₂, hh₂, hc₂⟩ := lock_step (fundsInv_run config _ hf.tail) s hh₁
      exact ⟨h₂, hh₂, hc₁.trans hc₂⟩

/-- Settlement is safe over whole runs.  A lock is stored with the terms of its
creation; it keeps its terms for ever and its status once it is settled; it
becomes redeemed only at a redeem that passed the checks, refunded only at a
refund that passed them, and either credits one balance field by its amount. -/
theorem settlement_safe (config : NodeConfig) (steps : List Step)
    (hfunded : Funded (trace config steps)) :
    (∀ e ∈ trace config steps, ∀ op, e.label = .apply (.htlcCreate op) → Succeeded e →
        e.before.htlcs[e.before.nextHtlcId]? = none ∧
          e.after.htlcs[e.before.nextHtlcId]? = some (newHtlc e.before op)) ∧
      (∀ later past, steps = later ++ past → ∀ (id : HtlcId) (h : HtlcObject),
        (final config past).htlcs[id]? = some h →
          ∃ h', (final config steps).htlcs[id]? = some h' ∧ SameTerms h h' ∧
            (h.status ≠ HtlcStatus.open → h'.status = h.status)) ∧
      (∀ e ∈ trace config steps, ∀ id h', Becomes e id .redeemed h' →
        ∃ h op, RedeemedBy e id h h' op) ∧
      ∀ e ∈ trace config steps, ∀ id h', Becomes e id .refunded h' →
        ∃ h op, RefundedBy e id h h' op := by
  refine ⟨fun e he op hl hs => ?_, fun later past heq id h hh => ?_, fun e he id h' hb => ?_,
    fun e he id h' hb => ?_⟩
  · obtain ⟨tr, inv, -, heq⟩ := fundsInv_before config steps hfunded he
    rw [heq] at hs ⊢
    exact created_step inv hl hs
  · subst heq
    exact lock_continues config later past hfunded hh
  · obtain ⟨tr, inv, -, heq⟩ := fundsInv_before config steps hfunded he
    rw [heq] at hb ⊢
    exact redeemed_step inv e.label hb
  · obtain ⟨tr, inv, -, heq⟩ := fundsInv_before config steps hfunded he
    rw [heq] at hb ⊢
    exact refunded_step inv e.label hb

/-- The lock of forty HIVE, open after three steps of `refundRun`, ends refunded. -/
theorem settlement_safe_refundRun :
    Funded (trace {} refundRun) ∧ ∃ h h' : HtlcObject,
      (final {} (refundRun.drop 3)).htlcs[(1 : HtlcId)]? = some h ∧
      (final {} refundRun).htlcs[(1 : HtlcId)]? = some h' ∧ SameTerms h h' ∧
      h.status = HtlcStatus.open ∧ h'.status = HtlcStatus.refunded := by
  refine ⟨refundRun_funded, ?_⟩
  have hpast : ((final {} (refundRun.drop 3)).htlcs[(1 : HtlcId)]?).map HtlcObject.status =
      some HtlcStatus.open := by decide +kernel
  have hend : ((final {} refundRun).htlcs[(1 : HtlcId)]?).map HtlcObject.status =
      some HtlcStatus.refunded := by decide +kernel
  obtain ⟨h, hh, ho⟩ := Option.map_eq_some_iff.mp hpast
  obtain ⟨h', hh', hterms, -⟩ := (settlement_safe {} refundRun refundRun_funded).2.1
    (refundRun.take 3) (refundRun.drop 3) rfl 1 h hh
  rw [hh'] at hend
  exact ⟨h, h', hh, hh', hterms, ho, Option.some.inj hend⟩

/-! ## No lock gets stuck -/

/-- The invariant does not read the head time. -/
theorem FundsInv.at_time (inv : FundsInv tr db) (t : TimePointSec) :
    FundsInv tr { db with headTime := t } :=
  ⟨inv.balances_nonneg, fun id h hh => { inv.locks_wf id h hh with }, inv.allocated,
    inv.loss_nonneg, inv.total⟩

/-- An operation that does not succeed throws. -/
theorem FundsInv.throws (inv : FundsInv tr db) (hf : Funded tr) {op : Operation}
    (hno : ¬ Succeeds (apply op) db) : Throws (apply op) db := by
  have hdef := inv.defined hf (.apply op)
  cases event_cases db (.apply op) with
  | inl hok => exact absurd ⟨_, hok.2⟩ hno
  | inr hfail =>
      obtain ⟨x, ho, hfail⟩ := hfail
      cases x with
      | threw ex => exact ⟨ex, _, hfail⟩
      | undefined => exact absurd ho hdef

theorem redeem_succeeds (inv : FundsInv tr db) (hf : Funded tr) (hactive : HtlcActive db)
    (hh : db.htlcs[id]? = some h) (ho : h.status = HtlcStatus.open)
    (htime : db.headTime < h.expiration) {p : Bytes} (hsize : p.length = h.preimageSize.toNat)
    (hdigest : (digestOf h.preimageHash.algo p).bytes = h.preimageHash.bytes) :
    Succeeds (apply (.htlcRedeem { «to» := h.to, htlcId := h.id, preimage := p })) db := by
  have hwf := inv.locks_wf id h hh
  obtain ⟨b, hb⟩ := accountExists_iff.mp hwf.dest_exists
  have hid : h.id ≠ 0 := by
    rw [hwf.id_eq]
    exact (inv.allocated.below id h hh).1
  have hne : p ≠ [] := by
    intro hp
    rw [hp, List.length_nil] at hsize
    exact hwf.size_ne (UInt16.toNat_inj.mp hsize.symm)
  have hvalid : HtlcRedeemOperation.Valid { «to» := h.to, htlcId := h.id, preimage := p } :=
    ⟨hwf.dest_valid, hid, hne, hsize ▸ hwf.size_le⟩
  refine ⟨_, applyHtlcRedeem_ok.mpr ⟨h, b, ?_, rfl⟩⟩
  exact
    { active := hactive
      valid := hvalid
      found := by rw [hwf.id_eq]; exact hh
      still_open := ho
      dest := rfl
      in_time := htime
      size := hsize
      digest := hdigest
      account := hb
      adjustable := inv.adjustable hf hh ho hb }

theorem refund_succeeds (inv : FundsInv tr db) (hf : Funded tr) (hactive : HtlcActive db)
    (hh : db.htlcs[id]? = some h) (ho : h.status = HtlcStatus.open)
    (htime : h.expiration ≤ db.headTime) :
    Succeeds (apply (.htlcRefund { «from» := h.from, htlcId := h.id })) db := by
  have hwf := inv.locks_wf id h hh
  obtain ⟨b, hb⟩ := accountExists_iff.mp hwf.source_exists
  have hid : h.id ≠ 0 := by
    rw [hwf.id_eq]
    exact (inv.allocated.below id h hh).1
  refine ⟨_, applyHtlcRefund_ok.mpr ⟨h, b, ?_, rfl⟩⟩
  exact
    { active := hactive
      valid := ⟨hwf.source_valid, hid⟩
      found := by rw [hwf.id_eq]; exact hh
      still_open := ho
      source := rfl
      expired := htime
      account := hb
      adjustable := inv.adjustable hf hh ho hb }

theorem not_redeem_expired (hh : db.htlcs[h.id]? = some h) (htime : h.expiration ≤ db.headTime)
    (p : Bytes) :
    ¬ Succeeds (apply (.htlcRedeem { «to» := h.to, htlcId := h.id, preimage := p })) db := by
  intro hok
  obtain ⟨db', hok⟩ := hok
  obtain ⟨x, b, guards, -⟩ := applyHtlcRedeem_ok.mp hok
  have hfound := guards.found
  rw [hh] at hfound
  cases hfound
  exact absurd guards.in_time (UInt32.not_lt.mpr htime)

theorem not_refund_early (hh : db.htlcs[h.id]? = some h) (htime : db.headTime < h.expiration) :
    ¬ Succeeds (apply (.htlcRefund { «from» := h.from, htlcId := h.id })) db := by
  intro hok
  obtain ⟨db', hok⟩ := hok
  obtain ⟨x, b, guards, -⟩ := applyHtlcRefund_ok.mp hok
  have hfound := guards.found
  rw [hh] at hfound
  cases hfound
  exact absurd htime (UInt32.not_lt.mpr guards.expired)

/-- No locked funds get stuck: at every head time, and for every preimage of the
lock, exactly one of the two settlements succeeds, and the other throws. -/
theorem no_lock_stuck (config : NodeConfig) (steps : List Step)
    (hfunded : Funded (trace config steps))
    (hfork : hiveHardforkHtlc ≤ (final config steps).config.hardfork)
    (hfull : (final config steps).config.htlcSkipState = false) (id : HtlcId) (h : HtlcObject)
    (hh : (final config steps).htlcs[id]? = some h) (hopen : h.status = HtlcStatus.open)
    (t : TimePointSec) (p : Bytes) (hsize : p.length = h.preimageSize.toNat)
    (hdigest : (digestOf h.preimageHash.algo p).bytes = h.preimageHash.bytes) :
    let db : Database := { final config steps with headTime := t }
    let redeem := apply (.htlcRedeem { «to» := h.to, htlcId := h.id, preimage := p })
    let refund := apply (.htlcRefund { «from» := h.from, htlcId := h.id })
    (t < h.expiration → Succeeds redeem db ∧ Throws refund db) ∧
      (¬ t < h.expiration → Succeeds refund db ∧ Throws redeem db) := by
  intro db redeem refund
  have inv : FundsInv (trace config steps) db := (fundsInv_run config steps hfunded).at_time t
  have hactive : HtlcActive db := ⟨hfork, hfull⟩
  have hkey : db.htlcs[h.id]? = some h := by
    rw [(inv.locks_wf id h hh).id_eq]
    exact hh
  refine ⟨fun hlt => ⟨?_, ?_⟩, fun hge => ⟨?_, ?_⟩⟩
  · exact redeem_succeeds inv hfunded hactive hh hopen hlt hsize hdigest
  · exact inv.throws hfunded (not_refund_early hkey hlt)
  · exact refund_succeeds inv hfunded hactive hh hopen (UInt32.not_lt.mp hge)
  · exact inv.throws hfunded (not_redeem_expired hkey (UInt32.not_lt.mp hge) p)

/-- The lock of `lockRun`, under the SHA-256 digest of `abc`. -/
def abcLock : HtlcObject :=
  { id := 1, «from» := text "alice", «to» := text "bob", amount := ⟨40, .hive⟩
    preimageHash := ⟨.sha256, [186, 120, 22, 191, 143, 1, 207, 234, 65, 65, 64, 222, 93, 174, 34,
      35, 176, 3, 97, 163, 150, 23, 122, 156, 180, 16, 255, 97, 242, 0, 21, 173]⟩
    preimageSize := 3, expiration := 3600, created := 0, memo := [], status := HtlcStatus.open }

def lockRun : List Step :=
  [ .apply (.htlcCreate
      { «from» := text "alice", «to» := text "bob", amount := ⟨40, .hive⟩
        preimageHash := abcLock.preimageHash, preimageSize := 3, expiration := 3600 }),
    .createAccount (text "bob") 5 7,
    .createAccount (text "alice") 100 0 ]

theorem no_lock_stuck_lockRun :
    (final {} lockRun).htlcs[(1 : HtlcId)]? = some abcLock ∧
      Succeeds (apply (.htlcRedeem { «to» := text "bob", htlcId := 1, preimage := text "abc" }))
        { final {} lockRun with headTime := 3599 } ∧
      Throws (apply (.htlcRefund { «from» := text "alice", htlcId := 1 }))
        { final {} lockRun with headTime := 3599 } := by
  have hfunded : Funded (trace {} lockRun) := by
    refine funded_of_steps (fun name hive hbd hmem => ?_) (by decide +kernel) (by decide +kernel)
      (by decide +kernel)
    simp [lockRun] at hmem
    obtain ⟨-, rfl, rfl⟩ | ⟨-, rfl, rfl⟩ := hmem
    · decide
    · decide
  have hh : (final {} lockRun).htlcs[(1 : HtlcId)]? = some abcLock := by decide +kernel
  have hsettle := no_lock_stuck {} lockRun hfunded (by decide +kernel) (by decide +kernel) 1
    abcLock hh rfl 3599 (text "abc") (by decide +kernel) (by decide +kernel)
  exact ⟨hh, hsettle.1 (by decide)⟩

end HiveNative.Chain
