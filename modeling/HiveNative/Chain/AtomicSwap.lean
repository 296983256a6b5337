import HiveNative.Chain.Settlement

/-!
# The atomic swap

Two locks under one hash are the two legs of a swap.  A redeem of one leg shows
the preimage to everybody, and with it the other leg can be redeemed: the
preimage passed the checks of the first lock, the second lock asks for the same
digest and size, and its terms do not change before it is settled.

What a redeem checks of the lock is fixed at its creation, and what it checks of
the accounts and the totals holds in every funded run.  So the second redeem can
be stopped only by time, or by a settlement of the lock in between.
-/

namespace HiveNative.Chain

open Std (ExtTreeMap)
open EState OrderedMap

variable {db : Database} {id : HtlcId}

/-- The lock is stored and open. -/
def IsOpen (db : Database) (id : HtlcId) : Prop :=
  ∃ h, db.htlcs[id]? = some h ∧ h.status = HtlcStatus.open

/-! ## How a lock stops being open -/

/-- The step settles the lock `h` as its terms allow in the database. -/
def SettledBy (db : Database) (s : Step) (h : HtlcObject) : Prop :=
  (∃ op, s = .apply (.htlcRedeem op) ∧ op.htlcId = h.id ∧ op.to = h.to) ∨
    ∃ op, s = .apply (.htlcRefund op) ∧ op.htlcId = h.id ∧ h.expiration ≤ db.headTime

/-- An open lock stops being open only by a settlement. -/
theorem leaves_open {tr : List Event} {h : HtlcObject} (inv : FundsInv tr db) (s : Step)
    (hh : db.htlcs[id]? = some h) (hleft : ¬ IsOpen (exec s db).2 id)
    (hopen : h.status = HtlcStatus.open) : SettledBy db s h := by
  obtain ⟨h', hh', hterms, -⟩ := lock_step inv s hh
  have hid := (inv.locks_wf id h hh).id_eq
  have hbefore : ∀ x, db.htlcs[id]? = some x → x.status = HtlcStatus.open := by
    intro x hx
    rw [hh] at hx
    cases hx
    exact hopen
  cases hs : h'.status with
  | «open» => exact absurd ⟨h', hh', hs⟩ hleft
  | redeemed =>
      have hb : Becomes (Machine.event exec db s) id .redeemed h' :=
        ⟨hh', hs, fun x hx hc => by rw [hbefore x hx] at hc; cases hc⟩
      obtain ⟨x, op, hredeemed⟩ := redeemed_step inv s hb
      have hx := hredeemed.was_open.1
      rw [show (Machine.event exec db s).before = db from rfl, hh] at hx
      cases hx
      exact .inl ⟨op, hredeemed.label, hredeemed.target.trans hid.symm, hredeemed.checks.dest⟩
  | refunded =>
      have hb : Becomes (Machine.event exec db s) id .refunded h' :=
        ⟨hh', hs, fun x hx hc => by rw [hbefore x hx] at hc; cases hc⟩
      obtain ⟨x, op, hrefunded⟩ := refunded_step inv s hb
      have hx := hrefunded.was_open.1
      rw [show (Machine.event exec db s).before = db from rfl, hh] at hx
      cases hx
      exact .inr ⟨op, hrefunded.label, hrefunded.target.trans hid.symm, hrefunded.checks.expired⟩

/-- A lock stored at two moments of a run has the same terms at both. -/
theorem stored_terms {config : NodeConfig} {later past : List Step} {h h' : HtlcObject}
    (hf : Funded (trace config (later ++ past))) (hh : (final config past).htlcs[id]? = some h)
    (hh' : (final config (later ++ past)).htlcs[id]? = some h') : SameTerms h h' := by
  obtain ⟨x, hx, hterms, -⟩ := lock_continues config later past hf hh
  rw [hh'] at hx
  cases hx
  exact hterms

/-! ## Main result -/

/-- A preimage that redeemed one lock redeems any other lock with the same hash and
size, while it is open and not expired. -/
theorem redeem_other {tr : List Event} {hA hB h : HtlcObject} {op : HtlcRedeemOperation}
    {dbB : Database} {b : AccountBalance} (inv : FundsInv tr db) (hf : Funded tr)
    (hactive : HtlcActive db) (hredeemed : Redeemable dbB op hB b) (hterms : SameTerms hA h)
    (hh : db.htlcs[id]? = some h) (hopen : h.status = HtlcStatus.open)
    (hhash : hA.preimageHash = hB.preimageHash) (hsize : hA.preimageSize = hB.preimageSize)
    (htime : db.headTime < hA.expiration) :
    Succeeds (apply (.htlcRedeem
      { «to» := hA.to, htlcId := hA.id, preimage := op.preimage })) db := by
  have hlen : op.preimage.length = hA.preimageSize.toNat := hsize ▸ hredeemed.size
  have hdigest : (digestOf hA.preimageHash.algo op.preimage).bytes = hA.preimageHash.bytes :=
    hhash ▸ hredeemed.digest
  rw [hterms] at hh hopen
  exact redeem_succeeds inv hf hactive hh hopen htime hlen hdigest

/-- Once one of two locks under the same hash is redeemed, the preimage redeems
the other one at every later moment at which it is open and not expired, and it
stops being open only by a redeem of its receiver or by a refund after its
expiration. -/
theorem swap_completes (config : NodeConfig) (past between after : List Step)
    (op : HtlcRedeemOperation)
    (hfunded : Funded (trace config (after ++ .apply (.htlcRedeem op) :: (between ++ past))))
    (hfork : hiveHardforkHtlc ≤ config.hardfork) (hfull : config.htlcSkipState = false)
    (idA idB : HtlcId) (hA hB : HtlcObject)
    (hhA : (final config past).htlcs[idA]? = some hA)
    (hhB : (final config past).htlcs[idB]? = some hB)
    (hhash : hA.preimageHash = hB.preimageHash) (hsize : hA.preimageSize = hB.preimageSize)
    (htarget : op.htlcId = hB.id)
    (hredeemed : Succeeds (apply (.htlcRedeem op)) (final config (between ++ past))) :
    (IsOpen (final config (after ++ .apply (.htlcRedeem op) :: (between ++ past))) idA →
      (final config (after ++ .apply (.htlcRedeem op) :: (between ++ past))).headTime <
        hA.expiration →
      Succeeds (apply (.htlcRedeem
          { «to» := hA.to, htlcId := hA.id, preimage := op.preimage }))
        (final config (after ++ .apply (.htlcRedeem op) :: (between ++ past)))) ∧
      ∀ later s earlier,
        after ++ .apply (.htlcRedeem op) :: between = later ++ s :: earlier →
          IsOpen (final config (earlier ++ past)) idA →
          ¬ IsOpen (final config (s :: (earlier ++ past))) idA →
            SettledBy (final config (earlier ++ past)) s hA := by
  have hrun : after ++ .apply (.htlcRedeem op) :: (between ++ past) =
      (after ++ .apply (.htlcRedeem op) :: between) ++ past := by simp
  refine ⟨fun hopen htime => ?_, fun later s earlier hsplit hopen hleft => ?_⟩
  · have hbetween : Funded (trace config (between ++ past)) :=
      funded_earlier (after ++ [.apply (.htlcRedeem op)]) (by simpa using hfunded)
    have hidB := ((fundsInv_run config past (funded_earlier between hbetween)).locks_wf idB hB
      hhB).id_eq
    obtain ⟨db', hok⟩ := hredeemed
    obtain ⟨hB', b, guards, -⟩ := applyHtlcRedeem_ok.mp hok
    have hfoundB := guards.found
    rw [htarget, hidB] at hfoundB
    have htermsB := stored_terms hbetween hhB hfoundB
    obtain ⟨h, hh, ho⟩ := hopen
    have htermsA := stored_terms (hrun ▸ hfunded) hhA (hrun ▸ hh)
    have hactive : HtlcActive
        (final config (after ++ .apply (.htlcRedeem op) :: (between ++ past))) := by
      refine ⟨?_, ?_⟩
      · rw [config_run]
        exact hfork
      · rw [config_run]
        exact hfull
    refine redeem_other (fundsInv_run config _ hfunded) hfunded hactive guards htermsA hh ho ?_ ?_
      htime
    · rw [hhash, htermsB]
    · rw [hsize, htermsB]
  · rw [hrun, hsplit, List.append_assoc, List.cons_append] at hfunded
    have hearlier : Funded (trace config (earlier ++ past)) :=
      funded_earlier (later ++ [s]) (by simpa using hfunded)
    obtain ⟨h, hh, ho⟩ := hopen
    have hsettled := leaves_open (fundsInv_run config _ hearlier) s hh hleft ho
    rw [stored_terms hearlier hhA hh] at hsettled
    exact hsettled

/-- Two legs under the SHA-256 digest of `abc`, Alice to Bob and Bob to Alice. -/
def swapRun : List Step :=
  [ .apply (.htlcCreate
      { «from» := text "bob", «to» := text "alice", amount := ⟨3, .hbd⟩
        preimageHash := abcLock.preimageHash, preimageSize := 3, expiration := 1800 }) ]
    ++ lockRun

/-- The other leg of `swapRun`. -/
def returnLock : HtlcObject :=
  { abcLock with
    id := 2, «from» := text "bob", «to» := text "alice", amount := ⟨3, .hbd⟩, expiration := 1800 }

/-- Alice redeems her leg with `abc`, and after an hour less a second Bob still
redeems his. -/
theorem swap_completes_swapRun :
    Succeeds (apply (.htlcRedeem { «to» := text "bob", htlcId := 1, preimage := text "abc" }))
      (final {} ([.setHeadTime 3599, .apply (.htlcRedeem
        { «to» := text "alice", htlcId := 2, preimage := text "abc" })] ++ swapRun)) := by
  have hfunded : Funded (trace {} ([.setHeadTime 3599, .apply (.htlcRedeem
      { «to» := text "alice", htlcId := 2, preimage := text "abc" })] ++ swapRun)) := by
    refine funded_of_steps (fun name hive hbd hmem => ?_) (by decide +kernel) (by decide +kernel)
      (by decide +kernel)
    simp [swapRun, lockRun] at hmem
    obtain ⟨-, rfl, rfl⟩ | ⟨-, rfl, rfl⟩ := hmem
    · decide
    · decide
  have hh : (final {} swapRun).htlcs[(1 : HtlcId)]? = some abcLock := by decide +kernel
  have hswap := (swap_completes {} swapRun [] [.setHeadTime 3599]
    { «to» := text "alice", htlcId := 2, preimage := text "abc" } hfunded (by decide) rfl 1 2
    abcLock returnLock hh (by decide +kernel) rfl rfl rfl (by decide +kernel)).1
  exact hswap ⟨abcLock, by decide +kernel, rfl⟩ (by decide +kernel)

end HiveNative.Chain
