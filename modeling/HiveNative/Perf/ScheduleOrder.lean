import HiveNative.Perf.ScheduledApply

/-!
# When the schedule keeps the outcome

The levels only promise that operations of one layer do not conflict.  They do
not keep the order of operations that do: an operation is moved in front of an
earlier one it conflicts with whenever a lower layer happens to be free of
conflicts with it.

`scheduled_agrees_iff` says exactly what is lost.  On the funds nothing is, as
redeems commute: two of them cannot settle one lock, and amounts are positive,
so that an order which fits in 64 bits at its end fits all along.  On a token the
transfers, taken level by level, must still be made by accounts that may move it
and must end with the same owner.  On the storage of a contract the last write at
each key must be the same.

`scheduled_agrees_of_inOrder` gives a condition on the list alone: no operation
has a lower level than an earlier one that moves the same token or writes the
same key.
-/

namespace HiveNative.Perf

open Std (ExtTreeMap)
open Chain EState OrderedMap Layering Replay

variable {db db' : Database}

/-! ## The operations on one cell -/

/-- The transfer, when it is one of the token `id`. -/
def ScheduledOp.transferOf (id : NftId) : ScheduledOp → Option NftTransferOperation
  | .nftTransfer op => if op.nftId = id then some op else none
  | _ => none

/-- The call, when it is one of the contract `id`. -/
def ScheduledOp.callOf (id : ContractId) : ScheduledOp → Option ContractCallOperation
  | .contractCall op => if op.contractId = id then some op else none
  | _ => none

/-- The transfers of a token, in their order. -/
def transfersOf (id : NftId) (ops : List ScheduledOp) : List NftTransferOperation :=
  ops.filterMap (ScheduledOp.transferOf id)

/-- The calls of a contract, in their order. -/
def callsOf (id : ContractId) (ops : List ScheduledOp) : List ContractCallOperation :=
  ops.filterMap (ScheduledOp.callOf id)

/-- The value a call writes at a key. -/
def writeAt (key : Bytes) (op : ContractCallOperation) : Option Bytes :=
  (Contracts.staged op.args).bind fun kv => if kv.1 = key then some kv.2 else none

/-- The values that the calls of a contract write at a key, in their order. -/
def writesOf (id : ContractId) (key : Bytes) (ops : List ScheduledOp) : List Bytes :=
  (callsOf id ops).filterMap (writeAt key)

theorem actionsAt_token (id : NftId) (ops : List ScheduledOp) :
    actionsAt ScheduledOp.cell (.token id) ops = (transfersOf id ops).map .nftTransfer := by
  unfold actionsAt transfersOf
  rw [List.map_filterMap, ← List.filterMap_eq_filter]
  congr 1
  funext op
  cases op with
  | nftTransfer op =>
      by_cases h : op.nftId = id
      · simp [ScheduledOp.cell, ScheduledOp.transferOf, Option.guard, h]
      · simp [ScheduledOp.cell, ScheduledOp.transferOf, Option.guard, h]
  | _ => rfl

theorem actionsAt_storage (id : ContractId) (ops : List ScheduledOp) :
    actionsAt ScheduledOp.cell (.storage id) ops = (callsOf id ops).map .contractCall := by
  unfold actionsAt callsOf
  rw [List.map_filterMap, ← List.filterMap_eq_filter]
  congr 1
  funext op
  cases op with
  | contractCall op =>
      by_cases h : op.contractId = id
      · simp [ScheduledOp.cell, ScheduledOp.callOf, Option.guard, h]
      · simp [ScheduledOp.cell, ScheduledOp.callOf, Option.guard, h]
  | _ => rfl

/-! ## Tokens -/

section Token

variable {n : NftObject} {ts ts' : List NftTransferOperation} {o o' : Option NftObject}

/-- Each transfer is made by an account that may move the token as the transfers
before it left it. -/
def Handed (db : Database) : NftObject → List NftTransferOperation → Prop
  | _, [] => True
  | n, t :: ts => Authorised db n t.from ∧ Handed db (handedTo n t.to) ts

/-- The account the last transfer delivers to. -/
def receiver (ts : List NftTransferOperation) : Option AccountName := ts.getLast?.map (·.to)

/-- The token after the transfers. -/
def handedOn (n : NftObject) (ts : List NftTransferOperation) : NftObject :=
  (receiver ts).elim n (handedTo n)

theorem handedOn_cons (t : NftTransferOperation) :
    handedOn (handedTo n t.to) ts = handedOn n (t :: ts) := by
  cases ts with
  | nil => rfl
  | cons t' ts =>
      unfold handedOn receiver
      rw [List.getLast?_cons_cons, List.getLast?_eq_some_getLast (List.cons_ne_nil t' ts)]
      rfl

theorem replays_none (h : Replays (TransferActs db) ts none o') : ts = [] ∧ o' = none := by
  cases ts with
  | nil => exact ⟨rfl, (replays_nil.mp h).symm⟩
  | cons t ts =>
      obtain ⟨_, ⟨_, hn, -⟩, -⟩ := replays_cons.mp h
      cases hn

theorem replays_some :
    Replays (TransferActs db) ts (some n) o' ↔
      (∀ t ∈ ts, TransferReady db t ∧ n.soulbound = false) ∧ Handed db n ts ∧
        o' = some (handedOn n ts) := by
  induction ts generalizing n with
  | nil =>
      rw [replays_nil]
      constructor
      · intro h
        exact ⟨List.forall_mem_nil _, trivial, h.symm⟩
      · intro h
        exact h.2.2.symm
  | cons t ts ih =>
      rw [replays_cons, List.forall_mem_cons]
      constructor
      · rintro ⟨_, ⟨_, hn, hready, hauth, hfree, rfl⟩, hrest⟩
        cases hn
        obtain ⟨hall, hhand, rfl⟩ := ih.mp hrest
        exact ⟨⟨⟨hready, hfree⟩, hall⟩, ⟨hauth, hhand⟩, by rw [handedOn_cons]⟩
      · rintro ⟨⟨⟨hready, hfree⟩, hall⟩, ⟨hauth, hhand⟩, rfl⟩
        refine ⟨_, ⟨n, rfl, hready, hauth, hfree, rfl⟩, ih.mpr ⟨hall, hhand, ?_⟩⟩
        rw [handedOn_cons]

theorem receiver_eq_none : receiver ts = none ↔ ts = [] := by
  unfold receiver
  rw [Option.map_eq_none_iff, List.getLast?_eq_none_iff]

/-- Transfers of one token in another order replay to the same token exactly when
each is still made by an account that may, and the last one delivers to the same
account. -/
theorem transfers_reorder (hp : ts'.Perm ts) (h : Replays (TransferActs db) ts o o') :
    Replays (TransferActs db) ts' o o' ↔
      (∀ n, o = some n → Handed db n ts') ∧ receiver ts' = receiver ts := by
  cases o with
  | none =>
      obtain ⟨rfl, rfl⟩ := replays_none h
      obtain rfl := hp.eq_nil
      exact iff_of_true h ⟨fun n hn => (by cases hn), rfl⟩
  | some n =>
      obtain ⟨hready, -, rfl⟩ := replays_some.mp h
      have hready' : ∀ t ∈ ts', TransferReady db t ∧ n.soulbound = false :=
        fun t ht => hready t (hp.mem_iff.mp ht)
      rw [replays_some]
      constructor
      · rintro ⟨-, hhand, hsame⟩
        refine ⟨fun m hm => by cases hm; exact hhand, ?_⟩
        have hon : handedOn n ts = handedOn n ts' := Option.some.inj hsame
        cases hr : receiver ts with
        | none =>
            rw [receiver_eq_none] at hr
            rw [receiver_eq_none]
            subst hr
            exact hp.eq_nil
        | some a =>
            cases hr' : receiver ts' with
            | none =>
                rw [receiver_eq_none] at hr'
                subst hr'
                rw [hp.symm.eq_nil] at hr
                cases hr
            | some a' =>
                rw [handedOn, handedOn, hr, hr'] at hon
                have howner : a = a' := congrArg NftObject.owner hon
                rw [howner]
      · rintro ⟨hhand, hlast⟩
        refine ⟨hready', hhand n rfl, ?_⟩
        rw [handedOn, handedOn, hlast]

end Token

/-! ## Storage -/

section Storage

variable {cs cs' : List ContractCallOperation} {o o' : Option Contracts.Storage}

/-- The storage entry after the calls. -/
def called (o : Option Contracts.Storage) (cs : List ContractCallOperation) :
    Option Contracts.Storage :=
  cs.foldl (fun o op => some (written (o.getD ∅) op.args)) o

theorem replays_calls :
    Replays (CallActs db) cs o o' ↔ (∀ c ∈ cs, CallReady db c) ∧ o' = called o cs := by
  induction cs generalizing o with
  | nil =>
      rw [replays_nil, eq_comm]
      exact ⟨fun h => ⟨List.forall_mem_nil _, h⟩, fun h => h.2⟩
  | cons c cs ih =>
      rw [replays_cons, List.forall_mem_cons]
      constructor
      · rintro ⟨_, ⟨hready, rfl⟩, hrest⟩
        obtain ⟨hall, rfl⟩ := ih.mp hrest
        exact ⟨⟨hready, hall⟩, rfl⟩
      · rintro ⟨⟨hready, hall⟩, rfl⟩
        exact ⟨_, ⟨hready, rfl⟩, ih.mpr ⟨hall, rfl⟩⟩

theorem getElem?_written (storage : Contracts.Storage) (op : ContractCallOperation) (key : Bytes) :
    (written storage op.args)[key]? = (writeAt key op).or storage[key]? := by
  unfold written writeAt
  cases Contracts.staged op.args with
  | none => rfl
  | some kv =>
      simp only [Option.elim_some, Option.bind_some, getElem?_insert_eq]
      by_cases h : key = kv.1
      · rw [if_pos h, if_pos h.symm]
        rfl
      · rw [if_neg h, if_neg (Ne.symm h)]
        rfl

/-- A key holds what was written there last. -/
theorem getElem?_called (key : Bytes) :
    ((called o cs).getD ∅)[key]? = (cs.filterMap (writeAt key)).getLast?.or (o.getD ∅)[key]? := by
  induction cs using List.reverseRecOn with
  | nil => rfl
  | append_singleton cs c ih =>
      have hstep : called o (cs ++ [c]) = some (written ((called o cs).getD ∅) c.args) := by
        unfold called
        rw [List.foldl_append]
        rfl
      rw [hstep, Option.getD_some, getElem?_written, ih, List.filterMap_append]
      cases hw : writeAt key c with
      | none => simp [hw]
      | some v => simp [hw]

theorem called_isSome : (called o cs).isSome = true ↔ o.isSome = true ∨ cs ≠ [] := by
  induction cs using List.reverseRecOn with
  | nil => simp [called]
  | append_singleton cs c ih => simp [called]

/-- Calls of one contract in another order leave the same storage exactly when
the last write at each key is the same. -/
theorem calls_reorder (hp : cs'.Perm cs) (h : Replays (CallActs db) cs o o') :
    Replays (CallActs db) cs' o o' ↔
      ∀ key, (cs'.filterMap (writeAt key)).getLast? = (cs.filterMap (writeAt key)).getLast? := by
  obtain ⟨hready, rfl⟩ := replays_calls.mp h
  have hready' : ∀ c ∈ cs', CallReady db c := fun c hc => hready c (hp.mem_iff.mp hc)
  rw [replays_calls]
  constructor
  · rintro ⟨-, hsame⟩ key
    have hkey : ((called o cs).getD ∅)[key]? = _ := getElem?_called key
    rw [hsame, getElem?_called] at hkey
    have hperm : (cs'.filterMap (writeAt key)).Perm (cs.filterMap (writeAt key)) :=
      hp.filterMap _
    cases hw : (cs.filterMap (writeAt key)).getLast? with
    | none =>
        rw [List.getLast?_eq_none_iff] at hw ⊢
        rw [hw] at hperm
        exact hperm.eq_nil
    | some v =>
        cases hw' : (cs'.filterMap (writeAt key)).getLast? with
        | none =>
            rw [List.getLast?_eq_none_iff] at hw'
            rw [hw'] at hperm
            rw [hperm.symm.eq_nil] at hw
            cases hw
        | some v' =>
            rw [hw, hw'] at hkey
            exact hkey
  · intro hlast
    refine ⟨hready', ?_⟩
    have hsome : (called o cs').isSome = (called o cs).isSome := by
      have hnil : cs' = [] ↔ cs = [] :=
        ⟨fun h => (h ▸ hp).symm.eq_nil, fun h => (h ▸ hp).eq_nil⟩
      rw [Bool.eq_iff_iff, called_isSome, called_isSome, ne_eq, ne_eq, hnil]
    have hget : (called o cs).getD ∅ = (called o cs').getD ∅ := by
      apply ExtTreeMap.ext_getElem?
      intro key
      rw [getElem?_called, getElem?_called, hlast]
    cases hc : called o cs with
    | none =>
        rw [hc] at hsome
        exact (Option.isSome_eq_false_iff.mp hsome |> Option.isNone_iff_eq_none.mp).symm
    | some s =>
        rw [hc, Option.isSome_some, Option.isSome_iff_exists] at hsome
        obtain ⟨s', hs'⟩ := hsome
        rw [hc, hs'] at hget
        rw [hs']
        exact congrArg some hget

end Storage

/-! ## Funds -/

section Funds

/-- Every lock holds a positive amount. -/
def PositiveLocks (htlcs : ExtTreeMap HtlcId HtlcObject) : Prop :=
  ∀ (id : HtlcId) (h : HtlcObject), htlcs[id]? = some h → 0 < h.amount.amount.toInt

theorem PositiveLocks.insert {htlcs : ExtTreeMap HtlcId HtlcObject} (hpos : PositiveLocks htlcs)
    {h : HtlcObject} (hh : 0 < h.amount.amount.toInt) (id : HtlcId) :
    PositiveLocks (htlcs.insert id h) := by
  intro i x hx
  rw [getElem?_insert_eq] at hx
  split at hx
  · cases hx
    exact hh
  · exact hpos i x hx

theorem PositiveLocks.settle {htlcs : ExtTreeMap HtlcId HtlcObject} (hpos : PositiveLocks htlcs)
    {id : HtlcId} {h : HtlcObject} (hfound : htlcs[id]? = some h) (status : HtlcStatus) :
    PositiveLocks (htlcs.insert id { h with status := status }) := by
  have hamount := hpos id h hfound
  exact hpos.insert (h := { h with status := status }) hamount id

theorem positiveLocks_run (config : NodeConfig) (steps : List Step) :
    PositiveLocks (final config steps).htlcs := by
  refine Machine.invariant (fun _ (db : Database) => PositiveLocks db.htlcs) ?_ ?_ steps
  · intro id h hh
    simp [Database.empty] at hh
  · intro tr db s hpos
    have hmove := fundsMove db s
    change PositiveLocks (Machine.event exec db s).after.htlcs
    cases hmove with
    | idle same quiet =>
        rw [same.htlcs]
        exact hpos
    | account done label valid balances htlcs next =>
        rw [htlcs]
        exact hpos
    | lock done label guards balances htlcs next =>
        rw [htlcs]
        have hamount := guards.valid.amount_pos
        rw [Int64.lt_iff_toInt_lt, Int64.toInt_zero] at hamount
        exact hpos.insert hamount _
    | redeem done label guards balances htlcs next =>
        rw [htlcs]
        exact hpos.settle guards.found _
    | refund done label guards balances htlcs next =>
        rw [htlcs]
        exact hpos.settle guards.found _

/-- Two symbols name the same balance field. -/
def SameField (s s' : AssetSymbol) : Prop := s = .hive ↔ s' = .hive

variable {b : AccountBalance} {x y : Asset}

theorem field_adjusted_same (h : SameField x.symbol y.symbol) :
    (b.adjusted x).field y.symbol = b.field x.symbol + x.amount ∧
      b.field y.symbol = b.field x.symbol := by
  unfold SameField at h
  unfold AccountBalance.adjusted AccountBalance.setField AccountBalance.field
  by_cases hx : x.symbol = .hive
  · simp [hx, h.mp hx]
  · simp [hx, mt h.mpr hx]

theorem field_adjusted_other (h : ¬ SameField x.symbol y.symbol) :
    (b.adjusted x).field y.symbol = b.field y.symbol := by
  unfold SameField at h
  unfold AccountBalance.adjusted AccountBalance.setField AccountBalance.field
  by_cases hx : x.symbol = .hive
  · have hy : ¬ y.symbol = .hive := fun hy => h ⟨fun _ => hy, fun _ => hx⟩
    simp [hx, hy]
  · have hy : y.symbol = .hive := by
      by_contra hy
      exact h ⟨fun hx' => absurd hx' hx, fun hy' => absurd hy' hy⟩
    simp [hx, hy]

theorem adjustable_iff_of_pos (hx : 0 < x.amount.toInt) :
    Adjustable b x ↔ (b.field x.symbol).toInt + x.amount.toInt < 2 ^ 63 := by
  constructor
  · intro h
    exact h.fits
  · intro h
    have hlow := (b.field x.symbol).le_toInt
    exact ⟨fun hneg => absurd hneg (by omega), by omega, h⟩

theorem adjustable_swap (hx : 0 < x.amount.toInt) (hy : 0 < y.amount.toInt)
    (h₁ : Adjustable b x) (h₂ : Adjustable (b.adjusted x) y) :
    Adjustable b y ∧ Adjustable (b.adjusted y) x := by
  rw [adjustable_iff_of_pos hx] at h₁
  rw [adjustable_iff_of_pos hy] at h₂
  rw [adjustable_iff_of_pos hy, adjustable_iff_of_pos hx]
  by_cases hsame : SameField x.symbol y.symbol
  · have hlow := (b.field x.symbol).le_toInt
    obtain ⟨hadj, hfield⟩ := field_adjusted_same (b := b) hsame
    obtain ⟨hadj', -⟩ := field_adjusted_same (b := b) (x := y) (y := x) hsame.symm
    rw [hadj, toInt_add (by omega) h₁] at h₂
    rw [hadj', hfield, toInt_add (by omega) (by omega)]
    omega
  · have hsame' : ¬ SameField y.symbol x.symbol := fun h => hsame h.symm
    rw [field_adjusted_other hsame] at h₂
    rw [field_adjusted_other hsame']
    exact ⟨h₂, h₁⟩

/-- The guards of a redeem in other funds. -/
theorem redeemable_move {op : HtlcRedeemOperation} {f f' : Funds} {l : HtlcObject}
    {b b' : AccountBalance} (hg : Redeemable (withFunds db f) op l b)
    (hfound : f'.htlcs[op.htlcId]? = some l) (hacc : f'.balances[l.to]? = some b')
    (hadj : Adjustable b' l.amount) : Redeemable (withFunds db f') op l b' :=
  { active := ⟨hg.active.hardfork, hg.active.full⟩
    valid := hg.valid
    found := hfound
    still_open := hg.still_open
    dest := hg.dest
    in_time := hg.in_time
    size := hg.size
    digest := hg.digest
    account := hacc
    adjustable := hadj }

/-- Two redeems commute. -/
theorem redeem_swap {a c : HtlcRedeemOperation} {f g r : Funds} (hpos : PositiveLocks f.htlcs)
    (ha : RedeemActs db a f g) (hc : RedeemActs db c g r) :
    ∃ g', RedeemActs db c f g' ∧ RedeemActs db a g' r := by
  obtain ⟨l, b, hg, rfl⟩ := ha
  obtain ⟨l', b', hg', rfl⟩ := hc
  have hfound : f.htlcs[a.htlcId]? = some l := hg.found
  have hfound' : (f.htlcs.insert a.htlcId { l with status := .redeemed })[c.htlcId]? = some l' :=
    hg'.found
  have hid : c.htlcId ≠ a.htlcId := by
    intro heq
    rw [getElem?_insert_eq, if_pos heq] at hfound'
    cases hfound'
    cases hg'.still_open
  rw [getElem?_insert_eq, if_neg hid] at hfound'
  have hx := hpos _ _ hfound
  have hy := hpos _ _ hfound'
  have hacc : f.balances[l.to]? = some b := hg.account
  have hacc' : (f.balances.insert l.to (b.adjusted l.amount))[l'.to]? = some b' := hg'.account
  have hlocks : (f.htlcs.insert a.htlcId { l with status := .redeemed }).insert c.htlcId
      { l' with status := .redeemed } = (f.htlcs.insert c.htlcId
        { l' with status := .redeemed }).insert a.htlcId { l with status := .redeemed } :=
    insert_comm (Ne.symm hid)
  have hfirst : (f.htlcs.insert c.htlcId { l' with status := .redeemed })[a.htlcId]? = some l := by
    rw [getElem?_insert_eq, if_neg (Ne.symm hid)]
    exact hfound
  rw [getElem?_insert_eq] at hacc'
  by_cases hto : l'.to = l.to
  · rw [if_pos hto] at hacc'
    cases hacc'
    obtain ⟨hadj', hadj⟩ := adjustable_swap hx hy hg.adjustable hg'.adjustable
    refine ⟨_, ⟨l', b, redeemable_move hg' hfound' (hto ▸ hacc) hadj', rfl⟩,
      ⟨l, b.adjusted l'.amount, redeemable_move hg hfirst ?_ hadj, ?_⟩⟩
    · show (f.balances.insert l'.to (b.adjusted l'.amount))[l.to]? = _
      rw [hto, ExtTreeMap.getElem?_insert_self]
    · show Funds.mk _ _ = Funds.mk _ _
      rw [hlocks, hto, insert_insert_self, insert_insert_self, adjusted_comm]
  · rw [if_neg hto] at hacc'
    refine ⟨_, ⟨l', b', redeemable_move hg' hfound' hacc' hg'.adjustable, rfl⟩,
      ⟨l, b, redeemable_move hg hfirst ?_ hg.adjustable, ?_⟩⟩
    · show (f.balances.insert l'.to (b'.adjusted l'.amount))[l.to]? = _
      rw [getElem?_insert_eq, if_neg (Ne.symm hto)]
      exact hacc
    · show Funds.mk _ _ = Funds.mk _ _
      rw [hlocks, insert_comm (Ne.symm hto)]

theorem redeem_positive {op : HtlcRedeemOperation} {f g : Funds} (h : RedeemActs db op f g)
    (hpos : PositiveLocks f.htlcs) : PositiveLocks g.htlcs := by
  obtain ⟨l, b, hg, rfl⟩ := h
  exact hpos.settle hg.found .redeemed

/-- Redeems in another order leave the same balances and locks. -/
theorem funds_reorder {rs rs' : List ScheduledOp} {f f' : Funds} (hp : rs'.Perm rs)
    (hpos : PositiveLocks f.htlcs) (h : Replays (Acts db .funds) rs f f') :
    Replays (Acts db .funds) rs' f f' := by
  refine Replays.of_perm (I := fun f : Funds => PositiveLocks f.htlcs) ?_ ?_ hp.symm hpos h
  · intro op s t hstep hs
    cases op with
    | htlcRedeem op => exact redeem_positive hstep hs
    | _ => exact hstep.elim
  · intro op op' s t r hs hstep hstep'
    cases op with
    | htlcRedeem op =>
        cases op' with
        | htlcRedeem op' => exact redeem_swap hs hstep hstep'
        | _ => exact hstep'.elim
    | _ => exact hstep.elim

/-- Markers leave no trace in the cells. -/
theorem markers_reorder {ms ms' : List ScheduledOp} {v v' : Cell.marker.Value} (hp : ms'.Perm ms)
    (h : Replays (Acts db .marker) ms v v') : Replays (Acts db .marker) ms' v v' := by
  refine Replays.of_perm (I := fun _ => True) (fun _ _ _ _ _ => trivial) ?_ hp.symm trivial h
  intro a b s t r _ ha hb
  exact ⟨t, hb, ha⟩

end Funds

/-! ## The schedule against the list -/

/-- What is asked of the scheduler: whenever the operations can be applied one by
one, the scheduler applies all of them and leaves the same tables. -/
def ScheduledAgrees (db : Database) (ops : List ScheduledOp) : Prop :=
  ∀ serial, applySerial ops db = .ok () serial →
    ∃ stats scheduled, applyScheduled ops db = .ok stats scheduled ∧
      stats.opsApplied = ops.length ∧ SameChain serial scheduled

/-- Taken level by level, the operations on one cell have the outcome they have in
the order of the list. -/
structure OutcomeKept (db : Database) (ops : List ScheduledOp) : Prop where
  handed : ∀ id n, db.nfts[id]? = some n → Handed db n (transfersOf id (inLayers ops))
  receiver : ∀ id, receiver (transfersOf id (inLayers ops)) = receiver (transfersOf id ops)
  written : ∀ id key,
    (writesOf id key (inLayers ops)).getLast? = (writesOf id key ops).getLast?

theorem replays_reorder_iff {ops ops' : List ScheduledOp} (hp : ops'.Perm ops)
    (hpos : PositiveLocks db.htlcs) {g : (k : Cell) → k.Value}
    (h : Replays (OnCell ScheduledOp.cell (Acts db)) ops (cells db) g) :
    Replays (OnCell ScheduledOp.cell (Acts db)) ops' (cells db) g ↔
      (∀ id n, db.nfts[id]? = some n → Handed db n (transfersOf id ops')) ∧
      (∀ id, receiver (transfersOf id ops') = receiver (transfersOf id ops)) ∧
      ∀ id key, (writesOf id key ops').getLast? = (writesOf id key ops).getLast? := by
  rw [replays_cells_iff] at h ⊢
  have htoken : ∀ id, Replays (Acts db (.token id)) (actionsAt ScheduledOp.cell (.token id) ops')
      (cells db (.token id)) (g (.token id)) ↔
        (∀ n, db.nfts[id]? = some n → Handed db n (transfersOf id ops')) ∧
          receiver (transfersOf id ops') = receiver (transfersOf id ops) := by
    intro id
    have hid := h (.token id)
    rw [actionsAt_token, replays_map] at hid ⊢
    exact transfers_reorder (hp.filterMap _) hid
  have hstorage : ∀ id, Replays (Acts db (.storage id))
      (actionsAt ScheduledOp.cell (.storage id) ops') (cells db (.storage id)) (g (.storage id)) ↔
        ∀ key, (writesOf id key ops').getLast? = (writesOf id key ops).getLast? := by
    intro id
    have hid := h (.storage id)
    rw [actionsAt_storage, replays_map] at hid ⊢
    exact calls_reorder (hp.filterMap _) hid
  constructor
  · intro h'
    exact ⟨fun id => ((htoken id).mp (h' _)).1, fun id => ((htoken id).mp (h' _)).2,
      fun id => (hstorage id).mp (h' _)⟩
  · rintro ⟨hhand, hrecv, hwrite⟩ k
    cases k with
    | token id => exact (htoken id).mpr ⟨hhand id, hrecv id⟩
    | storage id => exact (hstorage id).mpr (hwrite id)
    | funds => exact funds_reorder (hp.filter _) hpos (h .funds)
    | marker => exact markers_reorder (hp.filter _) (h .marker)

theorem agrees_iff (hpos : PositiveLocks db.htlcs) (ops : List ScheduledOp) :
    ScheduledAgrees db ops ↔ (Succeeds (applySerial ops) db → OutcomeKept db ops) := by
  have hreorder := fun g => replays_reorder_iff (g := g) (inLayers_perm ops) hpos
  constructor
  · rintro hagrees ⟨serial, hserial⟩
    obtain ⟨stats, scheduled, hsched, -, hsame⟩ := hagrees serial hserial
    obtain ⟨hrun, -⟩ := (applyScheduled_ok ops).mp hsched
    obtain ⟨hreplay, -⟩ := applySerial_replays hserial
    obtain ⟨hreplay', -⟩ := applySerial_replays hrun
    rw [hsame.cells_eq] at hreplay'
    obtain ⟨hhand, hrecv, hwrite⟩ := (hreorder _ hreplay).mp hreplay'
    exact ⟨hhand, hrecv, hwrite⟩
  · intro hkept serial hserial
    obtain ⟨hhand, hrecv, hwrite⟩ := hkept ⟨serial, hserial⟩
    obtain ⟨hreplay, hrules⟩ := applySerial_replays hserial
    obtain ⟨scheduled, hrun, hcells⟩ :=
      replays_applySerial ((hreorder _ hreplay).mpr ⟨hhand, hrecv, hwrite⟩)
    obtain ⟨-, hrules'⟩ := applySerial_replays hrun
    refine ⟨_, scheduled, (applyScheduled_ok ops).mpr ⟨hrun, rfl⟩, rfl, ?_⟩
    exact sameChain_of_cells hcells (hrules.symm.trans hrules')

/-- In every database a run reaches, scheduled apply agrees with serial apply on a
list exactly when the list cannot be applied one by one or its outcome is kept
level by level. -/
theorem scheduled_agrees_iff (config : NodeConfig) (steps : List Step) (ops : List ScheduledOp) :
    ScheduledAgrees (final config steps) ops ↔
      (Succeeds (applySerial ops) (final config steps) →
        OutcomeKept (final config steps) ops) :=
  agrees_iff (positiveLocks_run config steps) ops

/-! ## Lists whose dependent operations keep their order -/

/-- The order of two operations matters: they are transfers of one token, or calls
that write one key of one contract. -/
def Dependent (a b : ScheduledOp) : Prop :=
  (∃ id, (a.transferOf id).isSome ∧ (b.transferOf id).isSome) ∨
    ∃ id key, ((a.callOf id).bind (writeAt key)).isSome ∧ ((b.callOf id).bind (writeAt key)).isSome

/-- No operation has a lower level than an earlier one it depends on. -/
def InOrder (ops : List ScheduledOp) : Prop :=
  (leveled Clash ops).Pairwise fun a b => Dependent a.1 b.1 → a.2 ≤ b.2

/-- A selection of operations that depend on each other keeps its order. -/
theorem filterMap_inLayers {β : Type} {ops : List ScheduledOp} (hin : InOrder ops)
    (f : ScheduledOp → Option β)
    (hf : ∀ a b, (f a).isSome = true → (f b).isSome = true → Dependent a b) :
    (inLayers ops).filterMap f = ops.filterMap f := by
  have hsel : ∀ l : List ScheduledOp,
      l.filterMap f = (l.filter fun a => (f a).isSome).filterMap f := by
    intro l
    rw [List.filterMap_filter]
    congr 1
    funext a
    cases ha : f a with
    | none => rfl
    | some b => rfl
  rw [hsel (inLayers ops), hsel ops]
  congr 1
  apply byLevel_filter_of_ascending
  refine (List.Pairwise.filter _ hin).imp_of_mem fun ha hb hab => hab ?_
  exact hf _ _ (List.mem_filter.mp ha).2 (List.mem_filter.mp hb).2

theorem scheduled_agrees_of_inOrder (config : NodeConfig) (steps : List Step)
    {ops : List ScheduledOp} (hin : InOrder ops) : ScheduledAgrees (final config steps) ops := by
  have hpos := positiveLocks_run config steps
  rw [agrees_iff hpos]
  rintro ⟨serial, hserial⟩
  have htransfers : ∀ id, transfersOf id (inLayers ops) = transfersOf id ops := by
    intro id
    exact filterMap_inLayers hin _ fun a b ha hb => Or.inl ⟨id, ha, hb⟩
  have hwrites : ∀ id key, writesOf id key (inLayers ops) = writesOf id key ops := by
    intro id key
    unfold writesOf callsOf
    rw [List.filterMap_filterMap, List.filterMap_filterMap]
    exact filterMap_inLayers hin _ fun a b ha hb => Or.inr ⟨id, key, ha, hb⟩
  obtain ⟨hreplay, -⟩ := applySerial_replays hserial
  obtain ⟨hhand, -, -⟩ :=
    (replays_reorder_iff (List.Perm.refl ops) hpos hreplay).mp hreplay
  refine ⟨fun id n hn => ?_, fun id => ?_, fun id key => ?_⟩
  · rw [htransfers]
    exact hhand id n hn
  · rw [htransfers]
  · rw [hwrites]

/-! ## A list that the schedule breaks -/

/-- Alice owns the token 1 and Bob the token 2. -/
def tradeRun : List Step :=
  [ .apply (.nftMint { creator := text "alice", collection := 1, «to» := text "bob" }),
    .apply (.nftMint { creator := text "alice", collection := 1, «to» := text "alice" }),
    .apply (.nftCreateCollection
      { creator := text "alice", symbol := text "ART", name := text "Art" }),
    .createAccount (text "dave") 0 0,
    .createAccount (text "carol") 0 0,
    .createAccount (text "bob") 0 0,
    .createAccount (text "alice") 0 0 ]

/-- Bob receives the token 1 and sends the token 2 to Carol, who passes it on. -/
def tradeOps : List ScheduledOp :=
  [ .nftTransfer { «from» := text "alice", «to» := text "bob", nftId := 1 },
    .nftTransfer { «from» := text "bob", «to» := text "carol", nftId := 2 },
    .nftTransfer { «from» := text "carol", «to» := text "dave", nftId := 2 } ]

/-- The second transfer waits for the first, which also touches Bob, and the
third does not: it is applied before Carol has the token. -/
theorem tradeOps_disagree :
    Succeeds (applySerial tradeOps) (final {} tradeRun) ∧
      ¬ ScheduledAgrees (final {} tradeRun) tradeOps := by
  have hserial : finished (applySerial tradeOps (final {} tradeRun)) = true := by decide +kernel
  have hsched : finished (applyScheduled tradeOps (final {} tradeRun)) = false := by
    decide +kernel
  cases hs : applySerial tradeOps (final {} tradeRun) with
  | error e db =>
      rw [hs] at hserial
      cases hserial
  | ok u db =>
      refine ⟨⟨db, hs⟩, fun hagrees => ?_⟩
      obtain ⟨stats, scheduled, hok, -⟩ := hagrees db hs
      rw [hok] at hsched
      cases hsched

end HiveNative.Perf
