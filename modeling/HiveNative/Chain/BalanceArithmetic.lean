import HiveNative.Chain.AccountIndex
import HiveNative.Chain.Conservation

/-!
# Balance arithmetic

`adjust_balance` is meant to be exact or to refuse: it guards a debit against the
balance, and adds.  The guard negates the amount, which the least `int64_t` does not
survive, and a credit is not guarded at all.  `adjustBalance_exact_iff` says that
these two ends of the 64-bit range are all that is missing, in the database and
through the account index alike.
-/

namespace HiveNative.Chain

open Std (ExtTreeMap)
open EState OrderedMap

variable {db : Database} {name : AccountName} {delta : Asset}

/-! ## Exact or refused -/

/-- Every balance lies in `[0, 2^63 - 1]`. -/
def BalancesInRange (db : Database) : Prop :=
  ∀ (name : AccountName) (b : AccountBalance) (sym : AssetSymbol), db.balances[name]? = some b →
    0 ≤ (b.field sym).toInt ∧ (b.field sym).toInt ≤ 2 ^ 63 - 1

/-- The field that the symbol does not address. -/
def AccountBalance.otherField (b : AccountBalance) (sym : AssetSymbol) : ShareType :=
  if sym = .hive then b.hbd else b.hive

/-- The balance `b'` is `b` with the addressed field moved by the amount, in the
integers. -/
structure SumOf (b b' : AccountBalance) (delta : Asset) : Prop where
  sum : (b'.field delta.symbol).toInt = (b.field delta.symbol).toInt + delta.amount.toInt
  not_below : 0 ≤ (b'.field delta.symbol).toInt
  not_above : (b'.field delta.symbol).toInt ≤ 2 ^ 63 - 1
  rest : b'.otherField delta.symbol = b.otherField delta.symbol

/-- The account has the sum, and no other balance changed. -/
structure ExactSum (db db' : Database) (name : AccountName) (delta : Asset) : Prop where
  addressed : ∃ b b' : AccountBalance, db.balances[name]? = some b ∧
    db'.balances[name]? = some b' ∧ SumOf b b' delta
  others : ∀ other, other ≠ name → db'.balances[other]? = db.balances[other]?

/-- A program over a state with a database in it either throws and leaves every
balance, or adjusts exactly. -/
def ExactOrRefused {σ : Type} (view : σ → Database) (x : EStateM Stop σ Unit) (s : σ)
    (name : AccountName) (delta : Asset) : Prop :=
  (∃ e t, x s = .error (.threw e) t ∧ (view t).balances = (view s).balances) ∨
    ∃ t, x s = .ok () t ∧ ExactSum (view s) (view t) name delta

/-- The account, if there is one, can hold the sum, and the amount is not the least
`int64_t`. -/
def Fits (db : Database) (name : AccountName) (delta : Asset) : Prop :=
  ∀ b : AccountBalance, db.balances[name]? = some b →
    delta.amount.toInt ≠ -2 ^ 63 ∧ (b.field delta.symbol).toInt + delta.amount.toInt < 2 ^ 63

/-! ## The database -/

@[simp] theorem field_setField_self (b : AccountBalance) (sym : AssetSymbol) (x : ShareType) :
    (b.setField sym x).field sym = x := by
  unfold AccountBalance.setField AccountBalance.field
  split <;> rfl

@[simp] theorem otherField_setField (b : AccountBalance) (sym : AssetSymbol) (x : ShareType) :
    (b.setField sym x).otherField sym = b.otherField sym := by
  unfold AccountBalance.setField AccountBalance.otherField
  split <;> rfl

/-- An adjustment that is accepted is exact when the sum is not negative. -/
theorem sumOf_adjusted {b : AccountBalance} (h : Adjustable b delta)
    (hnonneg : 0 ≤ (b.field delta.symbol).toInt + delta.amount.toInt) :
    SumOf b (b.adjusted delta) delta := by
  have hsum : ((b.adjusted delta).field delta.symbol).toInt =
      (b.field delta.symbol).toInt + delta.amount.toInt := by
    rw [AccountBalance.adjusted, field_setField_self, toInt_add h.fits_below h.fits]
  have hfits := h.fits
  refine ⟨hsum, by omega, by omega, ?_⟩
  rw [AccountBalance.adjusted, otherField_setField]

/-- The sum is not negative when the balance is not: a debit is covered. -/
theorem Adjustable.sum_nonneg {b : AccountBalance} (h : Adjustable b delta)
    (hb : 0 ≤ (b.field delta.symbol).toInt) :
    0 ≤ (b.field delta.symbol).toInt + delta.amount.toInt := by
  by_cases hneg : delta.amount.toInt < 0
  · exact (h.covered hneg).2
  · omega

theorem exactSum_of_ok {db' : Database} (hr : BalancesInRange db)
    (h : adjustBalance name delta db = .ok () db') : ExactSum db db' name delta := by
  obtain ⟨b, hb, hadj, hdb⟩ := adjustBalance_ok.mp h
  have hsum := hadj.sum_nonneg (hr name b delta.symbol hb).1
  refine ⟨⟨b, b.adjusted delta, hb, ?_, sumOf_adjusted hadj hsum⟩, fun other hne => ?_⟩
  · rw [hdb, ExtTreeMap.getElem?_insert_self]
  · rw [hdb, getElem?_insert_ne (Ne.symm hne)]

/-- An adjustment that fits finishes or throws. -/
theorem adjustBalance_of_fits (hr : BalancesInRange db) (hfits : Fits db name delta) :
    (∃ e, adjustBalance name delta db = .error (.threw e) db) ∨
      ∃ db', adjustBalance name delta db = .ok () db' := by
  cases hb : db.balances[name]? with
  | none => exact Or.inl ⟨_, adjustBalance_error.mpr ⟨.missing hb, rfl⟩⟩
  | some b =>
      obtain ⟨hleast, habove⟩ := hfits b hb
      have hbelow := (hr name b delta.symbol hb).1
      by_cases hshort : (b.field delta.symbol).toInt + delta.amount.toInt < 0
      · exact Or.inl
          ⟨_, adjustBalance_error.mpr ⟨.uncovered hb (by omega) hleast hshort, rfl⟩⟩
      · have hadj : Adjustable b delta := ⟨fun _ => ⟨hleast, by omega⟩, by omega, habove⟩
        exact Or.inr ⟨_, adjustBalance_ok.mpr ⟨b, hb, hadj, rfl⟩⟩

/-- An adjustment that finishes or throws fits. -/
theorem fits_of_defined (hr : BalancesInRange db)
    (h : ∀ db', adjustBalance name delta db ≠ .error .undefined db') : Fits db name delta := by
  intro b hb
  have hleast : delta.amount.toInt ≠ -2 ^ 63 := fun hl =>
    h db (adjustBalance_error.mpr ⟨.unnegatable hb hl, rfl⟩)
  refine ⟨hleast, ?_⟩
  by_contra habove
  have hmax := (hr name b delta.symbol hb).2
  have hcovered : Covered (b.field delta.symbol) delta.amount := fun hneg => by omega
  exact h db (adjustBalance_error.mpr ⟨.overflows hb hcovered (by omega), rfl⟩)

/-! ## The account index -/

/-- Through the index an adjustment fails as the database does. -/
theorem index_adjustBalance_error (hash : Bytes → UInt64) {idx : AccountIndex} {e : Stop}
    {db' : Database} (h : adjustBalance name delta idx.db = .error e db') :
    AccountIndex.adjustBalance hash name delta idx = .error e { idx with db := db' } := by
  have hstop : onDb (adjustBalance name delta) idx = .error e { idx with db := db' } := by
    simp only [onDb, h]
  exact bind_error.mpr (Or.inl hstop)

/-- Through the index an adjustment finishes as the database does, whatever the cache
holds. -/
theorem index_adjustBalance_ok (hash : Bytes → UInt64) {idx : AccountIndex} {db' : Database}
    (h : adjustBalance name delta idx.db = .ok () db') :
    ∃ cache, AccountIndex.adjustBalance hash name delta idx =
      .ok () { idx with db := db', cache := cache } := by
  have hdone : onDb (adjustBalance name delta) idx = .ok () { idx with db := db' } := by
    simp only [onDb, h]
  have hget : (get : IndexM AccountIndex) { idx with db := db' } =
      .ok { idx with db := db' } { idx with db := db' } := rfl
  unfold AccountIndex.adjustBalance
  rw [bind_of_ok hdone, bind_of_ok hget]
  split
  · exact ⟨_, rfl⟩
  · exact ⟨_, rfl⟩

/-! ## Main result -/

theorem not_exactOrRefused {σ : Type} {view : σ → Database} {x : EStateM Stop σ Unit} {s t : σ}
    (h : x s = .error .undefined t) : ¬ ExactOrRefused view x s name delta := by
  intro hexact
  obtain ⟨e, t', hx, -⟩ | ⟨t', hx, -⟩ := hexact
  · rw [h] at hx
    cases hx
  · rw [h] at hx
    cases hx

/-- A program that ends as `adjust_balance` does on the database is exact or refuses
exactly when the adjustment fits. -/
theorem exactOrRefused_iff {σ : Type} (view : σ → Database) {x : EStateM Stop σ Unit} {s : σ}
    (hr : BalancesInRange (view s))
    (hok : ∀ db', adjustBalance name delta (view s) = .ok () db' →
      ∃ t, x s = .ok () t ∧ view t = db')
    (herror : ∀ e db', adjustBalance name delta (view s) = .error e db' →
      ∃ t, x s = .error e t ∧ view t = db') :
    ExactOrRefused view x s name delta ↔ Fits (view s) name delta := by
  constructor
  · intro h
    refine fits_of_defined hr fun db' hu => ?_
    obtain ⟨t, hx, -⟩ := herror _ _ hu
    exact not_exactOrRefused hx h
  · intro hfits
    cases adjustBalance_of_fits hr hfits with
    | inl hthrew =>
        obtain ⟨e, hrun⟩ := hthrew
        obtain ⟨t, hx, hview⟩ := herror _ _ hrun
        exact Or.inl ⟨e, t, hx, by rw [hview]⟩
    | inr hdone =>
        obtain ⟨db', hrun⟩ := hdone
        obtain ⟨t, hx, hview⟩ := hok _ hrun
        exact Or.inr ⟨t, hx, hview ▸ exactSum_of_ok hr hrun⟩

/-- In a database whose balances are in range, `adjust_balance` of the database and of
an account index over it are exact or refuse exactly when the adjustment fits. -/
theorem adjustBalance_exact_iff (hash : Bytes → UInt64) (idx : AccountIndex)
    (name : AccountName) (delta : Asset) (hrange : BalancesInRange idx.db) :
    (ExactOrRefused id (adjustBalance name delta) idx.db name delta ↔
      Fits idx.db name delta) ∧
    (ExactOrRefused AccountIndex.db (AccountIndex.adjustBalance hash name delta) idx name delta ↔
      Fits idx.db name delta) := by
  constructor
  · exact exactOrRefused_iff id hrange (fun db' h => ⟨db', h, rfl⟩)
      fun e db' h => ⟨db', h, rfl⟩
  · refine exactOrRefused_iff _ hrange (fun db' h => ?_) fun e db' h => ?_
    · obtain ⟨cache, hrun⟩ := index_adjustBalance_ok hash h
      exact ⟨_, hrun, rfl⟩
    · exact ⟨_, index_adjustBalance_error hash h, rfl⟩

/-- Alice has one HIVE and nobody else has anything. -/
def oneHive : Database :=
  { balances := (∅ : ExtTreeMap AccountName AccountBalance).insert (text "alice") ⟨1, 0⟩ }

theorem oneHive_found : oneHive.balances[text "alice"]? = some ⟨1, 0⟩ :=
  ExtTreeMap.getElem?_insert_self

theorem oneHive_inRange : BalancesInRange oneHive := by
  intro name b sym hb
  rw [oneHive, getElem?_insert_eq] at hb
  split at hb
  · cases hb
    unfold AccountBalance.field
    split <;> decide
  · simp at hb

/-- Four more HIVE fit. -/
theorem adjustBalance_exact_oneHive :
    ExactOrRefused AccountIndex.db
      (AccountIndex.adjustBalance (fun _ => 0) (text "alice") ⟨4, .hive⟩)
      ⟨oneHive, true, .new⟩ (text "alice") ⟨4, .hive⟩ := by
  refine ((adjustBalance_exact_iff (fun _ => 0) ⟨oneHive, true, .new⟩ (text "alice") ⟨4, .hive⟩
    oneHive_inRange).2).mpr fun b hb => ?_
  cases Option.some.inj (oneHive_found.symm.trans hb)
  decide

/-- `2^63 - 1` more do not, and the least `int64_t` cannot even be compared: both sums
are signed overflows. -/
theorem adjustBalance_overflows :
    BalancesInRange oneHive ∧
      ¬ ExactOrRefused id (adjustBalance (text "alice") ⟨Int64.maxValue, .hive⟩) oneHive
        (text "alice") ⟨Int64.maxValue, .hive⟩ ∧
      ¬ ExactOrRefused id (adjustBalance (text "alice") ⟨Int64.minValue, .hive⟩) oneHive
        (text "alice") ⟨Int64.minValue, .hive⟩ := by
  have hmax : adjustBalance (text "alice") ⟨Int64.maxValue, .hive⟩ oneHive =
      .error .undefined oneHive :=
    adjustBalance_error.mpr
      ⟨.overflows oneHive_found (fun h => absurd h (by decide)) (by decide), rfl⟩
  have hmin : adjustBalance (text "alice") ⟨Int64.minValue, .hive⟩ oneHive =
      .error .undefined oneHive :=
    adjustBalance_error.mpr ⟨.unnegatable oneHive_found (by decide), rfl⟩
  exact ⟨oneHive_inRange, not_exactOrRefused hmax, not_exactOrRefused hmin⟩

end HiveNative.Chain
