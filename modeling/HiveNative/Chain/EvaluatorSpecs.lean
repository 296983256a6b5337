import HiveNative.Chain.Evaluators

/-!
# What each evaluator does

One lemma per evaluator says exactly when it succeeds and which database it
leaves: `applyX op db = .ok u db'` is equivalent to the guards of the source and
an equation for `db'`.  Everything proved later about runs goes through these
equivalences and never unfolds an evaluator.
-/

namespace HiveNative.Chain

open Std (ExtTreeMap)
open EState OrderedMap

variable {db db' : Database} {u : Unit} {e : Stop}

/-! ## The building blocks -/

section Blocks

variable {α : Type}

theorem lift_ok {x : Except Exception α} {a : α} :
    Eval.lift x db = .ok a db' ↔ x = .ok a ∧ db = db' := by
  cases x with
  | ok v => simp [Eval.lift, pure_ok]
  | error e => simp [Eval.lift, throw_ok]

theorem lift_error {x : Except Exception α} :
    Eval.lift x db = .error e db' ↔ (∃ x', x = .error x' ∧ Stop.threw x' = e) ∧ db = db' := by
  cases x with
  | ok v => simp [Eval.lift, pure_error]
  | error e => simp [Eval.lift, throw_error]

theorem find_ok {it : Option α} {what : String} {a : α} :
    Eval.find it what db = .ok a db' ↔ it = some a ∧ db = db' := by
  cases it with
  | some v => simp [Eval.find, pure_ok]
  | none => simp [Eval.find, throw_ok]

theorem find_error {it : Option α} {what : String} :
    Eval.find it what db = .error e db' ↔
      it = none ∧ Stop.threw (.protocolError what) = e ∧ db = db' := by
  cases it with
  | some v => simp [Eval.find, pure_error]
  | none => simp [Eval.find, throw_error]

theorem throwIf_ok {c : Prop} [Decidable c] {what : String} :
    Eval.throwIf c what db = .ok u db' ↔ ¬ c ∧ db = db' := failIf_ok

theorem throwIf_bind_ok {c : Prop} [Decidable c] {what : String} {f : Unit → Eval Unit} :
    (Eval.throwIf c what >>= f) db = .ok u db' ↔ ¬ c ∧ f () db = .ok u db' := failIf_bind_ok

theorem throwIf_error {c : Prop} [Decidable c] {what : String} :
    Eval.throwIf c what db = .error e db' ↔
      c ∧ Stop.threw (.protocolError what) = e ∧ db = db' := failIf_error

theorem charge_ok {c : UInt64} :
    charge c db = .ok u db' ↔ { db with lastRcCharged := c } = db' := modify_ok

theorem pushVirtual_ok {n : String} {p : Bytes} :
    pushVirtual n p db = .ok u db' ↔
      { db with pendingVirtualOps := db.pendingVirtualOps ++ [⟨n, p⟩] } = db' := modify_ok

theorem requireHardfork_ok {hf : UInt32} :
    requireHardfork hf db = .ok u db' ↔ hf ≤ db.config.hardfork ∧ db = db' := by
  rw [requireHardfork, get_bind_ok, throwIf_ok, UInt32.not_lt]

theorem requireFullNftState_ok :
    requireFullNftState db = .ok u db' ↔ db.config.nftSkipState = false ∧ db = db' := by
  rw [requireFullNftState, get_bind_ok, throwIf_bind_ok, throwIf_ok, Bool.not_eq_true]
  exact and_iff_right_of_imp fun h hc => absurd (h.1.symm.trans hc.2) Bool.false_ne_true

theorem requireFullHtlcState_ok :
    requireFullHtlcState db = .ok u db' ↔ db.config.htlcSkipState = false ∧ db = db' := by
  rw [requireFullHtlcState, get_bind_ok, throwIf_bind_ok, throwIf_ok, Bool.not_eq_true]
  exact and_iff_right_of_imp fun h hc => absurd (h.1.symm.trans hc.2) Bool.false_ne_true

theorem requireContracts_ok :
    requireContracts db = .ok u db' ↔
      ¬ (db.config.contractsSkip ∧ ¬ db.config.isConsensusNode) ∧ db = db' := by
  rw [requireContracts, get_bind_ok, throwIf_ok]

theorem accountExists_iff {name : AccountName} :
    db.accountExists name = true ↔ ∃ b, db.balances[name]? = some b := by
  unfold Database.accountExists
  rw [ExtTreeMap.contains_iff_mem, mem_iff_exists]

end Blocks

/-! ## Balances -/

theorem toInt_neg {x : ShareType} (h : x.toInt ≠ -2 ^ 63) : (-x).toInt = -x.toInt := by
  have hlo := x.le_toInt
  have hhi := x.toInt_lt
  rw [Int64.toInt_neg]
  exact Int.bmod_eq_of_le (by omega) (by omega)

theorem toInt_add {x y : ShareType} (hlo : -2 ^ 63 ≤ x.toInt + y.toInt)
    (hhi : x.toInt + y.toInt < 2 ^ 63) : (x + y).toInt = x.toInt + y.toInt := by
  rw [Int64.toInt_add]
  exact Int.bmod_eq_of_le (by omega) (by omega)

theorem eq_minValue_iff {x : ShareType} : x = Int64.minValue ↔ x.toInt = -2 ^ 63 := by
  rw [← Int64.toInt_inj, Int64.toInt_minValue]

theorem negate_ok {x y : ShareType} :
    negate x db = .ok y db' ↔ x.toInt ≠ -2 ^ 63 ∧ -x = y ∧ db = db' := by
  unfold negate
  split
  · next h => simp only [throw_ok, ne_eq, eq_minValue_iff.mp h, not_true, false_and]
  · next h => simp only [pure_ok, ne_eq, mt eq_minValue_iff.mpr h, not_false_eq_true, true_and]

theorem negate_error {x : ShareType} :
    negate x db = .error e db' ↔ x.toInt = -2 ^ 63 ∧ Stop.undefined = e ∧ db = db' := by
  unfold negate
  split
  · next h => simp only [throw_error, eq_minValue_iff.mp h, true_and]
  · next h => simp only [pure_error, mt eq_minValue_iff.mpr h, false_and]

theorem add_ok {x y z : ShareType} :
    add x y db = .ok z db' ↔
      (-2 ^ 63 ≤ x.toInt + y.toInt ∧ x.toInt + y.toInt < 2 ^ 63) ∧ x + y = z ∧ db = db' := by
  unfold add
  split
  · next h =>
      simp only [throw_ok, false_iff, not_and]
      intro hr
      omega
  · next h =>
      have hr : -2 ^ 63 ≤ x.toInt + y.toInt ∧ x.toInt + y.toInt < 2 ^ 63 := by omega
      simp only [pure_ok, hr, and_self, true_and]

theorem add_error {x y : ShareType} :
    add x y db = .error e db' ↔
      (x.toInt + y.toInt < -2 ^ 63 ∨ 2 ^ 63 ≤ x.toInt + y.toInt) ∧ Stop.undefined = e ∧
        db = db' := by
  unfold add
  split
  · next h => simp only [throw_error, h, true_and]
  · next h => simp only [pure_error, h, false_and]

/-- A debit has a representable negation and is covered. -/
def Covered (field amount : ShareType) : Prop :=
  amount.toInt < 0 → amount.toInt ≠ -2 ^ 63 ∧ 0 ≤ field.toInt + amount.toInt

theorem requireFunds_ok {field amount : ShareType} :
    requireFunds field amount db = .ok u db' ↔ Covered field amount ∧ db = db' := by
  have hneg : amount < 0 ↔ amount.toInt < 0 := by rw [Int64.lt_iff_toInt_lt, Int64.toInt_zero]
  unfold requireFunds Covered
  split
  · next h =>
      have h' := hneg.mp h
      simp only [bind_ok, negate_ok, throwIf_ok, Int64.lt_iff_toInt_lt]
      constructor
      · rintro ⟨_, _, ⟨hm, rfl, rfl⟩, hf, rfl⟩
        rw [toInt_neg hm] at hf
        exact ⟨fun _ => ⟨hm, by omega⟩, rfl⟩
      · rintro ⟨hc, rfl⟩
        obtain ⟨hm, hf⟩ := hc h'
        refine ⟨_, _, ⟨hm, rfl, rfl⟩, ?_, rfl⟩
        rw [toInt_neg hm]
        omega
  · next h =>
      simp only [pure_ok, true_and]
      exact ⟨fun hp => ⟨fun hn => absurd (hneg.mpr hn) h, hp⟩, fun hp => hp.2⟩

theorem requireFunds_error {field amount : ShareType} :
    requireFunds field amount db = .error e db' ↔
      (amount.toInt = -2 ^ 63 ∧ Stop.undefined = e ∨
        (amount.toInt < 0 ∧ amount.toInt ≠ -2 ^ 63 ∧ field.toInt + amount.toInt < 0) ∧
          Stop.threw (.protocolError "insufficient balance") = e) ∧ db = db' := by
  have hneg : amount < 0 ↔ amount.toInt < 0 := by rw [Int64.lt_iff_toInt_lt, Int64.toInt_zero]
  unfold requireFunds
  split
  · next h =>
      have h' := hneg.mp h
      simp only [bind_error, negate_error, negate_ok, throwIf_error, Int64.lt_iff_toInt_lt]
      constructor
      · rintro (⟨hm, he, hdb⟩ | ⟨_, _, ⟨hm, rfl, rfl⟩, hf, he, hdb⟩)
        · exact ⟨Or.inl ⟨hm, he⟩, hdb⟩
        · rw [toInt_neg hm] at hf
          exact ⟨Or.inr ⟨⟨h', hm, by omega⟩, he⟩, hdb⟩
      · rintro ⟨⟨hm, he⟩ | ⟨⟨-, hm, hf⟩, he⟩, rfl⟩
        · exact Or.inl ⟨hm, he, rfl⟩
        · refine Or.inr ⟨_, _, ⟨hm, rfl, rfl⟩, ?_, he, rfl⟩
          rw [toInt_neg hm]
          omega
  · next h =>
      have h' := mt hneg.mpr h
      simp only [pure_error, false_iff]
      omega

/-- The balance after an adjustment. -/
def AccountBalance.adjusted (b : AccountBalance) (delta : Asset) : AccountBalance :=
  b.setField delta.symbol (b.field delta.symbol + delta.amount)

/-- Two adjustments commute. -/
theorem adjusted_comm {b : AccountBalance} {x y : Asset} :
    (b.adjusted x).adjusted y = (b.adjusted y).adjusted x := by
  unfold AccountBalance.adjusted AccountBalance.setField AccountBalance.field
  by_cases hx : x.symbol = .hive
  · by_cases hy : y.symbol = .hive
    · simp only [hx, hy, if_true, Int64.add_assoc, Int64.add_comm x.amount y.amount]
    · simp only [hx, hy, if_true, if_false]
  · by_cases hy : y.symbol = .hive
    · simp only [hx, hy, if_true, if_false]
    · simp only [hx, hy, if_false, Int64.add_assoc, Int64.add_comm x.amount y.amount]

/-- What `adjust_balance` demands of a balance: a debit is covered and the sum is
representable. -/
structure Adjustable (b : AccountBalance) (delta : Asset) : Prop where
  covered : Covered (b.field delta.symbol) delta.amount
  fits_below : -2 ^ 63 ≤ (b.field delta.symbol).toInt + delta.amount.toInt
  fits : (b.field delta.symbol).toInt + delta.amount.toInt < 2 ^ 63

theorem adjustBalance_ok {name : AccountName} {delta : Asset} :
    adjustBalance name delta db = .ok u db' ↔
      ∃ b, db.balances[name]? = some b ∧ Adjustable b delta ∧
        db' = { db with balances := db.balances.insert name (b.adjusted delta) } := by
  have hget : ∀ b, db.balances[name]? = some b → db.balances.getD name {} = b := by
    intro b hb
    rw [ExtTreeMap.getD_eq_getD_getElem?, hb, Option.getD_some]
  simp only [adjustBalance, bind_ok, get_ok, throwIf_ok, requireFunds_ok, add_ok, modify_ok,
    not_not, accountExists_iff]
  constructor
  · rintro ⟨_, _, ⟨rfl, rfl⟩, _, _, ⟨⟨b, hb⟩, rfl⟩, _, _, ⟨hc, rfl⟩, _, _, ⟨⟨hlo, hhi⟩, rfl, rfl⟩,
      rfl⟩
    rw [hget b hb] at hc hlo hhi ⊢
    exact ⟨b, hb, ⟨hc, hlo, hhi⟩, rfl⟩
  · rintro ⟨b, hb, ⟨hc, hlo, hhi⟩, rfl⟩
    refine ⟨_, _, ⟨rfl, rfl⟩, (), _, ⟨⟨b, hb⟩, rfl⟩, ?_⟩
    rw [hget b hb]
    exact ⟨(), _, ⟨hc, rfl⟩, _, _, ⟨⟨hlo, hhi⟩, rfl, rfl⟩, rfl⟩

/-- Why an adjustment fails: there is no account, the amount of a debit has no
negation, the debit is not covered, or the sum is not representable. -/
inductive AdjustFails (db : Database) (name : AccountName) (delta : Asset) : Stop → Prop where
  | missing (absent : db.balances[name]? = none) :
      AdjustFails db name delta (.threw (.protocolError "account missing"))
  | unnegatable {b : AccountBalance} (found : db.balances[name]? = some b)
      (least : delta.amount.toInt = -2 ^ 63) : AdjustFails db name delta .undefined
  | uncovered {b : AccountBalance} (found : db.balances[name]? = some b)
      (debit : delta.amount.toInt < 0) (negatable : delta.amount.toInt ≠ -2 ^ 63)
      (short : (b.field delta.symbol).toInt + delta.amount.toInt < 0) :
      AdjustFails db name delta (.threw (.protocolError "insufficient balance"))
  | overflows {b : AccountBalance} (found : db.balances[name]? = some b)
      (covered : Covered (b.field delta.symbol) delta.amount)
      (outside : (b.field delta.symbol).toInt + delta.amount.toInt < -2 ^ 63 ∨
        2 ^ 63 ≤ (b.field delta.symbol).toInt + delta.amount.toInt) :
      AdjustFails db name delta .undefined

/-- A failed adjustment changes nothing. -/
theorem adjustBalance_error {name : AccountName} {delta : Asset} :
    adjustBalance name delta db = .error e db' ↔ AdjustFails db name delta e ∧ db = db' := by
  simp only [adjustBalance, bind_error, get_error, get_ok, throwIf_error, throwIf_ok,
    requireFunds_error, requireFunds_ok, add_error, modify_error, false_or, or_false, and_false,
    exists_false, exists_and_left, and_assoc, exists_eq_left', exists_const, not_not,
    accountExists_iff, ExtTreeMap.getD_eq_getD_getElem?]
  cases hb : db.balances[name]? with
  | none =>
      simp only [reduceCtorEq, exists_false, not_false_eq_true, true_and, false_and, or_false]
      constructor
      · rintro ⟨rfl, rfl⟩
        exact ⟨.missing hb, rfl⟩
      · rintro ⟨hf, rfl⟩
        cases hf with
        | missing => exact ⟨rfl, rfl⟩
        | unnegatable found => simp [hb] at found
        | uncovered found => simp [hb] at found
        | overflows found => simp [hb] at found
  | some b =>
      simp only [Option.some.injEq, exists_eq', not_true_eq_false, false_and, false_or, true_and,
        Option.getD_some]
      constructor
      · rintro (⟨⟨hm, rfl⟩ | ⟨hd, hn, hs, rfl⟩, rfl⟩ | ⟨hc, ho, rfl, rfl⟩)
        · exact ⟨.unnegatable hb hm, rfl⟩
        · exact ⟨.uncovered hb hd hn hs, rfl⟩
        · exact ⟨.overflows hb hc ho, rfl⟩
      · rintro ⟨hf, rfl⟩
        cases hf with
        | missing absent => simp [hb] at absent
        | unnegatable found least => exact Or.inl ⟨Or.inl ⟨least, rfl⟩, rfl⟩
        | uncovered found debit negatable short =>
            rw [hb] at found
            cases found
            exact Or.inl ⟨Or.inr ⟨debit, negatable, short, rfl⟩, rfl⟩
        | overflows found covered outside =>
            rw [hb] at found
            cases found
            exact Or.inr ⟨covered, outside, rfl, rfl⟩

/-! ## NFT evaluators -/

section Nft

/-- The guards every NFT evaluator opens with. -/
structure NftActive (db : Database) : Prop where
  hardfork : hiveHardforkNft ≤ db.config.hardfork
  full : db.config.nftSkipState = false

theorem applyNftCreateCollection_ok {op : NftCreateCollectionOperation} :
    applyNftCreateCollection op db = .ok u db' ↔
      (NftActive db ∧ op.Valid ∧ db.accountExists op.creator = true ∧
        db.collectionBySymbol.contains op.symbol = false) ∧
      db' =
        { db with
          nextCollectionId := db.nextCollectionId + 1
          collections := db.collections.insert db.nextCollectionId (newCollection db op)
          collectionBySymbol := db.collectionBySymbol.insert op.symbol db.nextCollectionId
          lastRcCharged := Rc.costNftCreateCollection op
          pendingVirtualOps := db.pendingVirtualOps ++ [⟨"nft_collection_created",
            jsonObject [jsonNat "id" db.nextCollectionId, jsonStr "symbol" op.symbol]⟩] } := by
  simp only [applyNftCreateCollection, bind_ok, get_ok, throwIf_ok, requireHardfork_ok,
    requireFullNftState_ok, lift_ok, NftCreateCollectionOperation.validate_iff, charge_ok,
    modify_ok, pushVirtual_ok, exists_and_left, exists_eq_left', exists_const, and_assoc,
    Bool.not_eq_true, Bool.not_eq_false]
  constructor
  · rintro ⟨h1, h2, h3, h4, h5, rfl⟩
    exact ⟨⟨h1, h2⟩, h3, h4, h5, rfl⟩
  · rintro ⟨⟨h1, h2⟩, h3, h4, h5, rfl⟩
    exact ⟨h1, h2, h3, h4, h5, rfl⟩

/-- The guards of a mint into the collection `col`. -/
structure Mintable (db : Database) (op : NftMintOperation) (col : NftCollectionObject) : Prop where
  active : NftActive db
  valid : op.Valid
  creator_exists : db.accountExists op.creator = true
  dest_exists : db.accountExists op.to = true
  found : db.collections[op.collection]? = some col
  creator : col.creator = op.creator
  room : col.maxSupply ≠ 0 → col.supply < col.maxSupply

theorem applyNftMint_ok {op : NftMintOperation} :
    applyNftMint op db = .ok u db' ↔
      ∃ col, Mintable db op col ∧
        db' =
          { db with
            nextNftId := db.nextNftId + 1
            nfts := db.nfts.insert db.nextNftId (newNft db op col)
            collections :=
              db.collections.insert op.collection { col with supply := col.supply + 1 }
            lastRcCharged := Rc.costNftMint op
            pendingVirtualOps := db.pendingVirtualOps ++ [⟨"nft_minted",
              jsonObject [jsonNat "nft_id" db.nextNftId, jsonStr "to" op.to]⟩] } := by
  simp only [applyNftMint, bind_ok, get_ok, throwIf_ok, find_ok, requireHardfork_ok,
    requireFullNftState_ok, lift_ok, NftMintOperation.validate_iff, charge_ok, modify_ok,
    pushVirtual_ok, exists_and_left, exists_eq_left', exists_const, and_assoc, not_or, not_and,
    Bool.not_eq_true, Bool.not_eq_false, ne_eq, not_not, ge_iff_le, UInt64.not_le]
  constructor
  · rintro ⟨h1, h2, h3, h4, h5, col, h6, h7, h8, rfl⟩
    exact ⟨col, ⟨⟨h1, h2⟩, h3, h4, h5, h6, h7, h8⟩, rfl⟩
  · rintro ⟨col, ⟨⟨h1, h2⟩, h3, h4, h5, h6, h7, h8⟩, rfl⟩
    exact ⟨h1, h2, h3, h4, h5, col, h6, h7, h8, rfl⟩

/-- Who may move a token: its owner, the account approved for it, or an operator
of its owner. -/
def Authorised (db : Database) (n : NftObject) (account : AccountName) : Prop :=
  n.owner = account ∨ n.approved = account ∨
    db.isOperatorApproved n.owner account n.collection = true

theorem authorised_iff {n : NftObject} {account : AccountName} :
    Authorised db n account ↔ ¬ (¬ n.owner = account ∧ ¬ n.approved = account ∧
      db.isOperatorApproved n.owner account n.collection = false) := by
  unfold Authorised
  rw [← Bool.not_eq_true, ← not_or, ← not_or, not_not]

/-- The guards of a transfer of the token `n`. -/
structure Transferable (db : Database) (op : NftTransferOperation) (n : NftObject) : Prop where
  active : NftActive db
  valid : op.Valid
  dest_exists : db.accountExists op.to = true
  found : db.nfts[op.nftId]? = some n
  authorised : Authorised db n op.from
  free : n.soulbound = false

theorem applyNftTransfer_ok {op : NftTransferOperation} :
    applyNftTransfer op db = .ok u db' ↔
      ∃ n, Transferable db op n ∧
        db' =
          { db with
            nfts := db.nfts.insert op.nftId { n with owner := op.to, approved := [] }
            lastRcCharged := Rc.costNftTransfer op
            pendingVirtualOps := db.pendingVirtualOps ++ [⟨"nft_transferred",
              jsonObject [jsonNat "nft_id" n.id, jsonStr "from" n.owner,
                jsonStr "to" op.to]⟩] } := by
  simp only [applyNftTransfer, bind_ok, get_ok, throwIf_ok, find_ok, requireHardfork_ok,
    requireFullNftState_ok, lift_ok, NftTransferOperation.validate_iff, charge_ok, modify_ok,
    pushVirtual_ok, exists_and_left, exists_eq_left', exists_const, and_assoc,
    Bool.not_eq_true, Bool.not_eq_false, ← authorised_iff]
  constructor
  · rintro ⟨h1, h2, h3, h4, n, h5, h6, h7, rfl⟩
    exact ⟨n, ⟨⟨h1, h2⟩, h3, h4, h5, h6, h7⟩, rfl⟩
  · rintro ⟨n, ⟨⟨h1, h2⟩, h3, h4, h5, h6, h7⟩, rfl⟩
    exact ⟨h1, h2, h3, h4, n, h5, h6, h7, rfl⟩

/-- The guards of an approval on the token `n`. -/
structure Approvable (db : Database) (op : NftApproveOperation) (n : NftObject) : Prop where
  active : NftActive db
  valid : op.Valid
  found : db.nfts[op.nftId]? = some n
  owner : n.owner = op.owner
  approved_exists : op.approved ≠ [] → db.accountExists op.approved = true

theorem applyNftApprove_ok {op : NftApproveOperation} :
    applyNftApprove op db = .ok u db' ↔
      ∃ n, Approvable db op n ∧
        db' =
          { db with
            nfts := db.nfts.insert op.nftId { n with approved := op.approved }
            lastRcCharged := Rc.costNftApprove op
            pendingVirtualOps := db.pendingVirtualOps ++ [⟨"nft_approved",
              jsonObject [jsonNat "nft_id" op.nftId, jsonStr "approved" op.approved]⟩] } := by
  simp only [applyNftApprove, bind_ok, get_ok, throwIf_ok, find_ok, requireHardfork_ok,
    requireFullNftState_ok, lift_ok, NftApproveOperation.validate_iff, charge_ok, modify_ok,
    pushVirtual_ok, exists_and_left, exists_eq_left', exists_const, and_assoc, not_and,
    List.isEmpty_iff, Bool.not_eq_true, Bool.not_eq_false, not_not, ne_eq]
  constructor
  · rintro ⟨h1, h2, h3, n, h4, h5, h6, rfl⟩
    exact ⟨n, ⟨⟨h1, h2⟩, h3, h4, h5, h6⟩, rfl⟩
  · rintro ⟨n, ⟨⟨h1, h2⟩, h3, h4, h5, h6⟩, rfl⟩
    exact ⟨h1, h2, h3, n, h4, h5, h6, rfl⟩

/-- The guards of a grant or a revocation. -/
structure Settable (db : Database) (op : NftSetApprovalForAllOperation) : Prop where
  active : NftActive db
  valid : op.Valid
  owner_exists : db.accountExists op.owner = true
  operator_exists : db.accountExists op.operatorAccount = true
  collection_exists : op.collection ≠ 0 → db.collections.contains op.collection = true

theorem applyNftSetApprovalForAll_ok {op : NftSetApprovalForAllOperation} :
    applyNftSetApprovalForAll op db = .ok u db' ↔
      Settable db op ∧
        db' =
          { db with
            operators := setOperator db.operators op
            lastRcCharged := Rc.costNftSetApprovalForAll op
            pendingVirtualOps := db.pendingVirtualOps ++ [⟨"nft_approval_for_all",
              jsonObject [jsonStr "owner" op.owner, jsonStr "operator" op.operatorAccount,
                jsonNat "collection" op.collection, jsonBool "approved" op.approved]⟩] } := by
  simp only [applyNftSetApprovalForAll, bind_ok, get_ok, throwIf_ok, requireHardfork_ok,
    requireFullNftState_ok, lift_ok, NftSetApprovalForAllOperation.validate_iff, charge_ok,
    modify_ok, pushVirtual_ok, exists_and_left, exists_eq_left', exists_const, and_assoc, not_or,
    not_and, Bool.not_eq_true, Bool.not_eq_false, ne_eq]
  constructor
  · rintro ⟨h1, h2, h3, h4, h5, h6, rfl⟩
    exact ⟨⟨⟨h1, h2⟩, h3, h4, h5, h6⟩, rfl⟩
  · rintro ⟨⟨⟨h1, h2⟩, h3, h4, h5, h6⟩, rfl⟩
    exact ⟨h1, h2, h3, h4, h5, h6, rfl⟩

/-- The guards of a burn of the token `n`. -/
structure Burnable (db : Database) (op : NftBurnOperation) (n : NftObject) : Prop where
  active : NftActive db
  valid : op.Valid
  found : db.nfts[op.nftId]? = some n
  owner : n.owner = op.owner

theorem applyNftBurn_ok {op : NftBurnOperation} :
    applyNftBurn op db = .ok u db' ↔
      ∃ n, Burnable db op n ∧
        db' =
          { db with
            nfts := db.nfts.erase op.nftId
            collections := decrementSupply db.collections n.collection
            lastRcCharged := Rc.costNftBurn op
            pendingVirtualOps := db.pendingVirtualOps ++ [⟨"nft_burned",
              jsonObject [jsonNat "nft_id" op.nftId, jsonStr "owner" op.owner]⟩] } := by
  simp only [applyNftBurn, bind_ok, get_ok, throwIf_ok, find_ok, requireHardfork_ok,
    requireFullNftState_ok, lift_ok, NftBurnOperation.validate_iff, charge_ok, modify_ok,
    pushVirtual_ok, exists_and_left, exists_eq_left', exists_const, and_assoc, not_not, ne_eq]
  constructor
  · rintro ⟨h1, h2, h3, n, h4, h5, rfl⟩
    exact ⟨n, ⟨⟨h1, h2⟩, h3, h4, h5⟩, rfl⟩
  · rintro ⟨n, ⟨⟨h1, h2⟩, h3, h4, h5⟩, rfl⟩
    exact ⟨h1, h2, h3, n, h4, h5, rfl⟩

end Nft

/-! ## HTLC evaluators -/

section Htlc

/-- The guards every HTLC evaluator opens with. -/
structure HtlcActive (db : Database) : Prop where
  hardfork : hiveHardforkHtlc ≤ db.config.hardfork
  full : db.config.htlcSkipState = false

/-- The guards of a new lock on the balance `b`. -/
structure Lockable (db : Database) (op : HtlcCreateOperation) (b : AccountBalance) : Prop where
  active : HtlcActive db
  valid : op.Valid db.headTime
  dest_exists : db.accountExists op.to = true
  quota : db.openHtlcCount op.from < htlcMaxOpenPerAccount
  found : db.balances[op.from]? = some b
  covered : op.amount.amount.toInt ≤ (b.field op.amount.symbol).toInt

/-- The balance after a lock. -/
def AccountBalance.debited (b : AccountBalance) (amount : Asset) : AccountBalance :=
  b.setField amount.symbol (b.field amount.symbol + -amount.amount)

theorem adjustable_debit {b : AccountBalance} {a : Asset} (hpos : 0 < a.amount) :
    Adjustable b { amount := -a.amount, symbol := a.symbol } ↔
      a.amount.toInt ≤ (b.field a.symbol).toInt := by
  have hp : 0 < a.amount.toInt := by
    rwa [Int64.lt_iff_toInt_lt, Int64.toInt_zero] at hpos
  have hn : (-a.amount).toInt = -a.amount.toInt := toInt_neg (by omega)
  have ha := a.amount.toInt_lt
  have hb := (b.field a.symbol).toInt_lt
  constructor
  · intro h
    have hc := (h.covered (by simp only [hn]; omega)).2
    simp only [hn] at hc
    omega
  · intro h
    refine ⟨fun _ => ⟨?_, ?_⟩, ?_, ?_⟩
    all_goals simp only [hn]; omega

theorem applyHtlcCreate_ok {op : HtlcCreateOperation} :
    applyHtlcCreate op db = .ok u db' ↔
      ∃ b, Lockable db op b ∧
        db' =
          { db with
            balances := db.balances.insert op.from (b.debited op.amount)
            nextHtlcId := db.nextHtlcId + 1
            htlcs := db.htlcs.insert db.nextHtlcId (newHtlc db op)
            lastRcCharged := Rc.costHtlcCreate op
            pendingVirtualOps := db.pendingVirtualOps ++ [⟨"htlc_created",
              jsonObject [jsonNat "htlc_id" db.nextHtlcId, jsonStr "from" op.from,
                jsonStr "to" op.to]⟩] } := by
  simp only [applyHtlcCreate, bind_ok, get_ok, throwIf_ok, requireHardfork_ok,
    requireFullHtlcState_ok, lift_ok, HtlcCreateOperation.validate_iff, charge_ok, negate_ok,
    adjustBalance_ok, modify_ok, pushVirtual_ok, exists_and_left, exists_eq_left', exists_const,
    and_assoc, not_or, Bool.not_eq_true, Bool.not_eq_false, ge_iff_le, UInt32.not_le]
  constructor
  · rintro ⟨h1, h2, h3, -, h5, h6, -, _, ⟨b, h8, h9, rfl⟩, rfl⟩
    exact ⟨b, ⟨⟨h1, h2⟩, h3, h5, h6, h8, (adjustable_debit h3.amount_pos).mp h9⟩, rfl⟩
  · rintro ⟨b, ⟨⟨h1, h2⟩, h3, h5, h6, h8, h9⟩, rfl⟩
    have hp : 0 < op.amount.amount.toInt := by
      have := h3.amount_pos
      rwa [Int64.lt_iff_toInt_lt, Int64.toInt_zero] at this
    exact ⟨h1, h2, h3, accountExists_iff.mpr ⟨b, h8⟩, h5, h6, by omega, _,
      ⟨b, h8, (adjustable_debit h3.amount_pos).mpr h9, rfl⟩, rfl⟩

/-- The guards of a redeem of the lock `h` into the balance `b`. -/
structure Redeemable (db : Database) (op : HtlcRedeemOperation) (h : HtlcObject)
    (b : AccountBalance) : Prop where
  active : HtlcActive db
  valid : op.Valid
  found : db.htlcs[op.htlcId]? = some h
  still_open : h.status = HtlcStatus.open
  dest : h.to = op.to
  in_time : db.headTime < h.expiration
  size : op.preimage.length = h.preimageSize.toNat
  digest : (digestOf h.preimageHash.algo op.preimage).bytes = h.preimageHash.bytes
  account : db.balances[h.to]? = some b
  adjustable : Adjustable b h.amount

theorem applyHtlcRedeem_ok {op : HtlcRedeemOperation} :
    applyHtlcRedeem op db = .ok u db' ↔
      ∃ h b, Redeemable db op h b ∧
        db' =
          { db with
            balances := db.balances.insert h.to (b.adjusted h.amount)
            htlcs := db.htlcs.insert op.htlcId { h with status := .redeemed }
            lastRcCharged := Rc.costHtlcRedeem op
            pendingVirtualOps := db.pendingVirtualOps ++ [⟨"htlc_redeemed",
              jsonObject [jsonNat "htlc_id" h.id, jsonStr "to" h.to]⟩] } := by
  simp only [applyHtlcRedeem, bind_ok, get_ok, throwIf_ok, find_ok, requireHardfork_ok,
    requireFullHtlcState_ok, lift_ok, HtlcRedeemOperation.validate_iff, charge_ok,
    adjustBalance_ok, modify_ok, pushVirtual_ok, exists_and_left, exists_eq_left', exists_const,
    and_assoc, not_not, ne_eq, constantTimeEqual_iff, ge_iff_le, UInt32.not_le]
  constructor
  · rintro ⟨h1, h2, h3, h, h4, h5, h6, h7, h8, h9, _, ⟨b, h10, h11, rfl⟩, rfl⟩
    exact ⟨h, b, ⟨⟨h1, h2⟩, h3, h4, h5, h6, h7, h8, h9, h10, h11⟩, rfl⟩
  · rintro ⟨h, b, ⟨⟨h1, h2⟩, h3, h4, h5, h6, h7, h8, h9, h10, h11⟩, rfl⟩
    exact ⟨h1, h2, h3, h, h4, h5, h6, h7, h8, h9, _, ⟨b, h10, h11, rfl⟩, rfl⟩

/-- The guards of a refund of the lock `h` into the balance `b`. -/
structure Refundable (db : Database) (op : HtlcRefundOperation) (h : HtlcObject)
    (b : AccountBalance) : Prop where
  active : HtlcActive db
  valid : op.Valid
  found : db.htlcs[op.htlcId]? = some h
  still_open : h.status = HtlcStatus.open
  source : h.from = op.from
  expired : h.expiration ≤ db.headTime
  account : db.balances[h.from]? = some b
  adjustable : Adjustable b h.amount

theorem applyHtlcRefund_ok {op : HtlcRefundOperation} :
    applyHtlcRefund op db = .ok u db' ↔
      ∃ h b, Refundable db op h b ∧
        db' =
          { db with
            balances := db.balances.insert h.from (b.adjusted h.amount)
            htlcs := db.htlcs.insert op.htlcId { h with status := .refunded }
            lastRcCharged := Rc.costHtlcRefund op
            pendingVirtualOps := db.pendingVirtualOps ++ [⟨"htlc_refunded",
              jsonObject [jsonNat "htlc_id" h.id, jsonStr "from" h.from]⟩] } := by
  simp only [applyHtlcRefund, bind_ok, get_ok, throwIf_ok, find_ok, requireHardfork_ok,
    requireFullHtlcState_ok, lift_ok, HtlcRefundOperation.validate_iff, charge_ok,
    adjustBalance_ok, modify_ok, pushVirtual_ok, exists_and_left, exists_eq_left', exists_const,
    and_assoc, not_not, ne_eq, UInt32.not_lt]
  constructor
  · rintro ⟨h1, h2, h3, h, h4, h5, h6, h7, _, ⟨b, h8, h9, rfl⟩, rfl⟩
    exact ⟨h, b, ⟨⟨h1, h2⟩, h3, h4, h5, h6, h7, h8, h9⟩, rfl⟩
  · rintro ⟨h, b, ⟨⟨h1, h2⟩, h3, h4, h5, h6, h7, h8, h9⟩, rfl⟩
    exact ⟨h1, h2, h3, h, h4, h5, h6, h7, _, ⟨b, h8, h9, rfl⟩, rfl⟩

end Htlc

/-! ## Contract evaluators -/

section Contract

/-- The guards both contract evaluators open with. -/
structure ContractsActive (db : Database) : Prop where
  hardfork : hiveHardforkContracts ≤ db.config.hardfork
  run : ¬ (db.config.contractsSkip = true ∧ ¬ db.config.isConsensusNode = true)

/-- The guards of a deployment. -/
structure Deployable (db : Database) (op : ContractDeployOperation) : Prop where
  active : ContractsActive db
  valid : op.Valid
  owner_exists : db.accountExists op.owner = true
  paid : (Contracts.deployAndInit op.code op.initArgs { fuel := op.fuelLimit }).success = true

theorem applyContractDeploy_ok {op : ContractDeployOperation} :
    applyContractDeploy op db = .ok u db' ↔
      Deployable db op ∧
        db' =
          { db with
            nextContractId := db.nextContractId + 1
            contracts := db.contracts.insert db.nextContractId (newContract db op)
            contractStorage := db.contractStorage.insert db.nextContractId ∅
            lastRcCharged := Rc.costContractDeploy op
            pendingVirtualOps := db.pendingVirtualOps ++ [⟨"contract_deployed",
              jsonObject [jsonNat "contract_id" db.nextContractId,
                jsonStr "owner" op.owner]⟩] } := by
  simp only [applyContractDeploy, bind_ok, get_ok, throwIf_ok, requireHardfork_ok,
    requireContracts_ok, lift_ok, ContractDeployOperation.validate_iff, charge_ok, modify_ok,
    pushVirtual_ok, exists_and_left, exists_eq_left', exists_const, and_assoc, not_not]
  constructor
  · rintro ⟨h1, h2, h3, h4, h5, rfl⟩
    exact ⟨⟨⟨h1, h2⟩, h3, h4, h5⟩, rfl⟩
  · rintro ⟨⟨⟨h1, h2⟩, h3, h4, h5⟩, rfl⟩
    exact ⟨h1, h2, h3, h4, h5, rfl⟩

/-- The storage a call works on. -/
def Database.storageOf (db : Database) (id : ContractId) : Contracts.Storage :=
  db.contractStorage.getD id ∅

/-- What a call runs. -/
def runCall (db : Database) (op : ContractCallOperation) (c : ContractObject) :
    Except Exception Contracts.CallResult :=
  Contracts.call c.code op.exportName op.args (db.storageOf op.contractId)
    { fuel := op.fuelLimit } op.caller

/-- The guards of a call that reaches the engine with the contract `c`. -/
structure Callable (db : Database) (op : ContractCallOperation) (c : ContractObject) : Prop where
  active : ContractsActive db
  valid : op.Valid
  caller_exists : db.accountExists op.caller = true
  found : db.contracts[op.contractId]? = some c

theorem settleCall_ok {op : ContractCallOperation} {storage : Contracts.Storage}
    {res : Contracts.CallResult} :
    settleCall op storage res db = .ok u db' ↔
      res.success = true ∧
        db' =
          { db with
            contractStorage :=
              db.contractStorage.insert op.contractId (commitWrites storage res.storageWrites)
            lastRcCharged := Rc.costContractCall op res.fuelUsed
            pendingVirtualOps := db.pendingVirtualOps ++ [⟨"contract_called",
              contractCalledPayload op.contractId true res.fuelUsed⟩] } := by
  cases hs : res.success with
  | false =>
      simp only [settleCall, bind_ok, charge_ok, hs, Bool.false_eq_true, not_false_eq_true,
        if_true, throw_ok, and_false, exists_false, false_and]
  | true =>
      simp only [settleCall, bind_ok, charge_ok, hs, not_true_eq_false, if_false, modify_ok,
        pushVirtual_ok, exists_eq_left', exists_const, true_and]
      exact eq_comm

theorem settleCall_error {op : ContractCallOperation} {storage : Contracts.Storage}
    {res : Contracts.CallResult} (h : settleCall op storage res db = .error e db') :
    res.success = false ∧ e = .threw (.protocolError (errorOr res.error "call failed")) ∧
      db' =
        { db with
          lastRcCharged := Rc.costContractCall op res.fuelUsed
          pendingVirtualOps := db.pendingVirtualOps ++ [⟨"contract_called",
            contractCalledPayload op.contractId false res.fuelUsed⟩] } := by
  cases hs : res.success with
  | false =>
      simp only [settleCall, bind_error, hs, Bool.false_eq_true, not_false_eq_true,
        if_true, throw_error, charge, modify_error, pushVirtual, modify_ok, false_or,
        exists_and_left, exists_eq_left', exists_const] at h
      obtain ⟨rfl, rfl⟩ := h
      exact ⟨rfl, rfl, rfl⟩
  | true =>
      simp only [settleCall, bind_error, hs, not_true_eq_false, if_false, charge, modify_error,
        pushVirtual, false_or, and_false, exists_false] at h

theorem applyContractCall_ok {op : ContractCallOperation} :
    applyContractCall op db = .ok u db' ↔
      ∃ c res, Callable db op c ∧ runCall db op c = .ok res ∧ res.success = true ∧
        db' =
          { db with
            contractStorage := db.contractStorage.insert op.contractId
              (commitWrites (db.storageOf op.contractId) res.storageWrites)
            lastRcCharged := Rc.costContractCall op res.fuelUsed
            pendingVirtualOps := db.pendingVirtualOps ++ [⟨"contract_called",
              contractCalledPayload op.contractId true res.fuelUsed⟩] } := by
  simp only [applyContractCall, bind_ok, get_ok, throwIf_ok, find_ok, requireHardfork_ok,
    requireContracts_ok, lift_ok, ContractCallOperation.validate_iff, modify_ok, settleCall_ok,
    insert_insert_self, exists_and_left, exists_eq_left', exists_const, and_assoc, not_not]
  constructor
  · rintro ⟨h1, h2, h3, h4, c, h5, res, h6, h7, rfl⟩
    exact ⟨c, ⟨⟨h1, h2⟩, h3, h4, h5⟩, res, h6, h7, rfl⟩
  · rintro ⟨c, ⟨⟨h1, h2⟩, h3, h4, h5⟩, res, h6, h7, rfl⟩
    exact ⟨h1, h2, h3, h4, c, h5, res, h6, h7, rfl⟩

end Contract

end HiveNative.Chain
