import HiveNative.Chain.Authority
import HiveNative.Chain.Settlement
import HiveNative.Chain.WellFormed

/-!
# Consent

An operation is signed by the accounts of `get_required_active_authorities`.  The
evaluators do not check the signatures; what they owe an account is that operations
signed by others take nothing from it.

Over any stretch of a run in which an account signs nothing its balances do not fall, no
lock it sent is refunded and no lock it receives is redeemed (`unsigned_funds_kept`).
Over a stretch in which nobody who may move a token signs anything the token stays as it
is, with the same accounts able to move it (`unsigned_token_kept`).
-/

namespace HiveNative.Chain

open Std (ExtTreeMap)
open EState OrderedMap

variable {db db' d : Database} {e : Event} {tr : List Event} {account : AccountName}

/-! ## Signatures -/

/-- `fee_payer` of the operation. -/
def Operation.feePayer : Operation → AccountName
  | .nftCreateCollection op => op.feePayer
  | .nftMint op => op.feePayer
  | .nftTransfer op => op.feePayer
  | .nftApprove op => op.feePayer
  | .nftSetApprovalForAll op => op.feePayer
  | .nftBurn op => op.feePayer
  | .htlcCreate op => op.feePayer
  | .htlcRedeem op => op.feePayer
  | .htlcRefund op => op.feePayer
  | .contractDeploy op => op.feePayer
  | .contractCall op => op.feePayer

/-- `get_required_active_authorities` of the operation. -/
def Operation.getRequiredActiveAuthorities : Operation → List AccountName
  | .nftCreateCollection op => op.getRequiredActiveAuthorities
  | .nftMint op => op.getRequiredActiveAuthorities
  | .nftTransfer op => op.getRequiredActiveAuthorities
  | .nftApprove op => op.getRequiredActiveAuthorities
  | .nftSetApprovalForAll op => op.getRequiredActiveAuthorities
  | .nftBurn op => op.getRequiredActiveAuthorities
  | .htlcCreate op => op.getRequiredActiveAuthorities
  | .htlcRedeem op => op.getRequiredActiveAuthorities
  | .htlcRefund op => op.getRequiredActiveAuthorities
  | .contractDeploy op => op.getRequiredActiveAuthorities
  | .contractCall op => op.getRequiredActiveAuthorities

/-- An operation needs one signature, that of the account that pays for it. -/
theorem requiredAuthorities_eq (op : Operation) :
    op.getRequiredActiveAuthorities = [op.feePayer] := by
  cases op <;> rfl

/-- The event is a successful operation that the account signed. -/
def SignedBy (e : Event) (account : AccountName) : Prop :=
  Succeeded e ∧ ∃ op, e.label = .apply op ∧ account ∈ op.getRequiredActiveAuthorities

/-- The event gives the account a new balance. -/
def Opens (e : Event) (account : AccountName) : Prop :=
  Succeeded e ∧ ∃ hive hbd, e.label = .createAccount account hive hbd

theorem signedBy_feePayer (done : Succeeded e) {op : Operation} (label : e.label = .apply op) :
    SignedBy e op.feePayer := by
  refine ⟨done, op, label, ?_⟩
  rw [requiredAuthorities_eq]
  exact List.mem_singleton_self _

/-! ## Funds -/

/-- The account has no less of either symbol. -/
def NoLess (db db' : Database) (account : AccountName) : Prop :=
  ∀ b : AccountBalance, db.balances[account]? = some b →
    ∃ b' : AccountBalance, db'.balances[account]? = some b' ∧
      ∀ sym, Named sym → (b.field sym).toInt ≤ (b'.field sym).toInt

/-- The lock has its terms, and if it was settled meanwhile then by the other party. -/
structure Withheld (account : AccountName) (h h' : HtlcObject) : Prop where
  terms : SameTerms h h'
  status : h'.status = h.status ∨
    h.status = .open ∧ (h'.status = .redeemed ∧ h.to ≠ account ∨
      h'.status = .refunded ∧ h.from ≠ account)

/-- Nothing was taken from the account. -/
structure FundsKept (db db' : Database) (account : AccountName) : Prop where
  balances : NoLess db db' account
  locks : ∀ (id : HtlcId) (h : HtlcObject), db.htlcs[id]? = some h →
    ∃ h', db'.htlcs[id]? = some h' ∧ Withheld account h h'

theorem NoLess.of_eq (h : db'.balances[account]? = db.balances[account]?) :
    NoLess db db' account := by
  intro b hb
  exact ⟨b, h.trans hb, fun _ _ => Int.le_refl _⟩

theorem NoLess.trans (h : NoLess db db' account) (h' : NoLess db' d account) :
    NoLess db d account := by
  intro b hb
  obtain ⟨b', hb', hle⟩ := h b hb
  obtain ⟨b'', hb'', hle'⟩ := h' b' hb'
  exact ⟨b'', hb'', fun sym hsym => Int.le_trans (hle sym hsym) (hle' sym hsym)⟩

theorem Withheld.refl (h : HtlcObject) : Withheld account h h := ⟨rfl, .inl rfl⟩

theorem Withheld.trans {h h' h'' : HtlcObject} (w : Withheld account h h')
    (w' : Withheld account h' h'') : Withheld account h h'' := by
  have hterms := w.terms
  have hterms' := w'.terms
  unfold SameTerms at hterms hterms'
  have hfrom : h'.from = h.from := by rw [hterms]
  have hto : h'.to = h.to := by rw [hterms]
  refine ⟨?_, ?_⟩
  · unfold SameTerms
    rw [hterms', hterms]
  · cases w'.status with
    | inl hsame =>
        rw [hsame]
        exact w.status
    | inr hsettled =>
        rw [hfrom, hto] at hsettled
        cases w.status with
        | inl hsame => exact .inr ⟨hsame.symm.trans hsettled.1, hsettled.2⟩
        | inr hearlier =>
            -- a lock settled in the first stretch is not open in the second
            have hopen := hsettled.1
            cases hearlier.2 with
            | inl hr => rw [hr.1] at hopen; cases hopen
            | inr hr => rw [hr.1] at hopen; cases hopen

theorem FundsKept.trans (h : FundsKept db db' account) (h' : FundsKept db' d account) :
    FundsKept db d account := by
  refine ⟨h.balances.trans h'.balances, fun id x hx => ?_⟩
  obtain ⟨x', hx', hw⟩ := h.locks id x hx
  obtain ⟨x'', hx'', hw'⟩ := h'.locks id x' hx'
  exact ⟨x'', hx'', hw.trans hw'⟩

/-- Nothing happened to the funds of the account. -/
theorem fundsKept_of_same (hb : db'.balances[account]? = db.balances[account]?)
    (hh : db'.htlcs = db.htlcs) : FundsKept db db' account :=
  ⟨.of_eq hb, fun id h hid => ⟨h, by rw [hh, hid], .refl h⟩⟩

/-- A credit takes nothing from anybody. -/
theorem noLess_credit {name : AccountName} {b : AccountBalance} {a : Asset}
    (hb : db.balances[name]? = some b) (hadj : Adjustable b a) (hpos : 0 < a.amount)
    (hnamed : Named a.symbol) (h : db'.balances = db.balances.insert name (b.adjusted a)) :
    NoLess db db' account := by
  by_cases hname : name = account
  · subst hname
    intro b₀ hb₀
    rw [hb] at hb₀
    cases hb₀
    refine ⟨b.adjusted a, by rw [h, ExtTreeMap.getElem?_insert_self], fun sym hsym => ?_⟩
    have hp := toInt_pos_iff.mp hpos
    rw [toInt_adjusted hadj hnamed hsym]
    unfold share
    split
    · omega
    · omega
  · exact .of_eq (by rw [h, getElem?_insert_ne hname])

/-- A lock is settled by one of its parties. -/
theorem withheld_settle {i : HtlcId} {x : HtlcObject} {st : HtlcStatus}
    (hx : db.htlcs[i]? = some x) (hopen : x.status = .open)
    (hst : st = .redeemed ∧ x.to ≠ account ∨ st = .refunded ∧ x.from ≠ account)
    (heq : db'.htlcs = db.htlcs.insert i { x with status := st }) (id : HtlcId) (h : HtlcObject)
    (hh : db.htlcs[id]? = some h) : ∃ h', db'.htlcs[id]? = some h' ∧ Withheld account h h' := by
  rw [heq, getElem?_insert_eq]
  split
  · next hi =>
      subst hi
      rw [hx] at hh
      cases hh
      exact ⟨_, rfl, rfl, .inr ⟨hopen, hst⟩⟩
  · exact ⟨h, hh, .refl h⟩

/-- A step that the account does not sign takes nothing from it. -/
theorem fundsKept_step (hlocks : LocksSound db) (hfresh : db.htlcs[db.nextHtlcId]? = none)
    (s : Step) (hsigned : ¬ SignedBy (Machine.event exec db s) account)
    (hopens : ¬ Opens (Machine.event exec db s) account) :
    FundsKept db (exec s db).2 account := by
  cases fundsMove db s with
  | idle same quiet => exact fundsKept_of_same (congrArg (·[account]?) same.balances) same.htlcs
  | @account name hive hbd done label valid balances htlcs next =>
      have hne : name ≠ account := by
        intro heq
        exact hopens ⟨done, hive, hbd, heq ▸ label⟩
      exact fundsKept_of_same
        ((congrArg (·[account]?) balances).trans (getElem?_insert_ne hne)) htlcs
  | @lock op b done label guards balances htlcs next =>
      have hne : op.from ≠ account := by
        intro heq
        exact hsigned (heq ▸ signedBy_feePayer done label)
      refine ⟨.of_eq ((congrArg (·[account]?) balances).trans (getElem?_insert_ne hne)),
        fun id h hh => ?_⟩
      have hnew : db.nextHtlcId ≠ id := by
        intro heq
        rw [heq, hh] at hfresh
        cases hfresh
      exact ⟨h, ((congrArg (·[id]?) htlcs).trans (getElem?_insert_ne hnew)).trans hh, .refl h⟩
  | @redeem op h b done label guards balances htlcs next =>
      have hwf := hlocks op.htlcId h guards.found
      have hne : h.to ≠ account := by
        intro heq
        exact hsigned (guards.dest.symm.trans heq ▸ signedBy_feePayer done label)
      refine ⟨noLess_credit guards.account guards.adjustable hwf.amount_pos hwf.symbol_named
        balances, ?_⟩
      exact withheld_settle guards.found guards.still_open (.inl ⟨rfl, hne⟩) htlcs
  | @refund op h b done label guards balances htlcs next =>
      have hwf := hlocks op.htlcId h guards.found
      have hne : h.from ≠ account := by
        intro heq
        exact hsigned (guards.source.symm.trans heq ▸ signedBy_feePayer done label)
      refine ⟨noLess_credit guards.account guards.adjustable hwf.amount_pos hwf.symbol_named
        balances, ?_⟩
      exact withheld_settle guards.found guards.still_open (.inr ⟨rfl, hne⟩) htlcs

/-- Over any stretch of a run in which an account signs nothing its balances do not fall,
the locks it sent are not refunded and the locks it receives are not redeemed. -/
theorem unsigned_funds_kept (config : NodeConfig) (past later : List Step)
    (hcounted : Counted (trace config (later ++ past)))
    (hunsigned : ∀ e ∈ Machine.trace exec (final config past) later,
      ¬ SignedBy e account ∧ ¬ Opens e account) :
    FundsKept (final config past) (final config (later ++ past)) account := by
  induction later with
  | nil => exact fundsKept_of_same rfl rfl
  | cons s later ih =>
      rw [Machine.trace_cons, List.forall_mem_cons] at hunsigned
      obtain ⟨⟨hsigned, hopens⟩, hrest⟩ := hunsigned
      have hdb : final config (later ++ past) = Machine.final exec (final config past) later :=
        Machine.final_append _ later past
      have wf := runWf_run config (later ++ past) hcounted.tail
      rw [← hdb] at hsigned hopens
      exact (ih hcounted.tail hrest).trans
        (fundsKept_step (locksSound_run config _) wf.locks.allocated.fresh s hsigned hopens)

/-- Bob redeems the lock of Alice. -/
def redeemLater : List Step :=
  [ .apply (.htlcRedeem { «to» := text "bob", htlcId := 1, preimage := text "abc" }),
    .setHeadTime 100 ]

theorem unsigned_funds_kept_redeemLater :
    FundsKept (final {} lockRun) (final {} (redeemLater ++ lockRun)) (text "alice") ∧
      ((final {} (redeemLater ++ lockRun)).htlcs[(1 : HtlcId)]?.map (·.status)) =
        some .redeemed := by
  have hcounted : Counted (trace {} (redeemLater ++ lockRun)) :=
    { nfts := by decide +kernel
      collections := by decide +kernel
      locks := by decide +kernel
      contracts := by decide +kernel }
  refine ⟨unsigned_funds_kept {} lockRun redeemLater hcounted fun e he => ?_, by decide +kernel⟩
  have hlabel := Machine.label_mem he
  simp only [redeemLater, List.mem_cons, List.not_mem_nil, or_false] at hlabel
  refine ⟨fun hsigned => ?_, fun hopens => ?_⟩
  · obtain ⟨-, op, hop, hmem⟩ := hsigned
    obtain hl | hl := hlabel
    · cases hl.symm.trans hop
      exact absurd hmem (by decide)
    · cases hl.symm.trans hop
  · obtain ⟨-, hive, hbd, hop⟩ := hopens
    obtain hl | hl := hlabel
    · cases hl.symm.trans hop
    · cases hl.symm.trans hop

/-! ## Tokens -/

/-- The token is the same, and so are the grants of its owner. -/
structure TokenKept (db db' : Database) (id : NftId) (n : NftObject) : Prop where
  token : db'.nfts[id]? = some n
  grants : ∀ (operator : AccountName) (collection : CollectionId),
    db'.grants (n.owner, operator, collection) = db.grants (n.owner, operator, collection)

variable {id : NftId} {n : NftObject}

theorem TokenKept.authorised (h : TokenKept db db' id n) :
    Authorised db' n account ↔ Authorised db n account := by
  unfold Authorised Database.isOperatorApproved
  rw [h.grants, h.grants]

theorem TokenKept.trans (h : TokenKept db db' id n) (h' : TokenKept db' d id n) :
    TokenKept db d id n :=
  ⟨h'.token, fun operator collection => (h'.grants operator collection).trans
    (h.grants operator collection)⟩

theorem tokenKept_of_same (hn : db.nfts[id]? = some n) (hnfts : db'.nfts = db.nfts)
    (hoperators : db'.operators = db.operators) : TokenKept db db' id n :=
  ⟨by rw [hnfts, hn], fun _ _ => grants_of_operators hoperators⟩

/-- Another token is written. -/
theorem tokenKept_insert {i : NftId} {m : NftObject} (hn : db.nfts[id]? = some n) (hne : i ≠ id)
    (hnfts : db'.nfts = db.nfts.insert i m) (hoperators : db'.operators = db.operators) :
    TokenKept db db' id n :=
  ⟨by rw [hnfts, getElem?_insert_ne hne, hn], fun _ _ => grants_of_operators hoperators⟩

/-- An operation on a token that is not this one. -/
theorem ne_of_token {i : NftId} {m : NftObject} (hn : db.nfts[id]? = some n)
    (hm : db.nfts[i]? = some m) (h : m ≠ n) : i ≠ id := by
  intro heq
  rw [heq, hn] at hm
  cases hm
  exact h rfl

/-- A step that nobody signs who may move the token keeps it. -/
theorem tokenKept_step (hn : db.nfts[id]? = some n) (hfresh : db.nfts[db.nextNftId]? = none)
    (s : Step)
    (h : ∀ account, Authorised db n account → ¬ SignedBy (Machine.event exec db s) account) :
    TokenKept db (exec s db).2 id n := by
  have howner : ¬ SignedBy (Machine.event exec db s) n.owner := h n.owner (.inl rfl)
  cases tokenMove db s with
  | idle same quiet => exact tokenKept_of_same hn same.nfts same.operators
  | createCollection done label _ _ collections _ nfts operators nextCollection nextNft =>
      exact tokenKept_of_same hn nfts operators
  | mint done label guards collections nfts operators nextCollection nextNft =>
      have hne : db.nextNftId ≠ id := by
        intro heq
        rw [heq, hn] at hfresh
        cases hfresh
      exact tokenKept_insert hn hne nfts operators
  | @transfer op m done label guards collections nfts operators nextCollection nextNft =>
      have hne : op.nftId ≠ id := ne_of_token hn guards.found fun heq =>
        h op.from (heq ▸ guards.authorised) (signedBy_feePayer done label)
      exact tokenKept_insert hn hne nfts operators
  | @approve op m done label guards collections nfts operators nextCollection nextNft =>
      have hne : op.nftId ≠ id := ne_of_token hn guards.found fun heq =>
        howner (heq ▸ guards.owner.symm ▸ signedBy_feePayer done label)
      exact tokenKept_insert hn hne nfts operators
  | @setOperator op done label guards collections nfts operators nextCollection nextNft =>
      refine ⟨(congrArg (·[id]?) nfts).trans hn, fun operator collection => ?_⟩
      have hkey : (n.owner, operator, collection) ≠
          (op.owner, op.operatorAccount, op.collection) := by
        intro heq
        have hsame : op.owner = n.owner := (congrArg Prod.fst heq).symm
        exact howner (hsame ▸ signedBy_feePayer done label)
      exact (grants_setOperator operators).trans (if_neg hkey)
  | @burn op m done label guards collections nfts operators nextCollection nextNft =>
      have hne : op.nftId ≠ id := ne_of_token hn guards.found fun heq =>
        howner (heq ▸ guards.owner.symm ▸ signedBy_feePayer done label)
      have herase : (exec s db).2.nfts[id]? = (db.nfts.erase op.nftId)[id]? :=
        congrArg (·[id]?) nfts
      refine ⟨?_, fun _ _ => grants_of_operators operators⟩
      rw [herase, getElem?_erase_eq, if_neg (Ne.symm hne), hn]

/-- Over any stretch of a run in which no account that may move a token signs anything,
the token stays as it is, and so does the set of those accounts. -/
theorem unsigned_token_kept (config : NodeConfig) (past later : List Step)
    (hcounted : Counted (trace config (later ++ past))) (id : NftId) (n : NftObject)
    (hn : (final config past).nfts[id]? = some n)
    (hunsigned : ∀ e ∈ Machine.trace exec (final config past) later,
      ∀ account, Authorised (final config past) n account → ¬ SignedBy e account) :
    (final config (later ++ past)).nfts[id]? = some n ∧
      ∀ account, Authorised (final config (later ++ past)) n account ↔
        Authorised (final config past) n account := by
  have hkept : TokenKept (final config past) (final config (later ++ past)) id n := by
    induction later with
    | nil => exact ⟨hn, fun _ _ => rfl⟩
    | cons s later ih =>
        rw [Machine.trace_cons, List.forall_mem_cons] at hunsigned
        obtain ⟨hsigned, hrest⟩ := hunsigned
        have hdb : final config (later ++ past) = Machine.final exec (final config past) later :=
          Machine.final_append _ later past
        rw [← hdb] at hsigned
        have wf := runWf_run config (later ++ past) hcounted.tail
        have hkept := ih hcounted.tail hrest
        exact hkept.trans (tokenKept_step hkept.token wf.counts.nfts_allocated.fresh s
          fun account hauth => hsigned account (hkept.authorised.mp hauth))
  exact ⟨hkept.token, fun account => hkept.authorised⟩

/-- The token of `approveRun`. -/
def approvedToken : NftObject :=
  { id := 1, collection := 1, tokenSerial := 1, owner := text "alice", approved := text "bob"
    metadataHash := Vector.replicate 32 0, uri := [], soulbound := false, minted := 0 }

/-- Carol cannot take the token, and Bob, whom it is approved to, does nothing. -/
def carolLater : List Step :=
  [ .apply (.nftMint { creator := text "carol", collection := 1, «to» := text "carol" }),
    .apply (.nftSetApprovalForAll
      { owner := text "carol", operatorAccount := text "alice", collection := 0 }),
    .apply (.nftTransfer { «from» := text "carol", «to» := text "carol", nftId := 1 }) ]

theorem unsigned_token_kept_carolLater :
    (final {} approveRun).nfts[(1 : NftId)]? = some approvedToken ∧
      (final {} (carolLater ++ approveRun)).nfts[(1 : NftId)]? = some approvedToken := by
  have hcounted : Counted (trace {} (carolLater ++ approveRun)) :=
    { nfts := by decide +kernel
      collections := by decide +kernel
      locks := by decide +kernel
      contracts := by decide +kernel }
  have hn : (final {} approveRun).nfts[(1 : NftId)]? = some approvedToken := by decide +kernel
  have hunsigned : ∀ e ∈ Machine.trace exec (final {} approveRun) carolLater,
      ∀ account, Authorised (final {} approveRun) approvedToken account → ¬ SignedBy e account := by
    intro e he account hauth hsigned
    have hcarol : account = text "carol" := by
      obtain ⟨-, op, hop, hmem⟩ := hsigned
      have hlabel := Machine.label_mem he
      simp only [carolLater, List.mem_cons, List.not_mem_nil, or_false] at hlabel
      obtain hl | hl | hl := hlabel
      · cases hl.symm.trans hop
        exact List.mem_singleton.mp hmem
      · cases hl.symm.trans hop
        exact List.mem_singleton.mp hmem
      · cases hl.symm.trans hop
        exact List.mem_singleton.mp hmem
    subst hcarol
    obtain ho | ha | hg := hauth
    · exact absurd ho (by decide)
    · exact absurd ha (by decide)
    · exact absurd hg (by decide +kernel)
  obtain ⟨hkept, -⟩ := unsigned_token_kept {} approveRun carolLater hcounted 1 _ hn hunsigned
  exact ⟨hn, hkept⟩

end HiveNative.Chain
