import HiveNative.Chain.Supply

/-!
# Who may move a token

Two tables decide who may transfer a token besides its owner: the `approved`
field of the token, and the operator entries of its owner.  `AuthorityInv` ties
both to the history of the run.  The approval of a token is what the latest
mint, transfer or approval of that token left, and an operator entry is there
exactly when the latest `nft_set_approval_for_all` for its key granted it.  Last
comes what a transfer does that these tables let through: it moves the token,
except when it is sent to the account that owns it already.
-/

namespace HiveNative.Chain

open Std (ExtTreeMap)
open EState OrderedMap Machine

variable {tr : List Event} {e : Event} {db db' : Database} {id : NftId} {n : NftObject}

/-! ## History -/

/-- The token that a mint, a transfer or an approval is about. -/
def touchedToken (e : Event) : Option NftId :=
  match e.label with
  | .apply (.nftMint _) => some e.before.nextNftId
  | .apply (.nftTransfer op) => some op.nftId
  | .apply (.nftApprove op) => some op.nftId
  | _ => none

/-- The event is a successful mint, transfer or approval of the token. -/
def OnToken (id : NftId) (e : Event) : Prop := Succeeded e ∧ touchedToken e = some id

/-- Among the successful mints, transfers and approvals of the token, the latest
is an approval that names the account. -/
def ApprovedBy (tr : List Event) (id : NftId) (account : AccountName) : Prop :=
  ∃ e op, Latest (OnToken id) tr e ∧ e.label = .apply (.nftApprove op) ∧ op.approved = account

/-- The key that a `nft_set_approval_for_all` is about. -/
def touchedGrant (e : Event) : Option OperatorKey :=
  match e.label with
  | .apply (.nftSetApprovalForAll op) => some (op.owner, op.operatorAccount, op.collection)
  | _ => none

def OnGrant (key : OperatorKey) (e : Event) : Prop := Succeeded e ∧ touchedGrant e = some key

/-- The latest successful `nft_set_approval_for_all` for the key granted it. -/
def GrantedBy (tr : List Event) (key : OperatorKey) : Prop :=
  ∃ e op, Latest (OnGrant key) tr e ∧ e.label = .apply (.nftSetApprovalForAll op) ∧
    op.approved = true

/-! ## The approval of a token -/

/-- The approval of the token `n` is what the history left, and the approval the
history left was given by the present owner. -/
structure TokenWf (tr : List Event) (id : NftId) (n : NftObject) : Prop where
  approved : ∀ a, a ≠ [] → (n.approved = a ↔ ApprovedBy tr id a)
  by_owner : ∀ e op, Latest (OnToken id) tr e → e.label = .apply (.nftApprove op) →
    op.owner = n.owner

theorem TokenWf.carry (h : TokenWf tr id n) (hnot : ¬ OnToken id e) : TokenWf (e :: tr) id n := by
  refine ⟨fun a ha => ?_, fun x op hx hl => ?_⟩
  · unfold ApprovedBy
    simp only [latest_cons_of_not hnot]
    exact h.approved a ha
  · rw [latest_cons_of_not hnot] at hx
    exact h.by_owner x op hx hl

/-- A mint or a transfer leaves no approval. -/
theorem tokenWf_reset (hon : OnToken id e) (hno : ∀ op, e.label ≠ .apply (.nftApprove op))
    (hn : n.approved = []) : TokenWf (e :: tr) id n := by
  refine ⟨fun a ha => ⟨fun heq => ?_, fun hby => ?_⟩, fun x op hx hl => ?_⟩
  · rw [hn] at heq
    exact absurd heq.symm ha
  · obtain ⟨x, op, hx, hl, -⟩ := hby
    rw [(latest_cons_of hon).mp hx] at hl
    exact absurd hl (hno op)
  · rw [(latest_cons_of hon).mp hx] at hl
    exact absurd hl (hno op)

theorem tokenWf_approve {op : NftApproveOperation} (hon : OnToken id e)
    (hl : e.label = .apply (.nftApprove op)) (hn : n.approved = op.approved)
    (howner : n.owner = op.owner) : TokenWf (e :: tr) id n := by
  refine ⟨fun a ha => ⟨fun heq => ?_, fun hby => ?_⟩, fun x op' hx hl' => ?_⟩
  · exact ⟨e, op, (latest_cons_of hon).mpr rfl, hl, hn.symm.trans heq⟩
  · obtain ⟨x, op', hx, hl', hop⟩ := hby
    rw [(latest_cons_of hon).mp hx, hl] at hl'
    cases hl'
    exact hn.trans hop
  · rw [(latest_cons_of hon).mp hx, hl] at hl'
    cases hl'
    exact howner.symm

/-- An event that is not about tokens, or about another one. -/
theorem not_onToken {i : Option NftId} (hi : touchedToken e = i) (hne : i ≠ some id) :
    ¬ OnToken id e := by
  intro hon
  exact hne (hi.symm.trans hon.2)

/-- The event writes one token. -/
theorem tokenWf_insert
    (inv : ∀ (id : NftId) (n : NftObject), e.before.nfts[id]? = some n → TokenWf tr id n)
    {i : NftId} {m : NftObject} (nfts : e.after.nfts = e.before.nfts.insert i m)
    (ht : touchedToken e = some i) (hnew : TokenWf (e :: tr) i m)
    (hn : e.after.nfts[id]? = some n) : TokenWf (e :: tr) id n := by
  rw [nfts, getElem?_insert_eq] at hn
  split at hn
  · next hid =>
      subst hid
      cases hn
      exact hnew
  · next hid => exact (inv id n hn).carry (not_onToken ht fun hc => hid (Option.some.inj hc).symm)

/-- An event that only idles on the tokens is a mint, a transfer or an approval of
none of them. -/
theorem not_onToken_of_quiet (quiet : Succeeded e → e.label.isTokenOperation = false) :
    ¬ OnToken id e := by
  intro hon
  have hq := quiet hon.1
  have ht := hon.2
  unfold touchedToken at ht
  split at ht
  · next hl => rw [hl] at hq; cases hq
  · next hl => rw [hl] at hq; cases hq
  · next hl => rw [hl] at hq; cases hq
  · cases ht

theorem tokenWf_step (s : Step)
    (inv : ∀ (id : NftId) (n : NftObject), db.nfts[id]? = some n → TokenWf tr id n)
    (hn : (exec s db).2.nfts[id]? = some n) : TokenWf (Machine.event exec db s :: tr) id n := by
  cases tokenMove db s with
  | idle same quiet =>
      have hold : db.nfts[id]? = some n := (congrArg (·[id]?) same.nfts).symm.trans hn
      exact (inv id n hold).carry (not_onToken_of_quiet quiet)
  | createCollection done label _ _ collections _ nfts operators nextCollection nextNft =>
      have hold : db.nfts[id]? = some n := (congrArg (·[id]?) nfts).symm.trans hn
      have ht : touchedToken (Machine.event exec db s) = none := by rw [touchedToken, label]
      exact (inv id n hold).carry (not_onToken ht (fun hc => by cases hc))
  | setOperator done label guards collections nfts operators nextCollection nextNft =>
      have hold : db.nfts[id]? = some n := (congrArg (·[id]?) nfts).symm.trans hn
      have ht : touchedToken (Machine.event exec db s) = none := by rw [touchedToken, label]
      exact (inv id n hold).carry (not_onToken ht (fun hc => by cases hc))
  | burn done label guards collections nfts operators nextCollection nextNft =>
      have hn' := (congrArg (·[id]?) nfts).symm.trans hn
      simp only [getElem?_erase_eq] at hn'
      split at hn'
      · cases hn'
      · have ht : touchedToken (Machine.event exec db s) = none := by rw [touchedToken, label]
        exact (inv id n hn').carry (not_onToken ht (fun hc => by cases hc))
  | mint done label guards collections nfts operators nextCollection nextNft =>
      have ht : touchedToken (Machine.event exec db s) = some db.nextNftId := by
        rw [touchedToken, label]
        rfl
      refine tokenWf_insert inv nfts ht (tokenWf_reset ⟨done, ht⟩ (fun op hl => ?_) rfl) hn
      rw [label] at hl
      cases hl
  | @transfer op m done label guards collections nfts operators nextCollection nextNft =>
      have ht : touchedToken (Machine.event exec db s) = some op.nftId := by
        rw [touchedToken, label]
      refine tokenWf_insert inv nfts ht (tokenWf_reset ⟨done, ht⟩ (fun op hl => ?_) rfl) hn
      rw [label] at hl
      cases hl
  | @approve op m done label guards collections nfts operators nextCollection nextNft =>
      have ht : touchedToken (Machine.event exec db s) = some op.nftId := by
        rw [touchedToken, label]
      exact tokenWf_insert inv nfts ht (tokenWf_approve ⟨done, ht⟩ label rfl guards.owner) hn

/-! ## The operators of an owner -/

theorem grants_of_operators {key : OperatorKey} (heq : db'.operators = db.operators) :
    db'.grants key = db.grants key := by
  rw [Database.grants, heq, Database.grants]

theorem grants_setOperator {op : NftSetApprovalForAllOperation} {key : OperatorKey}
    (heq : db'.operators = setOperator db.operators op) :
    db'.grants key = if key = (op.owner, op.operatorAccount, op.collection) then op.approved
      else db.grants key := by
  unfold Database.grants
  rw [heq, setOperator]
  cases hop : op.approved with
  | true =>
      simp only [not_true_eq_false, if_false, getElem?_insert_eq]
      by_cases hkey : key = (op.owner, op.operatorAccount, op.collection)
      · rw [if_pos hkey, if_pos hkey]
      · rw [if_neg hkey, if_neg hkey]
  | false =>
      simp only [Bool.false_eq_true, not_false_eq_true, if_true, getElem?_erase_eq]
      by_cases hkey : key = (op.owner, op.operatorAccount, op.collection)
      · rw [if_pos hkey, if_pos hkey]
      · rw [if_neg hkey, if_neg hkey]

/-- An event about another key, or about none, leaves the latest grant. -/
theorem grantedBy_cons_of_not {key : OperatorKey} (hnot : ¬ OnGrant key e) :
    GrantedBy (e :: tr) key ↔ GrantedBy tr key := by
  unfold GrantedBy
  simp only [latest_cons_of_not hnot]

theorem grantedBy_cons_of {key : OperatorKey} {op : NftSetApprovalForAllOperation}
    (hon : OnGrant key e) (label : e.label = .apply (.nftSetApprovalForAll op)) :
    GrantedBy (e :: tr) key ↔ op.approved = true := by
  constructor
  · intro hby
    obtain ⟨x, op', hx, hl, happ⟩ := hby
    rw [(latest_cons_of hon).mp hx, label] at hl
    cases hl
    exact happ
  · intro happ
    exact ⟨_, op, (latest_cons_of hon).mpr rfl, label, happ⟩

theorem not_onGrant {key : OperatorKey}
    (h : Succeeded e → ∀ op, e.label ≠ .apply (.nftSetApprovalForAll op)) : ¬ OnGrant key e := by
  intro hon
  have ht := hon.2
  unfold touchedGrant at ht
  split at ht
  · next op hl => exact h hon.1 op hl
  · cases ht

theorem grants_step (s : Step) (inv : ∀ key, db.grants key = true ↔ GrantedBy tr key)
    (key : OperatorKey) :
    (exec s db).2.grants key = true ↔ GrantedBy (Machine.event exec db s :: tr) key := by
  have carry : (exec s db).2.operators = db.operators →
      (Succeeded (Machine.event exec db s) →
        ∀ op, (Machine.event exec db s).label ≠ .apply (.nftSetApprovalForAll op)) →
      ((exec s db).2.grants key = true ↔ GrantedBy (Machine.event exec db s :: tr) key) := by
    intro heq hother
    rw [grants_of_operators heq, grantedBy_cons_of_not (not_onGrant hother)]
    exact inv key
  cases tokenMove db s with
  | idle same quiet =>
      refine carry same.operators fun hs op hl => ?_
      have hq := quiet hs
      rw [hl] at hq
      cases hq
  | createCollection done label _ _ collections _ nfts operators nextCollection nextNft =>
      exact carry operators fun _ op hl => by cases label.symm.trans hl
  | mint done label guards collections nfts operators nextCollection nextNft =>
      exact carry operators fun _ op hl => by cases label.symm.trans hl
  | transfer done label guards collections nfts operators nextCollection nextNft =>
      exact carry operators fun _ op hl => by cases label.symm.trans hl
  | approve done label guards collections nfts operators nextCollection nextNft =>
      exact carry operators fun _ op hl => by cases label.symm.trans hl
  | burn done label guards collections nfts operators nextCollection nextNft =>
      exact carry operators fun _ op hl => by cases label.symm.trans hl
  | @setOperator op done label guards collections nfts operators nextCollection nextNft =>
      have ht : touchedGrant (Machine.event exec db s) =
          some (op.owner, op.operatorAccount, op.collection) := by rw [touchedGrant, label]
      have hgrants : (exec s db).2.grants key =
          if key = (op.owner, op.operatorAccount, op.collection) then op.approved
          else db.grants key := grants_setOperator operators
      rw [hgrants]
      by_cases hkey : key = (op.owner, op.operatorAccount, op.collection)
      · rw [if_pos hkey, grantedBy_cons_of ⟨done, by rw [ht, hkey]⟩ label]
      · have hnot : ¬ OnGrant key (Machine.event exec db s) := by
          intro hon
          exact hkey (Option.some.inj (ht.symm.trans hon.2)).symm
        rw [if_neg hkey, grantedBy_cons_of_not hnot]
        exact inv key

/-! ## Whole runs -/

structure AuthorityInv (tr : List Event) (db : Database) : Prop where
  tokens : ∀ (id : NftId) (n : NftObject), db.nfts[id]? = some n → TokenWf tr id n
  grants : ∀ key, db.grants key = true ↔ GrantedBy tr key

theorem authorityInv_run (config : NodeConfig) (steps : List Step) :
    AuthorityInv (trace config steps) (final config steps) := by
  refine Machine.invariant AuthorityInv ⟨fun id n hn => ?_, fun key => ?_⟩ (fun tr db s inv => ?_)
    steps
  · simp [Database.empty] at hn
  · refine ⟨fun hg => ?_, fun hg => ?_⟩
    · simp [Database.grants, Database.empty] at hg
    · obtain ⟨e, op, hl, -, -⟩ := hg
      exact (latest_nil hl).elim
  · exact ⟨fun id n hn => tokenWf_step s inv.tokens hn, grants_step s inv.grants⟩

/-- A transfer that passes every other check succeeds exactly for those who are
authorised. -/
theorem transfer_succeeds_iff {op : NftTransferOperation} (hactive : NftActive db)
    (hvalid : op.Valid) (hn : db.nfts[op.nftId]? = some n) (hfree : n.soulbound = false)
    (hto : db.accountExists op.to = true) :
    Succeeds (apply (.nftTransfer op)) db ↔ Authorised db n op.from := by
  constructor
  · intro hok
    obtain ⟨db', hok⟩ := hok
    obtain ⟨m, guards, -⟩ := applyNftTransfer_ok.mp hok
    have hfound := guards.found
    rw [hn] at hfound
    cases hfound
    exact guards.authorised
  · intro hauth
    exact ⟨_, applyNftTransfer_ok.mpr ⟨n, ⟨hactive, hvalid, hto, hn, hauth, hfree⟩, rfl⟩⟩

theorem AuthorityInv.authorised_iff (inv : AuthorityInv tr db) (hn : db.nfts[id]? = some n)
    {account : AccountName} (hne : account ≠ []) :
    Authorised db n account ↔ n.owner = account ∨ ApprovedBy tr id account ∨
      ∃ c, (c = n.collection ∨ c = 0) ∧ GrantedBy tr (n.owner, account, c) := by
  unfold Authorised Database.isOperatorApproved
  rw [(inv.tokens id n hn).approved account hne, Bool.or_eq_true, inv.grants, inv.grants]
  refine or_congr_right (or_congr_right ⟨fun hg => ?_, fun hg => ?_⟩)
  · cases hg with
    | inl hg => exact ⟨_, Or.inl rfl, hg⟩
    | inr hg => exact ⟨_, Or.inr rfl, hg⟩
  · obtain ⟨c, hc, hg⟩ := hg
    cases hc with
    | inl hc => exact Or.inl (hc ▸ hg)
    | inr hc => exact Or.inr (hc ▸ hg)

/-- The owner of a live token changes only at a successful transfer of it. -/
theorem owner_step (inv : TokensInv tr db) (s : Step) {n' : NftObject}
    (hn : db.nfts[id]? = some n) (hn' : (exec s db).2.nfts[id]? = some n')
    (hne : n'.owner ≠ n.owner) :
    Succeeded (Machine.event exec db s) ∧
      ∃ op, s = .apply (.nftTransfer op) ∧ op.nftId = id ∧ n'.owner = op.to := by
  have same : (exec s db).2.nfts[id]? = db.nfts[id]? → False := by
    intro heq
    rw [heq, hn] at hn'
    cases hn'
    exact hne rfl
  cases tokenMove db s with
  | idle same' quiet => exact (same (congrArg (·[id]?) same'.nfts)).elim
  | createCollection done label _ _ collections _ nfts operators nextCollection nextNft =>
      exact (same (congrArg (·[id]?) nfts)).elim
  | setOperator done label guards collections nfts operators nextCollection nextNft =>
      exact (same (congrArg (·[id]?) nfts)).elim
  | mint done label guards collections nfts operators nextCollection nextNft =>
      have hnext : db.nextNftId ≠ id := by
        intro heq
        have hfree := inv.nfts_allocated.fresh
        rw [heq, hn] at hfree
        cases hfree
      exact (same ((congrArg (·[id]?) nfts).trans (getElem?_insert_ne hnext))).elim
  | burn done label guards collections nfts operators nextCollection nextNft =>
      have hafter := (congrArg (·[id]?) nfts).symm.trans hn'
      simp only [getElem?_erase_eq] at hafter
      split at hafter
      · cases hafter
      · next hid =>
          exact (same ((congrArg (·[id]?) nfts).trans (getElem?_erase_ne (Ne.symm hid)))).elim
  | @approve op m done label guards collections nfts operators nextCollection nextNft =>
      have hafter := (congrArg (·[id]?) nfts).symm.trans hn'
      simp only [getElem?_insert_eq] at hafter
      split at hafter
      · next hid =>
          subst hid
          cases hafter
          have hfound := guards.found
          rw [show (Machine.event exec db s).before.nfts[op.nftId]? = some n from hn] at hfound
          cases hfound
          exact absurd rfl hne
      · next hid =>
          exact (same ((congrArg (·[id]?) nfts).trans (getElem?_insert_ne (Ne.symm hid)))).elim
  | @transfer op m done label guards collections nfts operators nextCollection nextNft =>
      have hafter := (congrArg (·[id]?) nfts).symm.trans hn'
      simp only [getElem?_insert_eq] at hafter
      split at hafter
      · next hid =>
          subst hid
          cases hafter
          exact ⟨done, op, label, rfl, rfl⟩
      · next hid =>
          exact (same ((congrArg (·[id]?) nfts).trans (getElem?_insert_ne (Ne.symm hid)))).elim

/-- Transfer authority is what the history granted.  A transfer that is otherwise
in order succeeds exactly for the owner, for the account the latest operation on
the token approved, and for an operator whose latest grant by the owner stands.
The owner changes only by a transfer, so the approval that counts was given by
the present owner, and an empty `approved` field approves nobody. -/
theorem transfer_authority (config : NodeConfig) (steps : List Step)
    (hminted : Minted (trace config steps)) :
    let db := final config steps
    let tr := trace config steps
    (∀ (op : NftTransferOperation) (n : NftObject),
        hiveHardforkNft ≤ db.config.hardfork → db.config.nftSkipState = false →
        op.validate = .ok () → db.nfts[op.nftId]? = some n → n.soulbound = false →
        db.accountExists op.to = true →
        (Succeeds (apply (.nftTransfer op)) db ↔
          n.owner = op.from ∨ ApprovedBy tr op.nftId op.from ∨
            ∃ c, (c = n.collection ∨ c = 0) ∧ GrantedBy tr (n.owner, op.from, c))) ∧
      (∀ e ∈ tr, ∀ (id : NftId) (n n' : NftObject), e.before.nfts[id]? = some n →
        e.after.nfts[id]? = some n' → n'.owner ≠ n.owner →
        Succeeded e ∧ ∃ op, e.label = .apply (.nftTransfer op) ∧ op.nftId = id ∧
          n'.owner = op.to) ∧
      (∀ (id : NftId) (n : NftObject), db.nfts[id]? = some n →
        ∀ e op, Latest (OnToken id) tr e → e.label = .apply (.nftApprove op) →
          op.owner = n.owner) ∧
      ∀ (id : NftId) (n : NftObject), db.nfts[id]? = some n → n.approved = [] →
        ∀ account, ValidName account → ¬ ApprovedBy tr id account := by
  intro db tr
  have inv : AuthorityInv tr db := authorityInv_run config steps
  refine ⟨fun op n hfork hfull hv hn hfree hto => ?_, fun e he id n n' hn hn' hne => ?_,
    fun id n hn => (inv.tokens id n hn).by_owner, fun id n hn happ account haccount hby => ?_⟩
  · have hvalid := NftTransferOperation.validate_iff.mp hv
    rw [transfer_succeeds_iff ⟨hfork, hfull⟩ hvalid hn hfree hto,
      inv.authorised_iff hn hvalid.source.nonempty]
  · obtain ⟨tr', hinv, -, heq⟩ := Machine.invariant_before Minted TokensInv
      (fun _ _ => Minted.tail) (tokensInv_empty config)
      (fun _ db s hm inv => tokensInv_step db s hm inv) steps hminted he
    rw [heq] at hn' ⊢
    exact owner_step hinv e.label hn hn' hne
  · have heq := ((inv.tokens id n hn).approved account haccount.nonempty).mpr hby
    rw [happ] at heq
    exact haccount.nonempty heq.symm

/-- Alice approves Bob for her token. -/
def approveRun : List Step :=
  [ .apply (.nftApprove { owner := text "alice", nftId := 1, approved := text "bob" }),
    .apply (.nftMint { creator := text "alice", collection := 1, «to» := text "alice" }),
    .apply (.nftCreateCollection
      { creator := text "alice", symbol := text "ART", name := text "Art" }),
    .createAccount (text "carol") 0 0,
    .createAccount (text "bob") 0 0,
    .createAccount (text "alice") 0 0 ]

theorem transfer_authority_approveRun :
    ApprovedBy (trace {} approveRun) 1 (text "bob") ∧
      Succeeds (apply (.nftTransfer { «from» := text "bob", «to» := text "carol", nftId := 1 }))
        (final {} approveRun) := by
  have hminted : Minted (trace {} approveRun) := ⟨by decide +kernel, by decide +kernel⟩
  have hby : ApprovedBy (trace {} approveRun) 1 (text "bob") :=
    ⟨_, { owner := text "alice", nftId := 1, approved := text "bob" },
      (latest_cons_of ⟨by decide +kernel, rfl⟩).mpr rfl, rfl, rfl⟩
  have hsome : ((final {} approveRun).nfts[(1 : NftId)]?).map NftObject.soulbound =
      some false := by decide +kernel
  obtain ⟨n, hn, hfree⟩ := Option.map_eq_some_iff.mp hsome
  refine ⟨hby, ((transfer_authority {} approveRun hminted).1
    { «from» := text "bob", «to» := text "carol", nftId := 1 } n (by decide +kernel)
    (by decide +kernel) (by decide +kernel) hn hfree (by decide +kernel)).mpr ?_⟩
  exact Or.inr (Or.inl hby)

/-! ## Transfers that move nothing

`validate` compares the receiver with the account that submits the transfer, which
need not be the owner. -/

/-- The token has changed its owner, and the event of the transfer names the two
different owners. -/
structure MovesToken (db : Database) (op : NftTransferOperation) (db' : Database) : Prop where
  moved : ∃ n n' : NftObject, db.nfts[op.nftId]? = some n ∧ db'.nfts[op.nftId]? = some n' ∧
    n'.owner ≠ n.owner ∧
    db'.pendingVirtualOps = db.pendingVirtualOps ++ [⟨"nft_transferred",
      jsonObject [jsonNat "nft_id" n.id, jsonStr "from" n.owner, jsonStr "to" n'.owner]⟩]

/-- Somebody else than the owner sends the token to its owner. -/
def SentHome (db : Database) (op : NftTransferOperation) : Prop :=
  ∃ n : NftObject, db.nfts[op.nftId]? = some n ∧ op.from ≠ n.owner ∧ op.to = n.owner

/-- The owner is not a receiver that `validate` lets the owner name. -/
theorem sentHome_iff {op : NftTransferOperation} (hvalid : op.Valid)
    (hn : db.nfts[op.nftId]? = some n) : SentHome db op ↔ op.to = n.owner := by
  constructor
  · intro h
    obtain ⟨m, hm, -, hto⟩ := h
    rw [hn] at hm
    cases hm
    exact hto
  · intro hto
    exact ⟨n, hn, hto ▸ hvalid.not_self, hto⟩

/-- A transfer that succeeds moves the token, unless it is sent to its owner by
another account. -/
theorem transfer_moves_iff (config : NodeConfig) (steps : List Step) (op : NftTransferOperation)
    (db' : Database) (hok : apply (.nftTransfer op) (final config steps) = .ok () db') :
    MovesToken (final config steps) op db' ↔ ¬ SentHome (final config steps) op := by
  obtain ⟨n, guards, hdb⟩ := applyNftTransfer_ok.mp hok
  have hafter : db'.nfts[op.nftId]? = some { n with owner := op.to, approved := [] } := by
    rw [hdb, ExtTreeMap.getElem?_insert_self]
  rw [sentHome_iff guards.valid guards.found]
  constructor
  · intro hmoves
    obtain ⟨m, m', hm, hm', hne, -⟩ := hmoves.moved
    rw [guards.found] at hm
    rw [hafter] at hm'
    cases hm
    cases hm'
    exact hne
  · intro hne
    exact ⟨n, _, guards.found, hafter, hne, by rw [hdb]⟩

/-- Bob, whom Alice approved, sends her token to Carol. -/
theorem transfer_moves_approveRun :
    ∃ db', apply (.nftTransfer { «from» := text "bob", «to» := text "carol", nftId := 1 })
        (final {} approveRun) = .ok () db' ∧
      MovesToken (final {} approveRun)
        { «from» := text "bob", «to» := text "carol", nftId := 1 } db' := by
  have hdone : Succeeds
      (apply (.nftTransfer { «from» := text "bob", «to» := text "carol", nftId := 1 }))
      (final {} approveRun) := by decide +kernel
  obtain ⟨db', hok⟩ := hdone
  refine ⟨db', hok, (transfer_moves_iff {} approveRun _ db' hok).mpr fun hhome => ?_⟩
  have howner : ((final {} approveRun).nfts[(1 : NftId)]?).map NftObject.owner =
      some (text "alice") := by decide +kernel
  obtain ⟨n, hn, -, hto⟩ := hhome
  rw [hn] at howner
  cases (hto.trans (Option.some.inj howner) : text "carol" = text "alice")

/-- Bob sends Alice's token to Alice: a transfer from her to herself. -/
theorem transfer_sent_home :
    ∃ db', apply (.nftTransfer { «from» := text "bob", «to» := text "alice", nftId := 1 })
        (final {} approveRun) = .ok () db' ∧
      ¬ MovesToken (final {} approveRun)
        { «from» := text "bob", «to» := text "alice", nftId := 1 } db' := by
  have hdone : Succeeds
      (apply (.nftTransfer { «from» := text "bob", «to» := text "alice", nftId := 1 }))
      (final {} approveRun) := by decide +kernel
  have howner : ((final {} approveRun).nfts[(1 : NftId)]?).map NftObject.owner =
      some (text "alice") := by decide +kernel
  obtain ⟨db', hok⟩ := hdone
  refine ⟨db', hok, fun hmoves => ?_⟩
  obtain ⟨n, guards, hdb⟩ := applyNftTransfer_ok.mp hok
  obtain ⟨m, m', hm, hm', hne, -⟩ := hmoves.moved
  rw [hdb, ExtTreeMap.getElem?_insert_self] at hm'
  rw [hm] at howner
  cases hm'
  exact hne (Option.some.inj howner).symm

end HiveNative.Chain
