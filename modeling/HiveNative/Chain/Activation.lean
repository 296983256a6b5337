import HiveNative.Chain.Atomicity

/-!
# Activation of the features

Each evaluator first asks whether its feature is active on the node: the hardfork has
come, and the node does not skip the feature.  `refusal` is the answer, with the text of
the first guard that fails.

On a node where a feature is not active nothing of it ever happens: every operation of
the feature is refused with that text, and its tables stay empty through every run
(`inactive_feature_inert`).
-/

namespace HiveNative.Chain

open Std (ExtTreeMap)
open EState

variable {db db' d : Database} {part : Part} {what : String}

/-! ## What the guards say -/

/-- The hardfork that brings a feature. -/
def Part.hardfork : Part → UInt32
  | .tokens => hiveHardforkNft
  | .locks => hiveHardforkHtlc
  | .contracts => hiveHardforkContracts

/-- Why a node skips a feature, if it does. -/
def skips (cfg : NodeConfig) : Part → Option String
  | .tokens =>
      if cfg.nftSkipState then
        some (if cfg.isConsensusNode then "consensus node cannot skip NFT state"
          else "NFT state skipped on this node")
      else none
  | .locks =>
      if cfg.htlcSkipState then
        some (if cfg.isConsensusNode then "consensus node cannot skip HTLC state"
          else "HTLC state skipped on this node")
      else none
  | .contracts =>
      if cfg.contractsSkip && !cfg.isConsensusNode then some "contracts skipped" else none

/-- The text with which a node refuses the operations of a feature, if it does. -/
def refusal (cfg : NodeConfig) (part : Part) : Option String :=
  if cfg.hardfork < part.hardfork then some "hardfork not active" else skips cfg part

/-- The guard of an evaluator after that of the hardfork. -/
def requireState : Part → Eval Unit
  | .tokens => requireFullNftState
  | .locks => requireFullHtlcState
  | .contracts => requireContracts

/-- Every evaluator opens with the two guards of its feature. -/
theorem apply_guarded (op : Operation) : ∃ rest : Eval Unit, apply op = (do
    requireHardfork op.part.hardfork
    requireState op.part
    rest) := by
  cases op with
  | nftCreateCollection op => exact ⟨_, rfl⟩
  | nftMint op => exact ⟨_, rfl⟩
  | nftTransfer op => exact ⟨_, rfl⟩
  | nftApprove op => exact ⟨_, rfl⟩
  | nftSetApprovalForAll op => exact ⟨_, rfl⟩
  | nftBurn op => exact ⟨_, rfl⟩
  | htlcCreate op => exact ⟨_, rfl⟩
  | htlcRedeem op => exact ⟨_, rfl⟩
  | htlcRefund op => exact ⟨_, rfl⟩
  | contractDeploy op => exact ⟨_, rfl⟩
  | contractCall op => exact ⟨_, rfl⟩

theorem requireHardfork_error {hf : UInt32} (h : db.config.hardfork < hf) :
    requireHardfork hf db = .error (.threw (.protocolError "hardfork not active")) db :=
  throwIf_error.mpr ⟨h, rfl, rfl⟩

/-- The two checks with which a node answers for a skip: a consensus node has a text of
its own. -/
theorem skip_error {role skip : Prop} [Decidable role] [Decidable skip] (h : skip)
    (mine others : String) :
    (do Eval.throwIf (role ∧ skip) mine; Eval.throwIf skip others : Eval Unit) db =
      .error (.threw (.protocolError (if role then mine else others))) db := by
  refine bind_error.mpr ?_
  split
  · next hrole => exact .inl (throwIf_error.mpr ⟨⟨hrole, h⟩, rfl, rfl⟩)
  · next hrole =>
      exact .inr ⟨(), db, throwIf_ok.mpr ⟨fun hc => hrole hc.1, rfl⟩,
        throwIf_error.mpr ⟨h, rfl, rfl⟩⟩

theorem requireState_error (h : skips db.config part = some what) :
    requireState part db = .error (.threw (.protocolError what)) db := by
  cases part with
  | tokens =>
      simp only [skips, Option.ite_none_right_eq_some, Option.some.injEq] at h
      obtain ⟨hskip, rfl⟩ := h
      exact skip_error hskip _ _
  | locks =>
      simp only [skips, Option.ite_none_right_eq_some, Option.some.injEq] at h
      obtain ⟨hskip, rfl⟩ := h
      exact skip_error hskip _ _
  | contracts =>
      simp only [skips, Option.ite_none_right_eq_some, Option.some.injEq, Bool.and_eq_true,
        Bool.not_eq_true'] at h
      obtain ⟨⟨hskip, hrole⟩, rfl⟩ := h
      refine bind_error.mpr (.inr ⟨db, db, rfl, throwIf_error.mpr ⟨⟨hskip, ?_⟩, rfl, rfl⟩⟩)
      rw [hrole]
      exact Bool.false_ne_true

/-- The guards of a feature that is active pass. -/
theorem requireState_ok (h : skips db.config part = none) : requireState part db = .ok () db := by
  cases part with
  | tokens =>
      refine requireFullNftState_ok.mpr ⟨?_, rfl⟩
      simpa [skips] using h
  | locks =>
      refine requireFullHtlcState_ok.mpr ⟨?_, rfl⟩
      simpa [skips] using h
  | contracts =>
      refine requireContracts_ok.mpr ⟨?_, rfl⟩
      simpa [skips] using h

/-- What opens an evaluator: it ends here with the refusal, or goes on from the same
database. -/
theorem guards_bind (rest : Eval Unit) :
    (do requireHardfork part.hardfork; requireState part; rest : Eval Unit) db =
      (refusal db.config part).elim (rest db)
        (fun what => .error (.threw (.protocolError what)) db) := by
  by_cases hlt : db.config.hardfork < part.hardfork
  · rw [refusal, if_pos hlt]
    exact bind_error.mpr (.inl (requireHardfork_error hlt))
  · have hpass : requireHardfork part.hardfork db = .ok () db :=
      requireHardfork_ok.mpr ⟨UInt32.not_lt.mp hlt, rfl⟩
    rw [refusal, if_neg hlt]
    show EStateM.bind _ _ db = _
    rw [EStateM.bind, hpass]
    cases h : skips db.config part with
    | some what => exact bind_error.mpr (.inl (requireState_error h))
    | none =>
        show EStateM.bind _ _ db = _
        rw [EStateM.bind, requireState_ok h]
        rfl

/-- A feature that is not active refuses its operations, whatever they are. -/
theorem apply_refused {op : Operation} (h : refusal db.config op.part = some what) :
    apply op db = .error (.threw (.protocolError what)) db := by
  obtain ⟨rest, hrest⟩ := apply_guarded op
  rw [hrest, guards_bind, h, Option.elim_some]

/-! ## Features that are not active -/

/-- The tables of a feature are those of another database. -/
def SamePart (db db' : Database) : Part → Prop
  | .tokens => SameTokens db db'
  | .locks => db'.htlcs = db.htlcs ∧ db'.nextHtlcId = db.nextHtlcId
  | .contracts => SameContracts db db'

theorem SamePart.trans (h : SamePart db db' part) (h' : SamePart db' d part) :
    SamePart db d part := by
  cases part with
  | tokens =>
      exact ⟨h'.collections.trans h.collections, h'.collectionBySymbol.trans h.collectionBySymbol,
        h'.nfts.trans h.nfts, h'.operators.trans h.operators,
        h'.nextCollection.trans h.nextCollection, h'.nextNft.trans h.nextNft⟩
  | locks => exact ⟨h'.1.trans h.1, h'.2.trans h.2⟩
  | contracts =>
      exact ⟨h'.contracts.trans h.contracts, h'.contractStorage.trans h.contractStorage,
        h'.next.trans h.next⟩

theorem SamePart.refl (db : Database) (part : Part) : SamePart db db part := by
  cases part with
  | tokens => exact ⟨rfl, rfl, rfl, rfl, rfl, rfl⟩
  | locks => exact ⟨rfl, rfl⟩
  | contracts => exact ⟨rfl, rfl, rfl⟩

/-- An operation that succeeds leaves the other features. -/
theorem Framed.samePart {op : Operation} (h : Framed op db db')
    (hpart : op.part ≠ part) : SamePart db db' part := by
  cases part with
  | tokens => exact h.tokens hpart
  | locks =>
      obtain ⟨-, hhtlcs, hnext⟩ := h.funds hpart
      exact ⟨hhtlcs, hnext⟩
  | contracts => exact h.contracts hpart

theorem SameConsensus.samePart (h : SameConsensus db db') (part : Part) :
    SamePart db db' part := by
  cases part with
  | tokens => exact h.tokens
  | locks => exact ⟨h.funds.htlcs, h.funds.next⟩
  | contracts => exact h.contracts

/-- No step touches the tables of a feature that is not active. -/
theorem samePart_step (h : refusal db.config part = some what) (hs : HasStorage db) (s : Step) :
    SamePart db (exec s db).2 part := by
  cases event_cases db s with
  | inr hfail =>
      obtain ⟨x, -, hfail⟩ := hfail
      exact (program_error_same hs hfail).samePart part
  | inl hok =>
      obtain ⟨-, hok⟩ := hok
      cases s with
      | createAccount name hive hbd =>
          obtain ⟨-, hdb⟩ := createAccount_ok.mp hok
          show SamePart db (Machine.event exec db _).after part
          rw [hdb]
          cases part with
          | tokens => exact ⟨rfl, rfl, rfl, rfl, rfl, rfl⟩
          | locks => exact ⟨rfl, rfl⟩
          | contracts => exact ⟨rfl, rfl, rfl⟩
      | setHeadTime t =>
          cases part with
          | tokens => exact ⟨rfl, rfl, rfl, rfl, rfl, rfl⟩
          | locks => exact ⟨rfl, rfl⟩
          | contracts => exact ⟨rfl, rfl, rfl⟩
      | apply op =>
          have hok : apply op db = .ok () _ := hok
          by_cases hpart : op.part = part
          · -- a success contradicts the refusal
            rw [apply_refused (hpart.symm ▸ h)] at hok
            cases hok
          · exact (apply_frame hok).samePart hpart

/-! ## Main result -/

/-- On a node that refuses a feature the tables of the feature are empty after every run,
and each of its operations throws the same text and changes nothing. -/
theorem inactive_feature_inert (config : NodeConfig) (h : refusal config part = some what)
    (steps : List Step) :
    SamePart (.empty config) (final config steps) part ∧
      ∀ op : Operation, op.part = part →
        apply op (final config steps) =
          .error (.threw (.protocolError what)) (final config steps) := by
  have hrefused (steps : List Step) : refusal (final config steps).config part = some what :=
    (config_run config steps).symm ▸ h
  refine ⟨?_, fun op hop => apply_refused (hop.symm ▸ hrefused steps)⟩
  induction steps with
  | nil => exact SamePart.refl _ part
  | cons s steps ih =>
      exact ih.trans (samePart_step (hrefused steps) (hasStorage_run config steps) s)

/-- A witness that was told to skip the tokens. -/
def skippingConfig : NodeConfig := { nftSkipState := true }

/-- It mints nothing, whatever its operators try, and goes on with the locks. -/
def skippingRun : List Step :=
  [ .apply (.htlcCreate
      { «from» := text "alice", «to» := text "bob", amount := ⟨5, .hive⟩
        preimageHash := ⟨.sha256, List.replicate 32 0⟩, preimageSize := 32, expiration := 3600 }),
    .apply (.nftCreateCollection
      { creator := text "alice", symbol := text "ART", name := text "Art", maxSupply := 1 }),
    .createAccount (text "bob") 0 0,
    .createAccount (text "alice") 10 0 ]

theorem inactive_feature_inert_skippingRun :
    let db := final skippingConfig skippingRun
    SamePart (.empty skippingConfig) db .tokens ∧ db.htlcs.size = 1 ∧
      apply (.nftBurn { owner := text "alice", nftId := 1 }) db =
        .error (.threw (.protocolError "consensus node cannot skip NFT state")) db := by
  intro db
  have hrefused : refusal skippingConfig .tokens = some "consensus node cannot skip NFT state" := by
    decide
  obtain ⟨hsame, hop⟩ := inactive_feature_inert skippingConfig hrefused skippingRun
  exact ⟨hsame, by decide +kernel, hop _ rfl⟩

end HiveNative.Chain
