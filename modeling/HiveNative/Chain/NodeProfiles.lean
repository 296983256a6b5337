import HiveNative.Chain.Run

/-!
# Node profiles

The presets of `chain/node_profiles.hpp`, and why a pruned node can be trusted on what
it keeps.

`Agree` is what a node that runs contracts and one that skips them have in common:
the funds, the tokens, the head time and the switches of the two features.  No
evaluator of a feature reads anything else, so its operations succeed on both or on
neither and keep the agreement (`apply_overlay`).  A contract operation leaves all of it,
on either node, however it ends (`agree_contract`).
-/

namespace HiveNative.Chain

open Std (ExtTreeMap)
open EState OrderedMap

variable {db db' d : Database}

/-! ## Profiles -/

inductive NodeProfile where
  | full
  | apiPruned
  | mobileLight
deriving Repr, DecidableEq

/-- `apply_profile`.  The last step takes the skips away from a consensus node once
more. -/
def applyProfile (cfg : NodeConfig) (p : NodeProfile) : NodeConfig :=
  let cfg : NodeConfig :=
    match p with
    | .full =>
        { cfg with
          isConsensusNode := true
          nftSkipState := false
          htlcSkipState := false
          contractsSkip := false }
    | .apiPruned =>
        { cfg with
          isConsensusNode := false
          nftSkipState := false
          htlcSkipState := false
          contractsSkip := true }
    | .mobileLight =>
        { cfg with
          isConsensusNode := false
          nftSkipState := true
          htlcSkipState := true
          contractsSkip := true }
  if cfg.isConsensusNode then { cfg with nftSkipState := false, htlcSkipState := false } else cfg

/-- A live database under a profile. -/
def Database.withProfile (db : Database) (p : NodeProfile) : Database :=
  { db with config := applyProfile db.config p }

/-- `make_node_config` -/
def makeNodeConfig (p : NodeProfile) : NodeConfig := applyProfile {} p

/-- `default_profile` of a build with or without `HIVE_LIGHT_NODE`. -/
def defaultProfile (lightNode : Bool) : NodeProfile := if lightNode then .mobileLight else .full

/-- `apply_default_profile` -/
def applyDefaultProfile (lightNode : Bool) (cfg : NodeConfig) : NodeConfig :=
  applyProfile cfg (defaultProfile lightNode)

/-! ## Roles -/

/-- `config_ok_for_role` -/
def configOkForRole (cfg : NodeConfig) : Bool :=
  if cfg.isConsensusNode && (cfg.nftSkipState || cfg.htlcSkipState) then false else true

/-- `sanitize_consensus_skips`, with the corrected configuration. -/
def sanitizeConsensusSkips (cfg : NodeConfig) : Bool × NodeConfig :=
  if !cfg.isConsensusNode then (true, cfg)
  else
    let (ok, cfg) :=
      if cfg.nftSkipState then (false, { cfg with nftSkipState := false }) else (true, cfg)
    if cfg.htlcSkipState then (false, { cfg with htlcSkipState := false }) else (ok, cfg)

/-- `require_config_ok_for_role` -/
def requireConfigOkForRole (cfg : NodeConfig) : Except Exception Unit :=
  throwIf (¬ configOkForRole cfg) "consensus node cannot skip NFT/HTLC state"

/-! ## Agreement -/

/-- The switches of the two features are the same. -/
structure SameFeatures (cfg cfg' : NodeConfig) : Prop where
  hardfork : cfg'.hardfork = cfg.hardfork
  nftSkip : cfg'.nftSkipState = cfg.nftSkipState
  htlcSkip : cfg'.htlcSkipState = cfg.htlcSkipState

/-- The databases are the same but for the contracts and what depends on them. -/
structure Agree (db db' : Database) : Prop where
  funds : SameFunds db db'
  tokens : SameTokens db db'
  headTime : db'.headTime = db.headTime
  features : SameFeatures db.config db'.config

theorem Agree.symm (h : Agree db db') : Agree db' db where
  funds := ⟨h.funds.balances.symm, h.funds.htlcs.symm, h.funds.next.symm⟩
  tokens :=
    { collections := h.tokens.collections.symm
      collectionBySymbol := h.tokens.collectionBySymbol.symm
      nfts := h.tokens.nfts.symm
      operators := h.tokens.operators.symm
      nextCollection := h.tokens.nextCollection.symm
      nextNft := h.tokens.nextNft.symm }
  headTime := h.headTime.symm
  features := ⟨h.features.hardfork.symm, h.features.nftSkip.symm, h.features.htlcSkip.symm⟩

theorem Agree.trans (h : Agree db db') (h' : Agree db' d) : Agree db d where
  funds :=
    ⟨h'.funds.balances.trans h.funds.balances, h'.funds.htlcs.trans h.funds.htlcs,
      h'.funds.next.trans h.funds.next⟩
  tokens :=
    { collections := h'.tokens.collections.trans h.tokens.collections
      collectionBySymbol := h'.tokens.collectionBySymbol.trans h.tokens.collectionBySymbol
      nfts := h'.tokens.nfts.trans h.tokens.nfts
      operators := h'.tokens.operators.trans h.tokens.operators
      nextCollection := h'.tokens.nextCollection.trans h.tokens.nextCollection
      nextNft := h'.tokens.nextNft.trans h.tokens.nextNft }
  headTime := h'.headTime.trans h.headTime
  features :=
    ⟨h'.features.hardfork.trans h.features.hardfork, h'.features.nftSkip.trans h.features.nftSkip,
      h'.features.htlcSkip.trans h.features.htlcSkip⟩

/-- The database with the configuration, the contracts and the log of another. -/
def Database.overlay (db x : Database) : Database :=
  { db with
    config := x.config
    nextContractId := x.nextContractId
    contracts := x.contracts
    contractStorage := x.contractStorage
    pendingVirtualOps := x.pendingVirtualOps
    lastRcCharged := x.lastRcCharged }

theorem Agree.eq_overlay (h : Agree db db') : db.overlay db' = db' := by
  obtain ⟨⟨h1, h2, h3⟩, ⟨h4, h5, h6, h7, h8, h9⟩, h10, -⟩ := h
  cases db'
  cases db
  simp only at h1 h2 h3 h4 h5 h6 h7 h8 h9 h10
  subst h1 h2 h3 h4 h5 h6 h7 h8 h9 h10
  rfl

/-! ## Operations of the features -/

section Overlay

variable {x : Database}

theorem SameFeatures.nftActive (h : SameFeatures db.config x.config) (ha : NftActive db) :
    NftActive (db.overlay x) :=
  ⟨h.hardfork.symm ▸ ha.hardfork, h.nftSkip.trans ha.full⟩

theorem SameFeatures.htlcActive (h : SameFeatures db.config x.config) (ha : HtlcActive db) :
    HtlcActive (db.overlay x) :=
  ⟨h.hardfork.symm ▸ ha.hardfork, h.htlcSkip.trans ha.full⟩

/-- An operation of a feature that succeeds does so under an overlay, and does the
same. -/
theorem apply_overlay (hf : SameFeatures db.config x.config) {op : Operation}
    (hop : op.part ≠ .contracts) (hok : apply op db = .ok () d) :
    ∃ d', apply op (db.overlay x) = .ok () d' ∧ Agree d d' := by
  cases op with
  | nftCreateCollection op =>
      obtain ⟨⟨ha, hv, hc, hs⟩, rfl⟩ := applyNftCreateCollection_ok.mp hok
      exact ⟨_, applyNftCreateCollection_ok.mpr ⟨⟨hf.nftActive ha, hv, hc, hs⟩, rfl⟩,
        ⟨rfl, rfl, rfl⟩, ⟨rfl, rfl, rfl, rfl, rfl, rfl⟩, rfl, hf⟩
  | nftMint op =>
      obtain ⟨col, hg, rfl⟩ := applyNftMint_ok.mp hok
      exact ⟨_, applyNftMint_ok.mpr ⟨col, { hg with active := hf.nftActive hg.active }, rfl⟩,
        ⟨rfl, rfl, rfl⟩, ⟨rfl, rfl, rfl, rfl, rfl, rfl⟩, rfl, hf⟩
  | nftTransfer op =>
      obtain ⟨n, hg, rfl⟩ := applyNftTransfer_ok.mp hok
      exact ⟨_, applyNftTransfer_ok.mpr ⟨n, { hg with active := hf.nftActive hg.active }, rfl⟩,
        ⟨rfl, rfl, rfl⟩, ⟨rfl, rfl, rfl, rfl, rfl, rfl⟩, rfl, hf⟩
  | nftApprove op =>
      obtain ⟨n, hg, rfl⟩ := applyNftApprove_ok.mp hok
      exact ⟨_, applyNftApprove_ok.mpr ⟨n, { hg with active := hf.nftActive hg.active }, rfl⟩,
        ⟨rfl, rfl, rfl⟩, ⟨rfl, rfl, rfl, rfl, rfl, rfl⟩, rfl, hf⟩
  | nftSetApprovalForAll op =>
      obtain ⟨hg, rfl⟩ := applyNftSetApprovalForAll_ok.mp hok
      exact ⟨_, applyNftSetApprovalForAll_ok.mpr
          ⟨{ hg with active := hf.nftActive hg.active }, rfl⟩,
        ⟨rfl, rfl, rfl⟩, ⟨rfl, rfl, rfl, rfl, rfl, rfl⟩, rfl, hf⟩
  | nftBurn op =>
      obtain ⟨n, hg, rfl⟩ := applyNftBurn_ok.mp hok
      exact ⟨_, applyNftBurn_ok.mpr ⟨n, { hg with active := hf.nftActive hg.active }, rfl⟩,
        ⟨rfl, rfl, rfl⟩, ⟨rfl, rfl, rfl, rfl, rfl, rfl⟩, rfl, hf⟩
  | htlcCreate op =>
      obtain ⟨b, hg, rfl⟩ := applyHtlcCreate_ok.mp hok
      exact ⟨_, applyHtlcCreate_ok.mpr ⟨b, { hg with active := hf.htlcActive hg.active }, rfl⟩,
        ⟨rfl, rfl, rfl⟩, ⟨rfl, rfl, rfl, rfl, rfl, rfl⟩, rfl, hf⟩
  | htlcRedeem op =>
      obtain ⟨l, b, hg, rfl⟩ := applyHtlcRedeem_ok.mp hok
      exact ⟨_, applyHtlcRedeem_ok.mpr ⟨l, b, { hg with active := hf.htlcActive hg.active }, rfl⟩,
        ⟨rfl, rfl, rfl⟩, ⟨rfl, rfl, rfl, rfl, rfl, rfl⟩, rfl, hf⟩
  | htlcRefund op =>
      obtain ⟨l, b, hg, rfl⟩ := applyHtlcRefund_ok.mp hok
      exact ⟨_, applyHtlcRefund_ok.mpr ⟨l, b, { hg with active := hf.htlcActive hg.active }, rfl⟩,
        ⟨rfl, rfl, rfl⟩, ⟨rfl, rfl, rfl, rfl, rfl, rfl⟩, rfl, hf⟩
  | contractDeploy op => exact absurd rfl hop
  | contractCall op => exact absurd rfl hop

end Overlay

theorem agree_apply (h : Agree db db') {op : Operation} (hop : op.part ≠ .contracts)
    (hok : apply op db = .ok () d) : ∃ d', apply op db' = .ok () d' ∧ Agree d d' := by
  have hover := apply_overlay h.features hop hok
  rwa [h.eq_overlay] at hover

/-- So it succeeds on both of two agreeing databases or on neither. -/
theorem agree_succeeds_iff (h : Agree db db') {op : Operation} (hop : op.part ≠ .contracts) :
    Succeeds (apply op) db ↔ Succeeds (apply op) db' := by
  constructor
  · intro hs
    obtain ⟨d, hok⟩ := hs
    obtain ⟨d', hok', -⟩ := agree_apply h hop hok
    exact ⟨d', hok'⟩
  · intro hs
    obtain ⟨d, hok⟩ := hs
    obtain ⟨d', hok', -⟩ := agree_apply h.symm hop hok
    exact ⟨d', hok'⟩

/-! ## Steps -/

/-- A step that fails leaves what agrees. -/
theorem agree_error {s : Step} {x : Stop} (h : s.program db = .error x d) : Agree db d := by
  rw [program_error h]
  exact ⟨⟨rfl, rfl, rfl⟩, ⟨rfl, rfl, rfl, rfl, rfl, rfl⟩, rfl, rfl, rfl, rfl⟩

/-- A contract operation leaves what agrees, however it ends. -/
theorem agree_contract {op : Operation} (hop : op.part = .contracts) (db : Database) :
    Agree db (exec (.apply op) db).2 := by
  cases event_cases db (.apply op) with
  | inr hfail =>
      obtain ⟨x, -, hfail⟩ := hfail
      exact agree_error hfail
  | inl hok =>
      have hframe := apply_frame hok.2
      have hconfig : (exec (.apply op) db).2.config = db.config := hframe.config
      refine ⟨hframe.funds (by rw [hop]; decide), hframe.tokens (by rw [hop]; decide),
        hframe.headTime, ?_⟩
      rw [hconfig]
      exact ⟨rfl, rfl, rfl⟩

/-- A step that goes the same way on agreeing databases keeps the agreement. -/
theorem agree_exec {s : Step}
    (hgo : ∀ {db db' d : Database}, Agree db db' → s.program db = .ok () d →
      ∃ d', s.program db' = .ok () d' ∧ Agree d d')
    (h : Agree db db') : Agree (exec s db).2 (exec s db').2 := by
  cases event_cases db s with
  | inl hok =>
      obtain ⟨d', hok', hagree⟩ := hgo h hok.2
      have hexec : exec s db' = (.ok (), d') := exec_ok.mpr hok'
      rw [hexec]
      exact hagree
  | inr hfail =>
      obtain ⟨x, -, hfail⟩ := hfail
      cases event_cases db' s with
      | inl hok' =>
          obtain ⟨d, hok, -⟩ := hgo h.symm hok'.2
          rw [hfail] at hok
          cases hok
      | inr hfail' =>
          obtain ⟨x', -, hfail'⟩ := hfail'
          exact (agree_error hfail).symm.trans (h.trans (agree_error hfail'))

theorem agree_createAccount {name : AccountName} {hive hbd : ShareType} (h : Agree db db')
    (hok : createAccount name hive hbd db = .ok () d) :
    ∃ d', createAccount name hive hbd db' = .ok () d' ∧ Agree d d' := by
  obtain ⟨hv, rfl⟩ := createAccount_ok.mp hok
  refine ⟨_, createAccount_ok.mpr ⟨hv, rfl⟩, ⟨?_, h.funds.htlcs, h.funds.next⟩,
    { h.tokens with }, h.headTime, h.features⟩
  rw [h.funds.balances]

/-- Every step keeps the agreement. -/
theorem agree_step (s : Step) (h : Agree db db') : Agree (exec s db).2 (exec s db').2 := by
  cases s with
  | createAccount name hive hbd => exact agree_exec agree_createAccount h
  | setHeadTime t => exact ⟨{ h.funds with }, { h.tokens with }, rfl, h.features⟩
  | apply op =>
      by_cases hop : op.part = .contracts
      · exact (agree_contract hop db).symm.trans (h.trans (agree_contract hop db'))
      · exact agree_exec (fun h' hok => agree_apply h' hop hok) h

/-! ## Main result -/

/-- The profiles that keep both features agree. -/
theorem agree_withProfile (db : Database) :
    Agree (db.withProfile .full) (db.withProfile .apiPruned) :=
  ⟨⟨rfl, rfl, rfl⟩, ⟨rfl, rfl, rfl, rfl, rfl, rfl⟩, rfl, rfl, rfl, rfl⟩

/-- A full node and a node without contracts that start from equal databases and run
the same steps have the same funds, tokens and head time after every step, and every
operation of the two features succeeds on both or on neither. -/
theorem pruned_node_agrees (db : Database) (steps : List Step) :
    let full := Machine.final exec (db.withProfile .full) steps
    let pruned := Machine.final exec (db.withProfile .apiPruned) steps
    SameFunds full pruned ∧ SameTokens full pruned ∧ pruned.headTime = full.headTime ∧
      ∀ op : Operation, op.part ≠ .contracts →
        (Succeeds (apply op) full ↔ Succeeds (apply op) pruned) := by
  intro full pruned
  have h : Agree full pruned := by
    induction steps with
    | nil => exact agree_withProfile db
    | cons s steps ih => exact agree_step s ih
  exact ⟨h.funds, h.tokens, h.headTime, fun op hop => agree_succeeds_iff h hop⟩

/-- A contract is deployed between two operations on tokens. -/
def deployBetween : List Step :=
  [ .apply (.nftMint { creator := text "alice", collection := 1, «to» := text "alice" }),
    .apply (.contractDeploy { owner := text "alice", code := [1, 2, 3], fuelLimit := 1000 }),
    .apply (.nftCreateCollection
      { creator := text "alice", symbol := text "ART", name := text "Art" }),
    .createAccount (text "alice") 5 0 ]

/-- The full node takes the contract and the other one refuses it, and they have the same
token. -/
theorem pruned_node_agrees_deployBetween :
    let full := Machine.final exec ((Database.empty {}).withProfile .full) deployBetween
    let pruned := Machine.final exec ((Database.empty {}).withProfile .apiPruned) deployBetween
    (exec (deployBetween[1]) (Machine.final exec ((Database.empty {}).withProfile .full)
      (deployBetween.drop 2))).1 = .ok () ∧
    (exec (deployBetween[1]) (Machine.final exec ((Database.empty {}).withProfile .apiPruned)
      (deployBetween.drop 2))).1 = .error (.threw (.protocolError "contracts skipped")) ∧
    full.contracts.size = 1 ∧ pruned.contracts.size = 0 ∧
    full.nfts.size = 1 ∧ SameTokens full pruned := by
  obtain ⟨-, htokens, -⟩ := pruned_node_agrees (.empty {}) deployBetween
  exact ⟨by decide +kernel, by decide +kernel, by decide +kernel, by decide +kernel,
    by decide +kernel, htokens⟩

end HiveNative.Chain
