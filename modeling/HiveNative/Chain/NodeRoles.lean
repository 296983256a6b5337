import HiveNative.Chain.NodeProfiles
import HiveNative.Chain.Reframe

/-!
# Node roles

A consensus node may not skip the state of tokens or locks.  `sanitize_consensus_skips`
takes such skips away and reports whether it had to, `require_config_ok_for_role`
refuses them.

A configuration may be edited while the node runs.  Edits that go through a profile or
are sanitized leave a legal configuration after every step, whatever came before; and a
witness that is edited in such ways, and never leaves its role, runs exactly as a full
node that nobody touched (`reconfigured_witness`): the one switch that differs, the skip
of the contracts, is not looked at on a consensus node.
-/

namespace HiveNative.Chain

/-! ## Checks and corrections -/

theorem configOkForRole_iff {cfg : NodeConfig} :
    configOkForRole cfg = true ↔
      (cfg.isConsensusNode = true → cfg.nftSkipState = false ∧ cfg.htlcSkipState = false) := by
  unfold configOkForRole
  cases cfg.isConsensusNode <;> cases cfg.nftSkipState <;> cases cfg.htlcSkipState <;> simp

/-- The correction reports what the check says. -/
theorem sanitize_reports (cfg : NodeConfig) :
    (sanitizeConsensusSkips cfg).1 = configOkForRole cfg := by
  obtain ⟨nft, htlc, contracts, role, hardfork⟩ := cfg
  cases role <;> cases nft <;> cases htlc <;> rfl

/-- A corrected configuration takes no more than the illegal skips. -/
theorem sanitize_eq (cfg : NodeConfig) :
    (sanitizeConsensusSkips cfg).2 =
      if cfg.isConsensusNode then { cfg with nftSkipState := false, htlcSkipState := false }
      else cfg := by
  obtain ⟨nft, htlc, contracts, role, hardfork⟩ := cfg
  cases role <;> cases nft <;> cases htlc <;> rfl

theorem sanitize_ok (cfg : NodeConfig) :
    configOkForRole (sanitizeConsensusSkips cfg).2 = true := by
  rw [sanitize_eq, configOkForRole_iff]
  split
  · exact fun _ => ⟨rfl, rfl⟩
  · next h => exact fun hrole => absurd hrole h

/-- The configurations that are refused are those that would be corrected. -/
theorem requireConfigOkForRole_iff (cfg : NodeConfig) :
    requireConfigOkForRole cfg = .ok () ↔ sanitizeConsensusSkips cfg = (true, cfg) := by
  rw [requireConfigOkForRole, throwIf_eq_ok, not_not, ← sanitize_reports]
  constructor
  · intro h
    refine Prod.ext h ?_
    rw [sanitize_reports, configOkForRole_iff] at h
    rw [sanitize_eq]
    split
    · next hrole =>
        obtain ⟨hnft, hhtlc⟩ := h hrole
        cases cfg
        simp only at hnft hhtlc
        rw [hnft, hhtlc]
    · rfl
  · intro h
    rw [h]

theorem applyProfile_ok (cfg : NodeConfig) (p : NodeProfile) :
    configOkForRole (applyProfile cfg p) = true := by
  cases p <;> rfl

/-- A node that starts under a profile is not refused, nor one that starts under the default
profile of its build. -/
theorem presets_not_refused (p : NodeProfile) (lightNode : Bool) (cfg : NodeConfig) :
    requireConfigOkForRole (makeNodeConfig p) = .ok () ∧
      requireConfigOkForRole (applyDefaultProfile lightNode cfg) = .ok () := by
  have haccepted {cfg : NodeConfig} (h : configOkForRole cfg = true) :
      requireConfigOkForRole cfg = .ok () := by
    rw [requireConfigOkForRole, throwIf_eq_ok, not_not]
    exact h
  exact ⟨haccepted (applyProfile_ok {} p), haccepted (applyProfile_ok cfg _)⟩

/-! ## Edits of a running node -/

/-- A step of the chain, or an edit of the configuration. -/
inductive NodeStep where
  | step (s : Step)
  | profile (p : NodeProfile)
  /-- The skips are set by hand and then sanitized. -/
  | flags (nftSkipState htlcSkipState contractsSkip : Bool)
deriving Repr, DecidableEq

def NodeStep.step? : NodeStep → Option Step
  | .step s => some s
  | .profile _ => none
  | .flags _ _ _ => none

def execNode : NodeStep → Database → Option (Except Stop Unit) × Database
  | .step s, db => (some (exec s db).1, (exec s db).2)
  | .profile p, db => (none, db.withProfile p)
  | .flags nft htlc contracts, db =>
      let cfg :=
        { db.config with nftSkipState := nft, htlcSkipState := htlc, contractsSkip := contracts }
      (none, { db with config := (sanitizeConsensusSkips cfg).2 })

/-- The edits of a node that stays a witness. -/
def NodeStep.Witness : NodeStep → Prop
  | .step _ => True
  | .profile p => p = .full
  | .flags _ _ _ => True

/-- How the steps of the chain ended, newest first. -/
def nodeOutcomes (db : Database) (steps : List NodeStep) : List (Except Stop Unit) :=
  (Machine.trace execNode db steps).filterMap (·.outcome)

/-- The configuration of a witness, up to the skip it does not look at. -/
structure WitnessConfig (hardfork : UInt32) (cfg : NodeConfig) : Prop where
  role : cfg.isConsensusNode = true
  nft : cfg.nftSkipState = false
  htlc : cfg.htlcSkipState = false
  hardfork : cfg.hardfork = hardfork

theorem WitnessConfig.sameRefusal {hardfork : UInt32} {cfg cfg' : NodeConfig}
    (h : WitnessConfig hardfork cfg) (h' : WitnessConfig hardfork cfg') (s : Step) :
    s.SameRefusal cfg cfg' := by
  cases s with
  | createAccount name hive hbd => trivial
  | setHeadTime t => trivial
  | apply op =>
      have hskips (part : Part) : skips cfg part = skips cfg' part := by
        cases part with
        | tokens => simp [skips, h.nft, h'.nft]
        | locks => simp [skips, h.htlc, h'.htlc]
        | contracts => simp [skips, h.role, h'.role]
      show refusal cfg op.part = refusal cfg' op.part
      rw [refusal, refusal, h.hardfork, h'.hardfork, hskips]

/-- A step of the chain and an edit leave a legal configuration. -/
theorem configOk_step (db : Database) (s : NodeStep) (h : configOkForRole db.config = true) :
    configOkForRole (execNode s db).2.config = true := by
  cases s with
  | step s =>
      have hconfig : (exec s db).2.config = db.config := config_step db s
      exact (congrArg configOkForRole hconfig).trans h
  | profile p => exact applyProfile_ok db.config p
  | flags nft htlc contracts => exact sanitize_ok _

/-- An edit that keeps the role keeps the witness. -/
theorem witnessConfig_step {hardfork : UInt32} (db : Database) (s : NodeStep) (hs : s.Witness)
    (h : WitnessConfig hardfork db.config) : WitnessConfig hardfork (execNode s db).2.config := by
  cases s with
  | step s =>
      have hconfig : (exec s db).2.config = db.config := config_step db s
      exact hconfig.symm ▸ h
  | profile p =>
      cases hs
      exact ⟨rfl, rfl, rfl, h.hardfork⟩
  | flags nft htlc contracts =>
      have hedit := sanitize_eq { db.config with
        nftSkipState := nft
        htlcSkipState := htlc
        contractsSkip := contracts }
      rw [if_pos h.role] at hedit
      have hconfig : (execNode (.flags nft htlc contracts) db).2.config = _ := hedit
      rw [hconfig]
      exact ⟨h.role, rfl, rfl, h.hardfork⟩

/-- The node is the untouched one, reframed. -/
theorem witness_run {db : Database} {hardfork : UInt32} (hdb : WitnessConfig hardfork db.config)
    (steps : List NodeStep) (h : ∀ s ∈ steps, s.Witness) :
    ∃ cfg, WitnessConfig hardfork cfg ∧
      Machine.final execNode db steps =
        (Machine.final exec db (steps.filterMap NodeStep.step?)).reframe cfg [] ∧
      nodeOutcomes db steps = outcomes db (steps.filterMap NodeStep.step?) := by
  induction steps with
  | nil => exact ⟨db.config, hdb, rfl, rfl⟩
  | cons s steps ih =>
      obtain ⟨hs, hrest⟩ := List.forall_mem_cons.mp h
      obtain ⟨cfg, hcfg, hfinal, houtcomes⟩ := ih hrest
      have hwitness := witnessConfig_step _ s hs (hfinal.symm ▸ hcfg :
        WitnessConfig hardfork (Machine.final execNode db steps).config)
      cases s with
      | profile p =>
          refine ⟨_, hwitness, ?_, houtcomes⟩
          show (Machine.final execNode db steps).withProfile p = _
          rw [hfinal]
          rfl
      | flags nft htlc contracts =>
          refine ⟨_, hwitness, ?_, houtcomes⟩
          show ({ Machine.final execNode db steps with config := _ } : Database) = _
          rw [hfinal]
          rfl
      | step s =>
          have hplain : (Machine.final exec db (steps.filterMap NodeStep.step?)).config =
              db.config := config_final db _
          have hstep := exec_reframe (hplain.symm ▸ hcfg.sameRefusal hdb s) []
          rw [← hfinal] at hstep
          exact ⟨cfg, hcfg, congrArg Prod.snd hstep,
            congrArg₂ List.cons (congrArg Prod.fst hstep :) houtcomes⟩

/-! ## Main result -/

/-- A node that starts with a legal configuration has one after every step and every
edit.  A witness that keeps its role ends every step as a full node with the same
hardfork would, and has its database, whatever was edited in between. -/
theorem reconfigured_witness (db : Database) :
    (configOkForRole db.config = true → ∀ steps,
        configOkForRole (Machine.final execNode db steps).config = true) ∧
      (db.config.isConsensusNode = true → configOkForRole db.config = true →
        ∀ steps, (∀ s ∈ steps, NodeStep.Witness s) →
          let node := Machine.final execNode db steps
          let full := Machine.final exec (db.withProfile .full) (steps.filterMap NodeStep.step?)
          full = { node with config := applyProfile db.config .full } ∧
            nodeOutcomes db steps =
              outcomes (db.withProfile .full) (steps.filterMap NodeStep.step?)) := by
  refine ⟨fun hok steps => ?_, fun hrole hok steps hsteps => ?_⟩
  · exact Machine.invariant (fun _ db => configOkForRole db.config = true) hok
      (fun _ db s h => configOk_step db s h) steps
  · obtain ⟨hnft, hhtlc⟩ := configOkForRole_iff.mp hok hrole
    have hdb : WitnessConfig db.config.hardfork db.config := ⟨hrole, hnft, hhtlc, rfl⟩
    have hfull : WitnessConfig db.config.hardfork (applyProfile db.config .full) :=
      ⟨rfl, rfl, rfl, rfl⟩
    obtain ⟨cfg, hcfg, hfinal, houtcomes⟩ := witness_run hdb steps hsteps
    obtain ⟨hfullFinal, hfullOutcomes⟩ := run_reframe db []
      (steps.filterMap NodeStep.step?) (fun s _ => hfull.sameRefusal hdb s)
    have hstart : db.withProfile .full = db.reframe (applyProfile db.config .full) [] := rfl
    refine ⟨?_, ?_⟩
    · rw [hfinal, hstart, hfullFinal]
      rfl
    · rw [houtcomes, hstart, hfullOutcomes]

/-- A witness whose operator sets every skip between two steps. -/
def editedRun : List NodeStep :=
  [ .step (.apply (.contractDeploy
      { owner := text "alice", code := text "wasm", fuelLimit := 1000 })),
    .flags true true true,
    .step (.createAccount (text "alice") 0 0) ]

/-- It stays legal and deploys a contract as a full node does. -/
theorem reconfigured_witness_editedRun :
    let node := Machine.final execNode (.empty {}) editedRun
    configOkForRole node.config = true ∧ node.config.contractsSkip = true ∧
      nodeOutcomes (.empty {}) editedRun = [.ok (), .ok ()] ∧
      outcomes ((Database.empty {}).withProfile .full)
        (editedRun.filterMap NodeStep.step?) = [.ok (), .ok ()] := by
  intro node
  obtain ⟨hlegal, hwitness⟩ := reconfigured_witness (.empty {})
  have hsteps : ∀ s ∈ editedRun, NodeStep.Witness s := by
    simp [editedRun, NodeStep.Witness]
  obtain ⟨-, houtcomes⟩ := hwitness rfl rfl editedRun hsteps
  have hrun : nodeOutcomes (.empty {}) editedRun = [.ok (), .ok ()] := by decide +kernel
  exact ⟨hlegal rfl editedRun, by decide +kernel, hrun, houtcomes.symm.trans hrun⟩

end HiveNative.Chain
