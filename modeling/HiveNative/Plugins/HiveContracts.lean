import HiveNative.Contracts.Results
import HiveNative.Lib.Machine

/-!
# The contracts plugin

`plugins/hive_contracts`, the façade through which a node runs contracts outside of
consensus.  It holds the options of its initialisation and a pointer to the engine.

A run of the plugin is any sequence of calls of its methods.  `inForce` reads off such a
sequence which options are in force: those of the first `init` since the last
`shutdown`.  The plugin answers as these say and in no other way, whatever was deployed
or called before, and its own results are well-formed like those of the engine
(`plugin_answers`).
-/

namespace HiveNative.HiveContracts

open Contracts

/-! ## The plugin -/

/-- The options that the methods read. -/
structure PluginOptions where
  enabled : Bool := true
  /-- When false, deployments and calls are refused. -/
  execute : Bool := true
deriving Repr, DecidableEq

/-- `contracts::engine`, by its methods. -/
structure Engine where
  name : String
  deployAndInit : Bytes → Bytes → HostLimits → CallResult
  call : Bytes → Bytes → Bytes → Storage → HostLimits → AccountName → Except Exception CallResult

/-- `default_engine`, the null engine. -/
def defaultEngine : Engine where
  name := "null"
  deployAndInit := Contracts.deployAndInit
  call := Contracts.call

structure HiveContractsPlugin where
  initialized : Bool := false
  opts : PluginOptions := {}
  /-- The null pointer is `none`. -/
  engine : Option Engine := none

namespace HiveContractsPlugin

variable (p : HiveContractsPlugin)

def init (opts : PluginOptions) : HiveContractsPlugin :=
  if p.initialized then p
  else { initialized := true, opts := opts, engine := some defaultEngine }

def shutdown (_p : HiveContractsPlugin) : HiveContractsPlugin :=
  { engine := none, initialized := false, opts := {} }

def engineName : String :=
  if ¬ p.initialized then "uninitialized"
  else
    match p.engine with
    | none => "uninitialized"
    | some engine => engine.name

def deploy (code initArgs : Bytes) (limits : HostLimits) : CallResult :=
  match p.initialized, p.engine with
  | true, some engine =>
      if ¬ p.opts.enabled ∨ ¬ p.opts.execute then { error := "plugin execution disabled" }
      else engine.deployAndInit code initArgs limits
  | _, _ => { error := "plugin not initialized" }

def call (code exportName args : Bytes) (storage : Storage) (limits : HostLimits)
    (caller : AccountName) : Except Exception CallResult :=
  match p.initialized, p.engine with
  | true, some engine =>
      if ¬ p.opts.enabled ∨ ¬ p.opts.execute then .ok { error := "plugin execution disabled" }
      else engine.call code exportName args storage limits caller
  | _, _ => .ok { error := "plugin not initialized" }

end HiveContractsPlugin

/-! ## Runs -/

/-- A call of a method. -/
inductive Request where
  | init (opts : PluginOptions)
  | shutdown
  | engineName
  | deploy (code initArgs : Bytes) (limits : HostLimits)
  | call (code exportName args : Bytes) (storage : Storage) (limits : HostLimits)
      (caller : AccountName)

inductive Answer where
  | done
  | name (s : String)
  | result (r : Except Exception CallResult)

def exec : Request → HiveContractsPlugin → Answer × HiveContractsPlugin
  | .init opts, p => (.done, p.init opts)
  | .shutdown, p => (.done, p.shutdown)
  | .engineName, p => (.name p.engineName, p)
  | .deploy code initArgs limits, p => (.result (.ok (p.deploy code initArgs limits)), p)
  | .call code exportName args storage limits caller, p =>
      (.result (p.call code exportName args storage limits caller), p)

/-! ## What a history says -/

/-- The options in force after a history, newest request first. -/
def inForce : List Request → Option PluginOptions
  | [] => none
  | .init opts :: past => some ((inForce past).getD opts)
  | .shutdown :: _ => none
  | _ :: past => inForce past

/-- The text with which the options refuse to run the engine, if they do. -/
def refusal : Option PluginOptions → Option String
  | none => some "plugin not initialized"
  | some opts =>
      if opts.enabled && opts.execute then none else some "plugin execution disabled"

/-- The answer that the options give to a request. -/
def answer (opts : Option PluginOptions) : Request → Answer
  | .init _ => .done
  | .shutdown => .done
  | .engineName => .name (if opts.isSome then defaultEngine.name else "uninitialized")
  | .deploy code initArgs limits =>
      .result (.ok ((refusal opts).elim (deployAndInit code initArgs limits)
        fun what => ({} : CallResult).fail what))
  | .call code exportName args storage limits caller =>
      .result ((refusal opts).elim (Contracts.call code exportName args storage limits caller)
        fun what => .ok (({} : CallResult).fail what))

/-- The plugin is in the state that its options describe. -/
def InState (opts : Option PluginOptions) (p : HiveContractsPlugin) : Prop :=
  p = opts.elim {} fun opts =>
    { initialized := true, opts := opts, engine := some defaultEngine }

theorem inState_exec {past : List Request} {p : HiveContractsPlugin} (h : InState (inForce past) p)
    (s : Request) : InState (inForce (s :: past)) (exec s p).2 := by
  unfold InState at h ⊢
  cases s with
  | init opts =>
      subst h
      cases hpast : inForce past with
      | none => simp only [inForce, hpast]; rfl
      | some opts' => simp only [inForce, hpast]; rfl
  | shutdown =>
      subst h
      cases hpast : inForce past with
      | none => rfl
      | some opts' => rfl
  | engineName => exact h
  | deploy code initArgs limits => exact h
  | call code exportName args storage limits caller => exact h

/-- A plugin answers as its options say. -/
theorem exec_answer {opts : Option PluginOptions} {p : HiveContractsPlugin} (h : InState opts p)
    (s : Request) : (exec s p).1 = answer opts s := by
  unfold InState at h
  subst h
  cases opts with
  | none => cases s <;> rfl
  | some opts =>
      cases s with
      | init opts' => rfl
      | shutdown => rfl
      | engineName => rfl
      | deploy code initArgs limits =>
          cases opts with
          | mk enabled execute => cases enabled <;> cases execute <;> rfl
      | call code exportName args storage limits caller =>
          cases opts with
          | mk enabled execute => cases enabled <;> cases execute <;> rfl

theorem inState_run (past : List Request) :
    InState (inForce past) (Machine.final exec {} past) := by
  induction past with
  | nil => rfl
  | cons s past ih => exact inState_exec ih s

/-! ## Results -/

/-- The limits of a request that runs the engine. -/
def Request.limits : Request → HostLimits
  | .deploy _ _ limits => limits
  | .call _ _ _ _ limits _ => limits
  | _ => {}

/-- The result of an answer, if there is one and the engine has not thrown. -/
def Answer.result? : Answer → Option CallResult
  | .result (.ok r) => some r
  | _ => none

theorem refusal_ne {opts : Option PluginOptions} {what : String} (h : refusal opts = some what) :
    what ≠ "" := by
  unfold refusal at h
  split at h
  · cases h
    decide
  · split at h
    · cases h
    · cases h
      decide

theorem answer_resultOk {opts : Option PluginOptions} {s : Request} {r : CallResult}
    (h : (answer opts s).result? = some r) : ResultOk s.limits r := by
  cases s with
  | init opts' => cases h
  | shutdown => cases h
  | engineName => cases h
  | deploy code initArgs limits =>
      cases hrefused : refusal opts with
      | none =>
          simp only [answer, hrefused, Option.elim_none, Answer.result?] at h
          cases h
          exact deployAndInit_ok code initArgs limits
      | some what =>
          simp only [answer, hrefused, Option.elim_some, Answer.result?] at h
          cases h
          exact (fresh_start limits).fail (refusal_ne hrefused)
  | call code exportName args storage limits caller =>
      cases hrefused : refusal opts with
      | none =>
          simp only [answer, hrefused, Option.elim_none] at h
          cases hrun : Contracts.call code exportName args storage limits caller with
          | error ex =>
              rw [hrun] at h
              cases h
          | ok res =>
              rw [hrun] at h
              cases h
              exact call_ok hrun
      | some what =>
          simp only [answer, hrefused, Option.elim_some, Answer.result?] at h
          cases h
          exact (fresh_start limits).fail (refusal_ne hrefused)

/-! ## Main result -/

/-- In every run of the plugin a request is answered by the options of the first `init`
since the last `shutdown`, and every result is one whose fields agree. -/
theorem plugin_answers (past : List Request) (s : Request) :
    (exec s (Machine.final exec {} past)).1 = answer (inForce past) s ∧
      ∀ r, (exec s (Machine.final exec {} past)).1.result? = some r → ResultOk s.limits r := by
  have hanswer := exec_answer (inState_run past) s
  refine ⟨hanswer, fun r hr => ?_⟩
  rw [hanswer] at hr
  exact answer_resultOk hr

/-- The plugin is initialized twice, shut down and initialized with execution off. -/
def restartRun : List Request :=
  [ .init { execute := false }, .shutdown, .deploy [0] [] { fuel := 100 },
    .init { execute := false }, .init {} ]

/-- Before the shutdown the options of the first `init` are in force, and the engine
deploys.  After it nothing is, and then those of the last `init`. -/
theorem plugin_answers_restartRun :
    (exec (.deploy [0] [] { fuel := 100 }) (Machine.final exec {} (restartRun.drop 3))).1 =
        .result (.ok (deployAndInit [0] [] { fuel := 100 })) ∧
      (exec .engineName (Machine.final exec {} (restartRun.drop 1))).1 = .name "uninitialized" ∧
      (exec (.deploy [0] [] { fuel := 100 }) (Machine.final exec {} restartRun)).1 =
        .result (.ok (({} : CallResult).fail "plugin execution disabled")) ∧
      ResultOk { fuel := 100 } (({} : CallResult).fail "plugin execution disabled") := by
  obtain ⟨hengine, -⟩ := plugin_answers (restartRun.drop 3) (.deploy [0] [] { fuel := 100 })
  obtain ⟨hname, -⟩ := plugin_answers (restartRun.drop 1) .engineName
  obtain ⟨hrefused, hok⟩ := plugin_answers restartRun (.deploy [0] [] { fuel := 100 })
  exact ⟨hengine, hname, hrefused, hok _ rfl⟩

end HiveNative.HiveContracts
