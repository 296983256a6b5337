import HiveNative.Chain.EventLog
import HiveNative.Chain.Reframe

/-!
# Draining the log

The virtual operations pile up in `pending_virtual_ops` until someone takes them and
calls `clear_virtual`.  Here a consumer does so at any moments of a run.

Since no step reads the log, the node runs as if nobody had drained it: the database of
the undrained run is the node's, with what the consumer holds put back in front of the
log (`drained_node_agrees`).  So the batches and what is still pending are together the
whole log, and a consumer that replays them sees the state of the chain
(`drained_replay`).
-/

namespace HiveNative.Chain

/-- A node and the consumer of its log. -/
structure DrainedNode where
  db : Database
  /-- What the consumer took so far, oldest first. -/
  collected : List VirtualOp := []

inductive DrainStep where
  | step (s : Step)
  /-- The consumer takes the pending virtual operations and clears them. -/
  | drain
deriving Repr, DecidableEq

/-- The step of the chain, if this is one. -/
def DrainStep.step? : DrainStep → Option Step
  | .step s => some s
  | .drain => none

/-- The database after `clear_virtual`. -/
def Database.cleared (db : Database) : Database :=
  match clearVirtual db with
  | .ok _ db' => db'
  | .error _ db' => db'

def execDrain : DrainStep → DrainedNode → Option (Except Stop Unit) × DrainedNode
  | .step s, node => (some (exec s node.db).1, { node with db := (exec s node.db).2 })
  | .drain, node =>
      (none,
        { db := node.db.cleared
          collected := node.collected ++ node.db.pendingVirtualOps })

/-- The node after a run. -/
abbrev drained (db : Database) (steps : List DrainStep) : DrainedNode :=
  Machine.final execDrain { db := db } steps

/-- The steps of the chain in a run. -/
def chainSteps (steps : List DrainStep) : List Step := steps.filterMap DrainStep.step?

/-- How the steps of the chain ended, newest first. -/
def drainedOutcomes (db : Database) (steps : List DrainStep) : List (Except Stop Unit) :=
  (Machine.trace execDrain { db := db } steps).filterMap (·.outcome)

/-- The database with everything the consumer took back in front of its log. -/
def DrainedNode.undrained (node : DrainedNode) : Database :=
  node.db.reframe node.db.config node.collected

theorem cleared_eq (db : Database) : db.cleared = { db with pendingVirtualOps := [] } := rfl

/-- Draining moves the pending part of the log to the consumer. -/
theorem undrained_drain (node : DrainedNode) :
    (execDrain .drain node).2.undrained = node.undrained := by
  show node.db.cleared.reframe node.db.config (node.collected ++ node.db.pendingVirtualOps) = _
  rw [cleared_eq]
  simp only [DrainedNode.undrained, Database.reframe, List.append_nil]

/-- A step goes the same way with the log put back. -/
theorem undrained_step (s : Step) (node : DrainedNode) :
    exec s node.undrained =
      ((exec s node.db).1, (execDrain (.step s) node).2.undrained) := by
  have hstep := exec_reframe (s.sameRefusal_refl node.db.config) node.collected
  have hconfig : (exec s node.db).2.config = node.db.config := config_step node.db s
  rw [DrainedNode.undrained, hstep]
  simp only [DrainedNode.undrained, execDrain, hconfig]

/-- A node that is drained at any moments runs as if it never were: every step ends the
same way, the database is the same but for the log, and what the consumer holds and what
is pending are together the log of the undrained run. -/
theorem drained_node_agrees (db : Database) (steps : List DrainStep) :
    let node := drained db steps
    let plain := Machine.final exec db (chainSteps steps)
    plain = { node.db with pendingVirtualOps := node.collected ++ node.db.pendingVirtualOps } ∧
      drainedOutcomes db steps = outcomes db (chainSteps steps) := by
  induction steps with
  | nil => exact ⟨rfl, rfl⟩
  | cons d steps ih =>
      obtain ⟨hdb, houtcomes⟩ := ih
      have hplain : Machine.final exec db (chainSteps steps) = (drained db steps).undrained := hdb
      cases d with
      | drain => exact ⟨hplain.trans (undrained_drain _).symm, houtcomes⟩
      | step s =>
          have hstep := undrained_step s (drained db steps)
          rw [← hplain] at hstep
          exact ⟨congrArg Prod.snd hstep,
            congrArg₂ List.cons (congrArg Prod.fst hstep).symm houtcomes⟩

/-- A consumer that replays what it took and then what is pending mirrors the state. -/
theorem drained_replay (config : NodeConfig) (steps : List DrainStep)
    (hcounted : Counted (trace config (chainSteps steps))) :
    let node := drained (.empty config) steps
    ∃ r, replay (node.collected ++ node.db.pendingVirtualOps) = some r ∧ Mirrors r node.db := by
  intro node
  have hdb := (drained_node_agrees (.empty config) steps).1
  have hfollowed : Followed (trace config (chainSteps steps)) (final config (chainSteps steps)) :=
    Machine.invariant_of Counted Followed (fun _ _ => Counted.tail) (followed_empty config)
      (fun _ db s hc h => followed_step db s hc h) _ hcounted
  obtain ⟨r, hreplay, hmirrors⟩ := hfollowed.followed
  have hfinal : final config (chainSteps steps) = _ := hdb
  rw [hfinal] at hreplay hmirrors
  exact ⟨r, hreplay, { hmirrors with }⟩

end HiveNative.Chain
