import HiveNative.Perf.SelectiveUndo

/-!
# Several undo sessions on one map

A session holds a reference to its map, so any number of sessions can be bound to one map,
and their calls and other writes to the map come in any order.

A session knows of its own records only.  Its rollback writes back, for each account it
has a record of, what the oldest of them says, over whatever was written since by anyone,
and leaves every other account (`rollback_writes_first_record`).  So what an inner session
committed survives the rollback of the session around it, unless that one recorded the
account as well.
-/

namespace HiveNative.Perf.SelectiveUndo

open Std (ExtTreeMap)

/-! ## Sessions on one map -/

/-- A map and the stack of each session that is bound to it. -/
structure SharedMap where
  balances : BalanceMap
  stackOf : ℕ → List BalanceChange := fun _ => []

namespace SharedMap

/-- The session of a number. -/
def session (s : SharedMap) (i : ℕ) : UndoSession := ⟨s.balances, s.stackOf i⟩

/-- What a call on a session leaves. -/
def put (s : SharedMap) (i : ℕ) (u : UndoSession) : SharedMap :=
  ⟨u.balances, Function.update s.stackOf i u.stack⟩

end SharedMap

inductive SharedOp where
  /-- A call on a session. -/
  | call (i : ℕ) (op : UndoOp)
  /-- `push_balance_change` on a session, by hand. -/
  | push (i : ℕ) (account : Bytes) (oldHive oldHbd : Int64)
  /-- A write to the map that goes through no session. -/
  | assign (account : Bytes) (b : AccountBalance)
deriving Repr, DecidableEq

def SharedOp.exec (s : SharedMap) : SharedOp → Option SharedMap
  | call i op => (op.exec (s.session i)).map (s.put i)
  | push i account oldHive oldHbd =>
      some (s.put i ((s.session i).pushBalanceChange account oldHive oldHbd))
  | assign account b => some { s with balances := s.balances.insert account b }

/-- The map and its sessions after a list of operations, newest first. -/
def sharedRun (balances : BalanceMap) : List SharedOp → Option SharedMap
  | [] => some { balances := balances }
  | op :: past => (sharedRun balances past).bind op.exec

/-! ## Records -/

def BalanceChange.old (change : BalanceChange) : AccountBalance := ⟨change.oldHive, change.oldHbd⟩

/-- What the oldest record of an account says. -/
def oldest (account : Bytes) (stack : List BalanceChange) : Option AccountBalance :=
  (stack.find? fun change => change.account = account).map BalanceChange.old

/-- What the session recorded of the account first, since it last committed or rolled back:
the balance it found there, or what it was told. -/
def firstRecord (balances : BalanceMap) (i : ℕ) (account : Bytes) :
    List SharedOp → Option AccountBalance
  | [] => none
  | .call j (.adjust a _ _) :: past =>
      if j = i ∧ a = account then
        (firstRecord balances i account past).or
          ((sharedRun balances past).map fun s => s.balances.getD account {})
      else firstRecord balances i account past
  | .call j .commit :: past => if j = i then none else firstRecord balances i account past
  | .call j .rollback :: past => if j = i then none else firstRecord balances i account past
  | .push j a oldHive oldHbd :: past =>
      if j = i ∧ a = account then
        (firstRecord balances i account past).or (some ⟨oldHive, oldHbd⟩)
      else firstRecord balances i account past
  | .assign _ _ :: past => firstRecord balances i account past

/-- Restoring newest first, the oldest record has the last word. -/
theorem getElem?_foldr_restore (stack : List BalanceChange) (balances : BalanceMap)
    (account : Bytes) :
    (stack.foldr BalanceChange.restore balances)[account]? =
      (oldest account stack).or balances[account]? := by
  induction stack with
  | nil => rfl
  | cons change stack ih =>
      rw [List.foldr_cons, BalanceChange.restore, OrderedMap.getElem?_insert_eq, ih]
      by_cases h : change.account = account
      · rw [if_pos h.symm, oldest, List.find?_cons_of_pos (by simp [h])]
        rfl
      · rw [if_neg (Ne.symm h), oldest, oldest, List.find?_cons_of_neg (by simp [h])]

theorem oldest_push (account : Bytes) (stack : List BalanceChange) (change : BalanceChange) :
    oldest account (stack ++ [change]) =
      (oldest account stack).or (if change.account = account then some change.old else none) := by
  unfold oldest
  rw [List.find?_append, List.find?_singleton]
  cases stack.find? fun change => change.account = account with
  | some c => rfl
  | none =>
      by_cases h : change.account = account
      · rw [if_pos h, if_pos (decide_eq_true h)]
        rfl
      · rw [if_neg h, if_neg (by simp [h])]
        rfl

/-- What `operator[]` reads. -/
theorem getD_touch (balances : BalanceMap) (account : Bytes) :
    (balances.touch account).getD account {} = balances.getD account {} := by
  unfold BalanceMap.touch
  split
  · rfl
  · next h =>
      rw [ExtTreeMap.getD_insert_self, ExtTreeMap.getD_eq_fallback h]

/-! ## Runs -/

section Put

variable {s : SharedMap} {u : UndoSession} {i j : ℕ}

@[simp] theorem SharedMap.put_stackOf_self : (s.put i u).stackOf i = u.stack :=
  Function.update_self i _ _

theorem SharedMap.put_stackOf_ne (h : j ≠ i) : (s.put i u).stackOf j = s.stackOf j :=
  Function.update_of_ne h _ _

/-- A record pushed on one session is the oldest of its account only if it is the first,
and concerns no other session. -/
theorem oldest_put_push (m : BalanceMap) (change : BalanceChange) (account : Bytes) :
    oldest account ((s.put j ⟨m, s.stackOf j ++ [change]⟩).stackOf i) =
      if j = i ∧ change.account = account then
        (oldest account (s.stackOf i)).or (some change.old)
      else oldest account (s.stackOf i) := by
  by_cases hj : j = i
  · subst hj
    rw [SharedMap.put_stackOf_self, oldest_push]
    by_cases ha : change.account = account
    · rw [if_pos ha, if_pos ⟨rfl, ha⟩]
    · rw [if_neg ha, if_neg fun h => ha h.2, Option.or_none]
  · rw [SharedMap.put_stackOf_ne (Ne.symm hj), if_neg fun h => hj h.1]

/-- A session that commits or rolls back has no record left; the others keep theirs. -/
theorem oldest_put_cleared (m : BalanceMap) (account : Bytes) :
    oldest account ((s.put j ⟨m, []⟩).stackOf i) =
      if j = i then none else oldest account (s.stackOf i) := by
  by_cases hj : j = i
  · subst hj
    rw [SharedMap.put_stackOf_self, if_pos rfl]
    rfl
  · rw [SharedMap.put_stackOf_ne (Ne.symm hj), if_neg hj]

end Put

/-- A stack begins with what its session recorded first. -/
theorem oldest_run {balances : BalanceMap} {past : List SharedOp} {s : SharedMap}
    (h : sharedRun balances past = some s) (i : ℕ) (account : Bytes) :
    oldest account (s.stackOf i) = firstRecord balances i account past := by
  induction past generalizing s with
  | nil =>
      cases h
      rfl
  | cons op past ih =>
      obtain ⟨t, ht, hop⟩ := Option.bind_eq_some_iff.mp h
      have hold := ih ht
      cases op with
      | assign a b =>
          cases hop
          exact hold
      | push j a oldHive oldHbd =>
          cases hop
          rw [firstRecord, ← hold]
          exact oldest_put_push t.balances ⟨a, oldHive, oldHbd⟩ account
      | call j op =>
          obtain ⟨u, hu, rfl⟩ := Option.map_eq_some_iff.mp hop
          cases op with
          | adjust a hiveDelta hbdDelta =>
              obtain ⟨b, rfl⟩ := adjustBalance_some hu
              refine (oldest_put_push _ _ account).trans ?_
              rw [firstRecord, ← hold, ht]
              by_cases hrecord : j = i ∧ a = account
              · rw [if_pos hrecord, if_pos hrecord, ← hrecord.2]
                exact congrArg (fun v => (oldest a (t.stackOf i)).or (some v))
                  (getD_touch t.balances a)
              · rw [if_neg hrecord, if_neg hrecord]
          | commit =>
              cases hu
              rw [firstRecord, ← hold]
              exact oldest_put_cleared t.balances account
          | rollback =>
              cases hu
              rw [firstRecord, ← hold]
              exact oldest_put_cleared _ account

/-- A rollback gives back, whatever was written to the map since and by whom, the first
balance the session recorded of each account since it last committed or rolled back, and
leaves every account it recorded nothing of.  No other session notices. -/
theorem rollback_writes_first_record (balances : BalanceMap) (past : List SharedOp)
    (s : SharedMap) (i : ℕ) (h : sharedRun balances past = some s) :
    ∃ s', sharedRun balances (.call i .rollback :: past) = some s' ∧
      (∀ account, s'.balances[account]? =
        (firstRecord balances i account past).or s.balances[account]?) ∧
      s'.stackOf i = [] ∧
      ∀ j, j ≠ i → s'.stackOf j = s.stackOf j := by
  refine ⟨s.put i (s.session i).rollback, ?_, fun account => ?_, SharedMap.put_stackOf_self,
    fun j hj => SharedMap.put_stackOf_ne hj⟩
  · rw [sharedRun, h]
    rfl
  · rw [← oldest_run h]
    exact getElem?_foldr_restore (s.stackOf i) s.balances account

/-- Session 1 opens inside session 0, pays bob and commits; session 0 had paid alice. -/
def innerCommit : List SharedOp :=
  [.call 1 .commit, .call 1 (.adjust (text "bob") 5 0), .call 0 (.adjust (text "alice") 3 0)]

/-- Rolling the outer session back takes alice's balance back and leaves bob's payment. -/
theorem rollback_writes_first_record_innerCommit :
    ∃ s', sharedRun ∅ (.call 0 .rollback :: innerCommit) = some s' ∧
      s'.balances[text "alice"]? = some ⟨0, 0⟩ ∧ s'.balances[text "bob"]? = some ⟨5, 0⟩ := by
  have hrun : (sharedRun ∅ innerCommit).isSome := by decide +kernel
  obtain ⟨s, hs⟩ := Option.isSome_iff_exists.mp hrun
  obtain ⟨s', hs', hmap, -⟩ := rollback_writes_first_record ∅ innerCommit s 0 hs
  have hbob : (sharedRun ∅ innerCommit).bind (·.balances[text "bob"]?) = some ⟨5, 0⟩ := by
    decide +kernel
  refine ⟨s', hs', (hmap _).trans ?_, (hmap _).trans ?_⟩
  · have hfirst : firstRecord ∅ 0 (text "alice") innerCommit = some ⟨0, 0⟩ := by decide +kernel
    rw [hfirst]
    rfl
  · have hnone : firstRecord ∅ 0 (text "bob") innerCommit = none := by decide +kernel
    rw [hs] at hbob
    rw [hnone]
    exact hbob

end HiveNative.Perf.SelectiveUndo
