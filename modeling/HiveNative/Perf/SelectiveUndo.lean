import HiveNative.Util.Types
import HiveNative.Lib.OrderedMap

/-!
# Selective undo

The undo session of `perf/selective_undo.hpp`.  A session is bound to a map of
balances and keeps a stack of the field values that were there before each
change.  `rollback` writes them back, newest first.

`operator[]` of the map puts a zero balance under an account it does not have,
both when a balance is adjusted and when it is restored.  Nothing takes such an
entry out again.  So what a rollback leaves is not the map of the checkpoint but
that map with every account adjusted since then in it (`rollback_run`), and the
two agree exactly when those accounts were there before.

Adding the deltas can overflow, which the source leaves undefined: `none`.
-/

namespace HiveNative.Perf.SelectiveUndo

open Std (ExtTreeMap)

/-! ## The session -/

structure AccountBalance where
  hive : Int64 := 0
  hbd : Int64 := 0
deriving Repr, DecidableEq

abbrev BalanceMap := ExtTreeMap Bytes AccountBalance

/-- An account and the field values it had before a change. -/
structure BalanceChange where
  account : Bytes
  oldHive : Int64 := 0
  oldHbd : Int64 := 0
deriving Repr, DecidableEq

/-- A session and the map it is bound to.  The newest record is the last of the
stack. -/
structure UndoSession where
  balances : BalanceMap
  stack : List BalanceChange := []

/-- `balances[account]` as an expression: the entry, created if it is not there. -/
def BalanceMap.touch (balances : BalanceMap) (account : Bytes) : BalanceMap :=
  if account ∈ balances then balances else balances.insert account {}

/-- The restoring body of the loop of `rollback`. -/
def BalanceChange.restore (change : BalanceChange) (balances : BalanceMap) : BalanceMap :=
  balances.insert change.account ⟨change.oldHive, change.oldHbd⟩

namespace UndoSession

def pushBalanceChange (s : UndoSession) (account : Bytes) (oldHive oldHbd : Int64) : UndoSession :=
  { s with stack := s.stack ++ [⟨account, oldHive, oldHbd⟩] }

def rollback (s : UndoSession) : UndoSession :=
  ⟨s.stack.foldr BalanceChange.restore s.balances, []⟩

def commit (s : UndoSession) : UndoSession := { s with stack := [] }

end UndoSession

/-- A sum of two `int64_t`. -/
def checkedAdd (x y : Int64) : Option Int64 :=
  if x.toInt + y.toInt < -2 ^ 63 ∨ 2 ^ 63 ≤ x.toInt + y.toInt then none else some (x + y)

/-- `adjust_balance(session, balances, account, hive_delta, hbd_delta)`, with the
map the session is bound to. -/
def adjustBalance (s : UndoSession) (account : Bytes) (hiveDelta hbdDelta : Int64) :
    Option UndoSession := do
  let balances := s.balances.touch account
  let b := balances.getD account {}
  let s := s.pushBalanceChange account b.hive b.hbd
  let hive ← checkedAdd b.hive hiveDelta
  let hbd ← checkedAdd b.hbd hbdDelta
  return { s with balances := balances.insert account ⟨hive, hbd⟩ }

/-! ## Runs -/

/-- A call on the session. -/
inductive UndoOp where
  | adjust (account : Bytes) (hiveDelta hbdDelta : Int64)
  | commit
  | rollback
deriving Repr, DecidableEq

namespace UndoOp

/-- The account an adjustment names. -/
def account? : UndoOp → Option Bytes
  | adjust account _ _ => some account
  | commit => none
  | rollback => none

def isAdjust (op : UndoOp) : Bool := op.account?.isSome

def exec (s : UndoSession) : UndoOp → Option UndoSession
  | adjust account hiveDelta hbdDelta => adjustBalance s account hiveDelta hbdDelta
  | commit => some s.commit
  | rollback => some s.rollback

end UndoOp

/-- The session after a list of calls, newest first, on a session opened on a
map. -/
def undoRun (balances : BalanceMap) : List UndoOp → Option UndoSession
  | [] => some ⟨balances, []⟩
  | op :: past => do
      let s ← undoRun balances past
      op.exec s

/-- The calls up to the latest commit or rollback. -/
def untilCheckpoint (past : List UndoOp) : List UndoOp := past.dropWhile UndoOp.isAdjust

/-- The accounts adjusted since the latest commit or rollback, newest first. -/
def adjustedSince (past : List UndoOp) : List Bytes :=
  (past.takeWhile UndoOp.isAdjust).filterMap UndoOp.account?

/-- Right after each rollback of a run, the map is what it was at the latest
commit or rollback before it, or at the opening, and the stack is empty. -/
def RollbackRestores (balances : BalanceMap) (ops : List UndoOp) : Prop :=
  ∀ past s, UndoOp.rollback :: past <:+ ops → undoRun balances (.rollback :: past) = some s →
    ∃ checkpoint, undoRun balances (untilCheckpoint past) = some checkpoint ∧
      s.balances = checkpoint.balances ∧ s.stack = []

/-- The account is in the map the session was opened on, or some call adjusted
it. -/
def Known (balances : BalanceMap) (past : List UndoOp) (account : Bytes) : Prop :=
  account ∈ balances ∨ account ∈ past.filterMap UndoOp.account?

/-! ## Touching an account -/

namespace BalanceMap

variable {balances : BalanceMap} {account : Bytes}

theorem touch_of_mem (h : account ∈ balances) : balances.touch account = balances := if_pos h

theorem mem_touch {a : Bytes} : a ∈ balances.touch account ↔ a = account ∨ a ∈ balances := by
  unfold touch
  split
  · next h =>
      constructor
      · exact Or.inr
      · intro ha
        cases ha with
        | inl ha => exact ha ▸ h
        | inr ha => exact ha
  · rw [ExtTreeMap.mem_insert, Std.LawfulEqCmp.compare_eq_iff_eq, eq_comm]

theorem mem_foldr_touch {a : Bytes} (accounts : List Bytes) :
    a ∈ accounts.foldr (fun account m => touch m account) balances ↔
      a ∈ accounts ∨ a ∈ balances := by
  induction accounts with
  | nil => simp
  | cons account accounts ih => rw [List.foldr_cons, mem_touch, ih, List.mem_cons, or_assoc]

/-- Touching accounts changes nothing exactly when they are all there. -/
theorem foldr_touch_eq_self (accounts : List Bytes) :
    accounts.foldr (fun account m => touch m account) balances = balances ↔
      ∀ a ∈ accounts, a ∈ balances := by
  constructor
  · intro h a ha
    rw [← h]
    exact (mem_foldr_touch accounts).mpr (.inl ha)
  · intro h
    induction accounts with
    | nil => rfl
    | cons account accounts ih =>
        rw [List.foldr_cons, ih fun a ha => h a (List.mem_cons_of_mem account ha)]
        exact touch_of_mem (h account List.mem_cons_self)

/-- The value read through `operator[]`, written back, changes nothing. -/
theorem insert_touched (balances : BalanceMap) (account : Bytes) :
    (balances.touch account).insert account ((balances.touch account).getD account {}) =
      balances.touch account := by
  obtain ⟨b, hb⟩ := OrderedMap.mem_iff_exists.mp (mem_touch.mpr (.inl (Eq.refl account)))
  rw [ExtTreeMap.getD_eq_getD_getElem?, hb]
  exact OrderedMap.insert_getElem?_self hb

/-- A restoring write and a touch commute. -/
theorem restore_touch (change : BalanceChange) (balances : BalanceMap) (account : Bytes) :
    change.restore (balances.touch account) = (change.restore balances).touch account := by
  by_cases heq : change.account = account
  · subst heq
    have hmem : change.account ∈ change.restore balances :=
      ExtTreeMap.mem_insert.mpr (.inl Std.ReflCmp.compare_self)
    rw [touch_of_mem hmem]
    unfold touch
    split
    · rfl
    · exact OrderedMap.insert_insert_self balances _ _ _
  · by_cases hmem : account ∈ balances
    · have hstill : account ∈ change.restore balances := ExtTreeMap.mem_insert.mpr (.inr hmem)
      rw [touch_of_mem hmem, touch_of_mem hstill]
    · have hnot : account ∉ change.restore balances := by
        rw [OrderedMap.not_mem_iff, BalanceChange.restore, OrderedMap.getElem?_insert_ne heq]
        exact OrderedMap.not_mem_iff.mp hmem
      rw [touch, if_neg hmem, touch, if_neg hnot]
      exact OrderedMap.insert_comm (Ne.symm heq)

end BalanceMap

/-! ## What a rollback leaves -/

/-- A defined adjustment records the fields it found and writes the account. -/
theorem adjustBalance_some {s s' : UndoSession} {account : Bytes} {hiveDelta hbdDelta : Int64}
    (h : adjustBalance s account hiveDelta hbdDelta = some s') :
    ∃ b : AccountBalance, s' = ⟨(s.balances.touch account).insert account b,
      s.stack ++ [⟨account, ((s.balances.touch account).getD account {}).hive,
        ((s.balances.touch account).getD account {}).hbd⟩]⟩ := by
  simp only [adjustBalance, Option.bind_eq_bind, Option.bind_eq_some_iff] at h
  obtain ⟨hive, -, hbd, -, hs⟩ := h
  cases hs
  exact ⟨⟨hive, hbd⟩, rfl⟩

/-- Restoring after a touch is touching after the restore. -/
theorem foldr_restore_touch (changes : List BalanceChange) (balances : BalanceMap)
    (account : Bytes) :
    changes.foldr BalanceChange.restore (balances.touch account) =
      BalanceMap.touch (changes.foldr BalanceChange.restore balances) account := by
  induction changes with
  | nil => rfl
  | cons change changes ih => rw [List.foldr_cons, ih, BalanceMap.restore_touch, List.foldr_cons]

/-- An adjustment adds one touch to what the rollback will leave. -/
theorem rollback_adjust {s s' : UndoSession} {account : Bytes} {hiveDelta hbdDelta : Int64}
    (h : adjustBalance s account hiveDelta hbdDelta = some s') :
    s'.rollback.balances = s.rollback.balances.touch account := by
  obtain ⟨b, rfl⟩ := adjustBalance_some h
  simp only [UndoSession.rollback, List.foldr_append, List.foldr_cons, List.foldr_nil]
  rw [BalanceChange.restore, OrderedMap.insert_insert_self, BalanceMap.insert_touched]
  exact foldr_restore_touch s.stack s.balances account

/-- What a rollback would leave at any moment of a run: the map of the latest
checkpoint with every account adjusted since then touched. -/
theorem rollback_run {balances : BalanceMap} {past : List UndoOp} {s : UndoSession}
    (h : undoRun balances past = some s) :
    ∃ checkpoint, undoRun balances (untilCheckpoint past) = some checkpoint ∧
      s.rollback.balances =
        (adjustedSince past).foldr (fun account m => m.touch account) checkpoint.balances := by
  induction past generalizing s with
  | nil =>
      cases h
      exact ⟨_, rfl, rfl⟩
  | cons op past ih =>
      obtain ⟨t, ht, hop⟩ := Option.bind_eq_some_iff.mp h
      cases op with
      | adjust account hiveDelta hbdDelta =>
          obtain ⟨checkpoint, hc, heq⟩ := ih ht
          refine ⟨checkpoint, hc, ?_⟩
          rw [rollback_adjust hop, heq]
          rfl
      | commit =>
          cases hop
          exact ⟨t.commit, h, rfl⟩
      | rollback =>
          cases hop
          exact ⟨t.rollback, h, rfl⟩

/-- The accounts of the map are those it was opened with and those adjusted,
before a rollback as after it. -/
theorem mem_undoRun {balances : BalanceMap} {past : List UndoOp} {s : UndoSession}
    (h : undoRun balances past = some s) (a : Bytes) :
    (a ∈ s.balances ↔ Known balances past a) ∧
      (a ∈ s.rollback.balances ↔ Known balances past a) := by
  induction past generalizing s with
  | nil =>
      cases h
      simp [Known, UndoSession.rollback]
  | cons op past ih =>
      obtain ⟨t, ht, hop⟩ := Option.bind_eq_some_iff.mp h
      obtain ⟨hnow, hback⟩ := ih ht
      cases op with
      | adjust account hiveDelta hbdDelta =>
          have hknown : Known balances (.adjust account hiveDelta hbdDelta :: past) a ↔
              a = account ∨ Known balances past a := by
            simp only [Known, List.filterMap_cons, UndoOp.account?, List.mem_cons]
            exact or_left_comm
          rw [hknown, rollback_adjust hop, BalanceMap.mem_touch, hback]
          obtain ⟨b, rfl⟩ := adjustBalance_some hop
          rw [ExtTreeMap.mem_insert, Std.LawfulEqCmp.compare_eq_iff_eq, BalanceMap.mem_touch, hnow,
            eq_comm]
          simp
      | commit =>
          cases hop
          exact ⟨hnow, hnow⟩
      | rollback =>
          cases hop
          exact ⟨hback, hback⟩

/-! ## Main result -/

/-- A rollback restores the map of the latest checkpoint exactly when every
account adjusted since then was in the map at the opening or was adjusted before
the checkpoint. -/
theorem rollback_restores_iff (balances : BalanceMap) (ops : List UndoOp) :
    RollbackRestores balances ops ↔
      ∀ past, UndoOp.rollback :: past <:+ ops → (undoRun balances past).isSome →
        ∀ account ∈ adjustedSince past, Known balances (untilCheckpoint past) account := by
  constructor
  · intro h past hpast hdefined account haccount
    obtain ⟨s, hs⟩ := Option.isSome_iff_exists.mp hdefined
    obtain ⟨checkpoint, hc, heq⟩ := rollback_run hs
    obtain ⟨c, hc', hback, -⟩ := h past s.rollback hpast (by rw [undoRun, hs]; rfl)
    rw [hc] at hc'
    cases hc'
    rw [hback, eq_comm, BalanceMap.foldr_touch_eq_self] at heq
    exact (mem_undoRun hc account).1.mp (heq account haccount)
  · intro h past s hpast hs
    obtain ⟨t, ht, hback⟩ := Option.bind_eq_some_iff.mp hs
    cases hback
    obtain ⟨checkpoint, hc, heq⟩ := rollback_run ht
    have hknown := h past hpast (by rw [ht]; rfl)
    refine ⟨checkpoint, hc, ?_, rfl⟩
    rw [heq, BalanceMap.foldr_touch_eq_self]
    exact fun account haccount => (mem_undoRun hc account).1.mpr (hknown account haccount)

/-- Adjusting a new account and rolling back leaves the account behind. -/
theorem rollback_keeps_new_account :
    ¬ RollbackRestores ∅ [.rollback, .adjust (text "alice") 5 0] := by
  intro h
  have hrun : (undoRun ∅ [.rollback, .adjust (text "alice") 5 0]).isSome := by decide +kernel
  obtain ⟨s, hs⟩ := Option.isSome_iff_exists.mp hrun
  obtain ⟨checkpoint, hc, heq, -⟩ := h _ s (List.suffix_refl _) hs
  cases hc
  have hleft : text "alice" ∈ s.balances := (mem_undoRun hs _).1.mpr (.inr (by decide))
  rw [heq] at hleft
  exact ExtTreeMap.not_mem_empty hleft

end HiveNative.Perf.SelectiveUndo
