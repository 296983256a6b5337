import HiveNative.Contracts.Fuel

/-!
# The results of the engine

The callers of the engine read a result field by field: the flag, the text of the
error, the fuel, the staged writes, the denied host functions.  Nothing in the type keeps
the fields together.  `ResultOk` says what the callers rely on, and every result of the
engine has it (`engine_results_ok`): the text is empty exactly on success, a failure
stages no write, and a staged write is within the limits of the call.

A result starts `Fresh`, and `burn` either ends it or leaves it fresh.
-/

namespace HiveNative.Contracts

open Std (ExtTreeMap)

variable {r : CallResult} {limits : HostLimits}

/-- What a caller relies on. -/
structure ResultOk (limits : HostLimits) (r : CallResult) : Prop where
  error_iff : r.error = "" ↔ r.success = true
  used_le : r.fuelUsed ≤ limits.fuel
  writes_of_failure : r.success = false → r.storageWrites = ∅
  writes_within : ∀ k v : Bytes, r.storageWrites[k]? = some v →
    k.length ≤ limits.maxStorageKey.toNat ∧ v.length ≤ limits.maxStorageValue.toNat
  denied_of_success : r.success = true → r.deniedHosts = []

/-- A result before its end. -/
structure Fresh (limits : HostLimits) (r : CallResult) : Prop where
  success : r.success = false
  error : r.error = ""
  used_le : r.fuelUsed ≤ limits.fuel
  writes : r.storageWrites = ∅
  denied : r.deniedHosts = []

theorem fresh_start (limits : HostLimits) : Fresh limits {} :=
  ⟨rfl, rfl, UInt64.le_iff_toNat_le.mpr (Nat.zero_le _), rfl, rfl⟩

/-- A failure with a text, whatever it denies. -/
theorem resultOk_of_failure (hsuccess : r.success = false) (herror : r.error ≠ "")
    (hused : r.fuelUsed ≤ limits.fuel) (hwrites : r.storageWrites = ∅) : ResultOk limits r := by
  refine ⟨iff_of_false herror (by simp [hsuccess]), hused, fun _ => hwrites, fun k v h => ?_,
    fun h => ?_⟩
  · rw [hwrites, ExtTreeMap.getElem?_empty] at h
    cases h
  · rw [hsuccess] at h
    cases h

theorem Fresh.fail (h : Fresh limits r) {error : String} (herror : error ≠ "") :
    ResultOk limits (r.fail error) :=
  resultOk_of_failure h.success herror h.used_le h.writes

theorem Fresh.succeed (h : Fresh limits r) : ResultOk limits r.succeed := by
  refine ⟨iff_of_true h.error rfl, h.used_le, fun hfail => (by cases hfail), fun k v hk => ?_,
    fun _ => h.denied⟩
  rw [show r.succeed.storageWrites = ∅ from h.writes, ExtTreeMap.getElem?_empty] at hk
  cases hk

/-- Out of fuel the result has ended. -/
theorem burn_false {amount : UInt64} {r' : CallResult} (h : Fresh limits r)
    (hburn : burn r limits amount = (false, r')) : ResultOk limits r' := by
  unfold burn at hburn
  split at hburn
  · cases hburn
    exact resultOk_of_failure rfl (show "out of fuel" ≠ "" by decide) (UInt64.le_refl _) h.writes
  · cases hburn

theorem burn_true {amount : UInt64} {r' : CallResult} (h : Fresh limits r)
    (hburn : burn r limits amount = (true, r')) : Fresh limits r' := by
  unfold burn at hburn
  split at hburn
  · cases hburn
  · next hpaid =>
      cases hburn
      exact { h with used_le := UInt64.not_lt.mp hpaid }

theorem Fresh.burnThen (h : Fresh limits r) (amount : UInt64) {rest : CallResult → CallResult}
    (hrest : ∀ x, Fresh limits x → ResultOk limits (rest x)) :
    ResultOk limits (burnThen r limits amount rest) := by
  unfold Contracts.burnThen
  split
  · next hburn => exact burn_false h hburn
  · next hburn => exact hrest _ (burn_true h hburn)

theorem Fresh.callWrite (h : Fresh limits r) (rest : Bytes) :
    ResultOk limits (callWrite r limits rest) := by
  unfold Contracts.callWrite
  split
  · exact h.fail (by decide)
  · next pos hpos =>
      simp only
      split
      · exact h.fail (by decide)
      · next hsize =>
          refine h.burnThen _ fun x hx => ?_
          refine ⟨iff_of_true hx.error rfl, hx.used_le, fun hfail => (by cases hfail),
            fun k v hk => ?_, fun _ => hx.denied⟩
          -- the one staged write has passed the check of the sizes
          simp only [hx.writes, ExtTreeMap.getElem?_insert, ExtTreeMap.getElem?_empty,
            Option.ite_none_right_eq_some, Std.LawfulEqCmp.compare_eq_iff_eq,
            Option.some.injEq] at hk
          obtain ⟨rfl, rfl⟩ := hk
          omega

theorem Fresh.callDeny (h : Fresh limits r) (which : Bytes) :
    ResultOk limits (callDeny r which) := by
  unfold Contracts.callDeny
  split
  · exact resultOk_of_failure rfl (show "host function denied: transfer" ≠ "" by decide)
      h.used_le h.writes
  · exact h.fail (by decide)

theorem Fresh.callCommand (h : Fresh limits r) {cmd : Bytes} {res : CallResult}
    (hrun : callCommand r limits cmd = .ok res) : ResultOk limits res := by
  unfold Contracts.callCommand at hrun
  split at hrun
  · cases hrun
    exact h.succeed
  split at hrun
  · cases hn : stoull (cmd.drop 5) with
    | error ex =>
        rw [hn] at hrun
        cases hrun
    | ok n =>
        rw [hn] at hrun
        cases hrun
        exact h.burnThen n fun _ hx => hx.succeed
  split at hrun
  · cases hrun
    exact h.callDeny _
  split at hrun
  · cases hrun
    exact h.callWrite _
  split at hrun
  · cases hrun
    exact h.burnThen _ fun _ hx => hx.succeed
  · cases hrun
    exact h.burnThen _ fun _ hx => hx.succeed

theorem deployAndInit_ok (code initArgs : Bytes) (limits : HostLimits) :
    ResultOk limits (deployAndInit code initArgs limits) := by
  have h := fresh_start limits
  unfold deployAndInit
  simp only
  split
  · exact h.fail (by decide)
  · exact h.burnThen _ fun _ hx => hx.succeed

theorem call_ok {code exportName args : Bytes} {storage : Storage} {caller : AccountName}
    {res : CallResult} (hrun : call code exportName args storage limits caller = .ok res) :
    ResultOk limits res := by
  have h := fresh_start limits
  unfold call at hrun
  simp only at hrun
  split at hrun
  · cases hrun
    exact h.fail (by decide)
  split at hrun
  · cases hrun
    exact h.fail (by decide)
  split at hrun
  · next hburn =>
      cases hrun
      exact burn_false h hburn
  · next hburn => exact (burn_true h hburn).callCommand hrun

/-- Whatever it is given, the engine returns results whose fields agree: no text and no
denied function with a success, no write with a failure, fuel and writes within the
limits. -/
theorem engine_results_ok (code exportName args initArgs : Bytes) (storage : Storage)
    (limits : HostLimits) (caller : AccountName) :
    ResultOk limits (deployAndInit code initArgs limits) ∧
      ∀ res, call code exportName args storage limits caller = .ok res → ResultOk limits res :=
  ⟨deployAndInit_ok code initArgs limits, fun _ => call_ok⟩

/-- A write of the greatest value, paid to the last unit. -/
def dearCall : Except Exception CallResult :=
  call [0] (text "run") (text "WRITE:k:" ++ List.replicate 4096 0) ∅ { fuel := 8442 }
    (text "alice")

theorem engine_results_ok_dearCall :
    ∃ res, dearCall = .ok res ∧ res.success = true ∧ ResultOk { fuel := 8442 } res := by
  have hsuccess : dearCall.toOption.map (·.success) = some true := by decide +kernel
  cases hcall : dearCall with
  | error ex =>
      rw [hcall] at hsuccess
      cases hsuccess
  | ok res =>
      rw [hcall] at hsuccess
      exact ⟨res, rfl, Option.some.inj hsuccess, (engine_results_ok [0] _ _ [] ∅ _ _).2 res hcall⟩

end HiveNative.Contracts
