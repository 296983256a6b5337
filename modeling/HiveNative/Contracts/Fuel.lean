import HiveNative.Contracts.Engine

/-!
# The fuel law

`burn` compares `fuel_used + amount` with the limit, and the sum is taken modulo
`2^64`.  `requestedFuel` is the sum without the modulus.  As long as it is below
`2^64` the engine is honest: a call that succeeds was granted all it asked for
and reports it, and a call that asks for more than the limit is refused with no
staged write.  Once the sum wraps, what is compared and reported is its remainder
only.
-/

namespace HiveNative.Contracts

open Std (ExtTreeMap)

/-- What a `WRITE:` command asks for: nothing when it is refused. -/
def writeFuel (limits : HostLimits) (rest : Bytes) : ℕ :=
  match findColon rest with
  | none => 0
  | some pos =>
      if (rest.take pos).length > limits.maxStorageKey.toNat ∨
          (rest.drop (pos + 1)).length > limits.maxStorageValue.toNat then 0
      else 200 + 2 * (rest.drop (pos + 1)).length

/-- The sum of the amounts a command asks `burn` for, the base charge included. -/
def requestedFuel (limits : HostLimits) (cmd : Bytes) : ℕ :=
  if cmd.isEmpty ∨ cmd = text "OK" then 50
  else if startsWith (text "BURN:") cmd then
    match stoull (cmd.drop 5) with
    | .ok n => 50 + n.toNat
    | .error _ => 50
  else if startsWith (text "DENY:") cmd then 50
  else if startsWith (text "WRITE:") cmd then 50 + writeFuel limits (cmd.drop 6)
  else if startsWith (text "READ:") cmd then 50 + 50
  else 50 + (20 + cmd.length)

/-- What a deployment asks for. -/
def deployFuel (code : Bytes) : ℕ := 100 + code.length / 64

/-- A run that asks for `asked` in total is honest about it. -/
structure FuelLaw (result : Except Exception CallResult) (limits : HostLimits) (asked : ℕ) :
    Prop where
  paid : ∀ r, result = .ok r → r.success = true →
    asked ≤ limits.fuel.toNat ∧ r.fuelUsed.toNat = asked
  refused : limits.fuel.toNat < asked → ∃ r, result = .ok r ∧ r.success = false ∧
    r.storageWrites = ∅ ∧ r.fuelUsed ≤ limits.fuel

/-- The sum wraps to something the limit covers. -/
def Wraps (limits : HostLimits) (asked : ℕ) : Prop :=
  2 ^ 64 ≤ asked ∧ asked % 2 ^ 64 ≤ limits.fuel.toNat

variable {limits : HostLimits} {r : CallResult}

/-! ## One charge -/

theorem burn_eq (r : CallResult) (limits : HostLimits) (amount : UInt64) :
    burn r limits amount =
      if (r.fuelUsed.toNat + amount.toNat) % 2 ^ 64 ≤ limits.fuel.toNat then
        (true, { r with fuelUsed := r.fuelUsed + amount })
      else
        (false, { r with success := false, error := "out of fuel", fuelUsed := limits.fuel }) := by
  have hle : r.fuelUsed + amount ≤ limits.fuel ↔
      (r.fuelUsed.toNat + amount.toNat) % 2 ^ 64 ≤ limits.fuel.toNat := by
    rw [UInt64.le_iff_toNat_le, UInt64.toNat_add]
  unfold burn
  by_cases h : r.fuelUsed + amount ≤ limits.fuel
  · rw [if_pos (hle.mp h), if_neg (UInt64.not_lt.mpr h)]
  · rw [if_neg (mt hle.mpr h), if_pos (UInt64.not_le.mp h)]

/-- A refusal obeys the law, whatever was asked. -/
theorem fuelLaw_of_refused {asked : ℕ} (hs : r.success = false) (hw : r.storageWrites = ∅)
    (hf : r.fuelUsed ≤ limits.fuel) : FuelLaw (.ok r) limits asked := by
  refine ⟨fun x hx hok => ?_, fun _ => ⟨r, rfl, hs, hw, hf⟩⟩
  cases hx
  rw [hs] at hok
  cases hok

/-- A success obeys the law exactly when it reports what was asked. -/
theorem fuelLaw_of_success {asked : ℕ} (hs : r.success = true) :
    FuelLaw (.ok r) limits asked ↔ asked ≤ limits.fuel.toNat ∧ r.fuelUsed.toNat = asked := by
  constructor
  · intro h
    exact h.paid r rfl hs
  · intro h
    refine ⟨fun x hx _ => ?_, fun hlt => absurd h.1 (by omega)⟩
    cases hx
    exact h

/-- The last charge of a run.  What was used and the amount, without the modulus,
add up to what the run asked for. -/
theorem fuelLaw_burnThen {amount : UInt64} {asked : ℕ} {rest : CallResult → CallResult}
    (hw : r.storageWrites = ∅)
    (hasked : (r.fuelUsed.toNat + amount.toNat) % 2 ^ 64 = asked % 2 ^ 64)
    (hrest : ∀ x, (rest x).success = true ∧ (rest x).fuelUsed = x.fuelUsed) :
    FuelLaw (.ok (burnThen r limits amount rest)) limits asked ↔ ¬ Wraps limits asked := by
  unfold burnThen
  rw [burn_eq, hasked]
  by_cases hfit : asked % 2 ^ 64 ≤ limits.fuel.toNat
  · rw [if_pos hfit]
    have hused : (rest { r with fuelUsed := r.fuelUsed + amount }).fuelUsed.toNat =
        asked % 2 ^ 64 := by
      rw [(hrest _).2, ← hasked]
      exact UInt64.toNat_add _ _
    refine (fuelLaw_of_success (hrest _).1).trans ?_
    rw [hused]
    unfold Wraps
    constructor
    · intro h
      omega
    · intro h
      have hlt : asked < 2 ^ 64 := by omega
      rw [Nat.mod_eq_of_lt hlt] at hfit ⊢
      exact ⟨hfit, rfl⟩
  · rw [if_neg hfit]
    have hlaw : FuelLaw (.ok { r with
        success := false, error := "out of fuel", fuelUsed := limits.fuel }) limits asked :=
      fuelLaw_of_refused rfl hw (UInt64.le_refl _)
    exact ⟨fun _ hwrap => hfit hwrap.2, fun _ => hlaw⟩

/-! ## The commands -/

/-- The state of a call after the base charge. -/
def afterBase : CallResult := { fuelUsed := 50 }

theorem not_wraps_base : ¬ Wraps limits 50 := by
  intro h
  have := h.1
  omega

/-- A command that asks for nothing more. -/
theorem fuelLaw_base {x : CallResult} (hbase : 50 ≤ limits.fuel.toNat)
    (hw : x.storageWrites = ∅) (hf : x.fuelUsed = 50) :
    FuelLaw (.ok x) limits 50 ↔ ¬ Wraps limits 50 := by
  refine iff_of_true ?_ not_wraps_base
  cases hs : x.success with
  | true => exact (fuelLaw_of_success hs).mpr ⟨hbase, by rw [hf]; rfl⟩
  | false =>
      refine fuelLaw_of_refused hs hw ?_
      rw [hf, UInt64.le_iff_toNat_le]
      exact hbase

theorem fuelLaw_callWrite (hbase : 50 ≤ limits.fuel.toNat) (rest : Bytes) :
    FuelLaw (.ok (callWrite afterBase limits rest)) limits (50 + writeFuel limits rest) ↔
      ¬ Wraps limits (50 + writeFuel limits rest) := by
  unfold callWrite writeFuel
  cases findColon rest with
  | none => exact fuelLaw_base hbase rfl rfl
  | some pos =>
      simp only
      split
      · exact fuelLaw_base hbase rfl rfl
      · refine fuelLaw_burnThen rfl ?_ fun x => ⟨rfl, rfl⟩
        simp only [hostFuelWeight, afterBase, UInt64.toNat_add, UInt64.toNat_mul,
          UInt64.toNat_ofNat, UInt64.toNat_ofNat']
        omega

theorem fuelLaw_callCommand (hbase : 50 ≤ limits.fuel.toNat) (cmd : Bytes) :
    FuelLaw (callCommand afterBase limits cmd) limits (requestedFuel limits cmd) ↔
      ¬ Wraps limits (requestedFuel limits cmd) := by
  unfold callCommand requestedFuel
  split
  · exact fuelLaw_base hbase rfl rfl
  split
  · cases stoull (cmd.drop 5) with
    | error ex =>
        refine iff_of_true ⟨fun r hr => ?_, fun hlt => absurd hbase (by simpa using hlt)⟩
          not_wraps_base
        cases hr
    | ok n => exact fuelLaw_burnThen rfl rfl fun x => ⟨rfl, rfl⟩
  split
  · refine fuelLaw_base hbase ?_ ?_
    · unfold callDeny
      split
      · rfl
      · rfl
    · unfold callDeny
      split
      · rfl
      · rfl
  split
  · exact fuelLaw_callWrite hbase _
  split
  · exact fuelLaw_burnThen rfl rfl fun x => ⟨rfl, rfl⟩
  · refine fuelLaw_burnThen rfl ?_ fun x => ⟨rfl, rfl⟩
    simp only [afterBase, UInt64.toNat_add, UInt64.toNat_ofNat, UInt64.toNat_ofNat']
    omega

/-! ## Calls and deployments -/

theorem fuelLaw_call (code exportName args : Bytes) (storage : Storage) (limits : HostLimits)
    (caller : AccountName) :
    FuelLaw (call code exportName args storage limits caller) limits (requestedFuel limits args) ↔
      ¬ (code ≠ [] ∧ exportName ≠ [] ∧ 50 ≤ limits.fuel.toNat ∧
        Wraps limits (requestedFuel limits args)) := by
  unfold call
  cases code with
  | nil =>
      refine iff_of_true ?_ fun h => h.1 rfl
      exact fuelLaw_of_refused rfl rfl (UInt64.le_iff_toNat_le.mpr (Nat.zero_le _))
  | cons c code =>
      cases exportName with
      | nil =>
          refine iff_of_true ?_ fun h => h.2.1 rfl
          exact fuelLaw_of_refused rfl rfl (UInt64.le_iff_toNat_le.mpr (Nat.zero_le _))
      | cons x exportName =>
          simp only [List.isEmpty_cons, Bool.false_eq_true, if_false, ne_eq, reduceCtorEq,
            not_false_eq_true, true_and, burn_eq]
          have hsum : ((0 : UInt64).toNat + (50 : UInt64).toNat) % 2 ^ 64 = 50 := rfl
          rw [hsum]
          by_cases hbase : 50 ≤ limits.fuel.toNat
          · rw [if_pos hbase]
            simp only [hbase, true_and]
            exact fuelLaw_callCommand hbase args
          · rw [if_neg hbase]
            refine iff_of_true ?_ fun h => hbase h.1
            exact fuelLaw_of_refused rfl rfl (UInt64.le_refl _)

theorem fuelLaw_deploy (code initArgs : Bytes) (limits : HostLimits) :
    FuelLaw (.ok (deployAndInit code initArgs limits)) limits (deployFuel code) ↔
      ¬ (code ≠ [] ∧ Wraps limits (deployFuel code)) := by
  unfold deployAndInit
  cases code with
  | nil =>
      refine iff_of_true ?_ fun h => h.1 rfl
      exact fuelLaw_of_refused rfl rfl (UInt64.le_iff_toNat_le.mpr (Nat.zero_le _))
  | cons c code =>
      simp only [List.isEmpty_cons, Bool.false_eq_true, if_false, ne_eq, reduceCtorEq,
        not_false_eq_true, true_and]
      refine fuelLaw_burnThen rfl ?_ fun x => ⟨rfl, rfl⟩
      simp only [deployFuel, UInt64.toNat_add, UInt64.toNat_ofNat, UInt64.toNat_ofNat']
      omega

/-! ## What a call reports

The sum of a charge may wrap, but what is compared with the limit is what is reported. -/

theorem burnThen_used_le {amount : UInt64} {rest : CallResult → CallResult}
    (hrest : ∀ x, (rest x).fuelUsed = x.fuelUsed) :
    (burnThen r limits amount rest).fuelUsed ≤ limits.fuel := by
  unfold burnThen burn
  split
  · next hover =>
      split at hover
      · cases hover
        exact UInt64.le_refl _
      · cases hover
  · next hpaid =>
      split at hpaid
      · cases hpaid
      · next hle =>
          cases hpaid
          rw [hrest]
          exact UInt64.not_lt.mp hle

theorem callWrite_used_le (h : r.fuelUsed ≤ limits.fuel) (rest : Bytes) :
    (callWrite r limits rest).fuelUsed ≤ limits.fuel := by
  unfold callWrite
  split
  · exact h
  · simp only
    split
    · exact h
    · exact burnThen_used_le fun _ => rfl

theorem callCommand_used_le (h : r.fuelUsed ≤ limits.fuel) {cmd : Bytes} {res : CallResult}
    (hrun : callCommand r limits cmd = .ok res) : res.fuelUsed ≤ limits.fuel := by
  unfold callCommand at hrun
  split at hrun
  · cases hrun
    exact h
  split at hrun
  · cases hn : stoull (cmd.drop 5) with
    | error x => rw [hn] at hrun; cases hrun
    | ok n =>
        rw [hn] at hrun
        cases hrun
        exact burnThen_used_le fun _ => rfl
  split at hrun
  · cases hrun
    unfold callDeny
    split <;> exact h
  split at hrun
  · cases hrun
    exact callWrite_used_le h _
  split at hrun
  · cases hrun
    exact burnThen_used_le fun _ => rfl
  · cases hrun
    exact burnThen_used_le fun _ => rfl

/-- Whatever a call does, the fuel it reports is within its limit. -/
theorem call_used_le {code exportName args : Bytes} {storage : Storage} {caller : AccountName}
    {res : CallResult} (h : call code exportName args storage limits caller = .ok res) :
    res.fuelUsed ≤ limits.fuel := by
  have hzero : (0 : UInt64) ≤ limits.fuel := UInt64.le_iff_toNat_le.mpr (Nat.zero_le _)
  unfold call at h
  simp only at h
  split at h
  · cases h
    exact hzero
  split at h
  · cases h
    exact hzero
  rw [burn_eq] at h
  split at h
  · next hover =>
      split at hover
      · cases hover
      · cases hover
        cases h
        exact UInt64.le_refl _
  · next hpaid =>
      split at hpaid
      · next hle =>
          cases hpaid
          refine callCommand_used_le ?_ h
          rw [UInt64.le_iff_toNat_le, UInt64.toNat_add]
          exact hle
      · cases hpaid

/-- When fuel can be bypassed: exactly when the sum asked for wraps to something
the limit covers, in a call that gets past its base charge. -/
theorem fuel_law_iff (code exportName args initArgs : Bytes) (storage : Storage)
    (limits : HostLimits) (caller : AccountName) :
    (FuelLaw (call code exportName args storage limits caller) limits (requestedFuel limits args) ↔
        ¬ (code ≠ [] ∧ exportName ≠ [] ∧ 50 ≤ limits.fuel.toNat ∧
          Wraps limits (requestedFuel limits args))) ∧
      (FuelLaw (.ok (deployAndInit code initArgs limits)) limits (deployFuel code) ↔
        ¬ (code ≠ [] ∧ Wraps limits (deployFuel code))) :=
  ⟨fuelLaw_call code exportName args storage limits caller, fuelLaw_deploy code initArgs limits⟩

/-- `BURN:18446744073709551615` succeeds under a limit of a thousand and is said
to have used 49. -/
theorem fuel_bypassed :
    ¬ FuelLaw (call [1] (text "run") (text "BURN:18446744073709551615") ∅ { fuel := 1000 } [])
      { fuel := 1000 } (requestedFuel { fuel := 1000 } (text "BURN:18446744073709551615")) := by
  intro h
  have hrun : (call [1] (text "run") (text "BURN:18446744073709551615") ∅ { fuel := 1000 }
      []).toOption.map (fun r => (r.success, r.fuelUsed)) = some (true, 49) := by decide +kernel
  obtain ⟨r, hr, hpair⟩ := Option.map_eq_some_iff.mp hrun
  have hasked : requestedFuel { fuel := 1000 } (text "BURN:18446744073709551615") =
      50 + 18446744073709551615 := by decide +kernel
  rw [hasked] at h
  cases hcall : call [1] (text "run") (text "BURN:18446744073709551615") ∅ { fuel := 1000 } [] with
  | error ex =>
      rw [hcall] at hr
      cases hr
  | ok x =>
      rw [hcall] at hr
      cases hr
      have hle := (h.paid r hcall (congrArg Prod.fst hpair)).1
      exact absurd hle (by decide)

end HiveNative.Contracts
