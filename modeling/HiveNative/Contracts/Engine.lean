import HiveNative.Util.Types

/-!
# The null contract engine

`null_engine` of `contracts/engine.cpp`, the metering engine the portable
library links by default.  There is no bytecode: the argument bytes are read as
one command of a small language, each command asks `burn` for an amount of fuel,
and a write is staged in the result for the caller to commit.

Fuel is `uint64_t` and `burn` adds before it compares, both modulo `2^64`.

`std::stoull` is modelled after C `strtoull` in base ten: white space, one
optional sign, digits, and the rest of the string ignored.  A minus sign negates
the value modulo `2^64`.  It throws when there is no digit and when the digits
exceed the range.
-/

namespace HiveNative.Contracts

open Std

/-- The limits of one engine run.  The null engine reads neither the memory limit
nor the limit on the total storage. -/
structure HostLimits where
  fuel : UInt64 := 0
  maxMemoryBytes : UInt64 := 4 * 1024 * 1024
  maxStorageKey : UInt64 := 256
  maxStorageValue : UInt64 := 4096
  maxStorageTotal : UInt64 := 64 * 1024
deriving Repr, DecidableEq

/-- The storage of one contract. -/
abbrev Storage := ExtTreeMap Bytes Bytes

structure CallResult where
  success : Bool := false
  fuelUsed : UInt64 := 0
  error : String := ""
  /-- Staged writes, for the caller to commit on success. -/
  storageWrites : Storage := ∅
  deniedHosts : List String := []

/-! ## Host functions -/

inductive HostFn where
  | readStorage
  | writeStorage
  | removeStorage
  | getCaller
  | getContractId
  | getBlockTime
  | getBalance
  | sha256Host
  | logMsg
  | abortCall
  | transfer
  | net
  | fs
  | random
  | wallClock
deriving Repr, DecidableEq

def hostAllowed : HostFn → Bool
  | .transfer => false
  | .net => false
  | .fs => false
  | .random => false
  | .wallClock => false
  | _ => true

def hostFuelWeight (f : HostFn) (bytes : UInt64 := 0) : UInt64 :=
  match f with
  | .readStorage => 50 + bytes
  | .writeStorage => 200 + bytes * 2
  | .removeStorage => 80
  | .getCaller => 10
  | .getContractId => 10
  | .getBlockTime => 10
  | .getBalance => 40
  | .sha256Host => 30 + bytes
  | .logMsg => 20 + bytes
  | .abortCall => 1
  | _ => 1000000

/-! ## Numbers -/

/-- `isspace` in the C locale. -/
def isSpace (c : UInt8) : Bool := c == 32 || (9 ≤ c && c ≤ 13)

def isDigit (c : UInt8) : Bool := 48 ≤ c && c ≤ 57

/-- The value of a digit string, most significant digit first. -/
def digitsValue (ds : Bytes) : Nat := ds.foldl (fun n c => n * 10 + (c.toNat - 48)) 0

/-- `std::stoull`. -/
def stoull (s : Bytes) : Except Exception UInt64 :=
  let s := s.dropWhile isSpace
  let negative := s.head? == some 45
  let s := if s.head? == some 45 || s.head? == some 43 then s.tail else s
  let ds := s.takeWhile isDigit
  if ds.isEmpty then .error (.invalidArgument "stoull")
  else if digitsValue ds ≥ 2 ^ 64 then .error (.outOfRange "stoull")
  else
    let n := UInt64.ofNat (digitsValue ds)
    .ok (if negative then 0 - n else n)

/-! ## Metering -/

/-- `burn`: whether the amount was paid, and the result so far.  Out of fuel, the
whole limit counts as used. -/
def burn (r : CallResult) (lim : HostLimits) (amount : UInt64) : Bool × CallResult :=
  if r.fuelUsed + amount > lim.fuel then
    (false, { r with success := false, error := "out of fuel", fuelUsed := lim.fuel })
  else (true, { r with fuelUsed := r.fuelUsed + amount })

/-- `if(!burn(r, lim, amount)) return r;` followed by the rest. -/
def burnThen (r : CallResult) (lim : HostLimits) (amount : UInt64)
    (rest : CallResult → CallResult) : CallResult :=
  match burn r lim amount with
  | (false, r) => r
  | (true, r) => rest r

def CallResult.succeed (r : CallResult) : CallResult := { r with success := true }

def CallResult.fail (r : CallResult) (error : String) : CallResult := { r with error := error }

/-! ## Deploy and call -/

def deployAndInit (code _initArgs : Bytes) (limits : HostLimits) : CallResult :=
  let r : CallResult := {}
  if code.isEmpty then r.fail "empty code"
  else burnThen r limits (100 + UInt64.ofNat (code.length / 64)) CallResult.succeed

/-- The index of the first `:`, as `std::string::find` gives it. -/
def findColon (s : Bytes) : Option Nat := s.findIdx? (· == 58)

/-- The `WRITE:` command.  `rest` is what follows the prefix. -/
def callWrite (r : CallResult) (limits : HostLimits) (rest : Bytes) : CallResult :=
  match findColon rest with
  | none => r.fail "bad WRITE"
  | some pos =>
      let key := rest.take pos
      let val := rest.drop (pos + 1)
      if key.length > limits.maxStorageKey.toNat ∨ val.length > limits.maxStorageValue.toNat then
        r.fail "storage size limit"
      else
        burnThen r limits (hostFuelWeight .writeStorage (UInt64.ofNat val.length)) fun r =>
          { r with storageWrites := r.storageWrites.insert key val, success := true }

/-- The `DENY:` command. -/
def callDeny (r : CallResult) (which : Bytes) : CallResult :=
  if which = text "transfer" ∧ ¬ hostAllowed .transfer then
    { r with
      deniedHosts := r.deniedHosts ++ ["transfer"]
      error := "host function denied: transfer"
      success := false }
  else r.fail "unknown deny target"

/-- `cmd.rfind(p, 0) == 0`. -/
def startsWith (p cmd : Bytes) : Bool := p.isPrefixOf cmd

/-- The command after the base charge is paid.  The storage is not read. -/
def callCommand (r : CallResult) (limits : HostLimits) (cmd : Bytes) :
    Except Exception CallResult :=
  if cmd.isEmpty ∨ cmd = text "OK" then .ok r.succeed
  else if startsWith (text "BURN:") cmd then do
    let n ← stoull (cmd.drop 5)
    return burnThen r limits n CallResult.succeed
  else if startsWith (text "DENY:") cmd then .ok (callDeny r (cmd.drop 5))
  else if startsWith (text "WRITE:") cmd then .ok (callWrite r limits (cmd.drop 6))
  else if startsWith (text "READ:") cmd then
    .ok (burnThen r limits (hostFuelWeight .readStorage 0) CallResult.succeed)
  else .ok (burnThen r limits (20 + UInt64.ofNat cmd.length) CallResult.succeed)

/-- `null_engine::call`.  Only `std::stoull` can throw here. -/
def call (code exportName args : Bytes) (_storage : Storage) (limits : HostLimits)
    (_caller : AccountName) : Except Exception CallResult :=
  let r : CallResult := {}
  if code.isEmpty then .ok (r.fail "empty code")
  else if exportName.isEmpty then .ok (r.fail "empty export")
  else
    match burn r limits 50 with
    | (false, r) => .ok r
    | (true, r) => callCommand r limits args

/-! ## What a call stages -/

/-- The key and the value of a `WRITE:` command. -/
def staged (cmd : Bytes) : Option (Bytes × Bytes) :=
  if startsWith (text "WRITE:") cmd then
    (findColon (cmd.drop 6)).map fun pos =>
      ((cmd.drop 6).take pos, (cmd.drop 6).drop (pos + 1))
  else none

theorem startsWith_cons {c : UInt8} {p cmd : Bytes} (h : startsWith (c :: p) cmd = true) :
    cmd.head? = some c := by
  cases cmd with
  | nil => cases h
  | cons d cmd =>
      simp only [startsWith, List.isPrefixOf, Bool.and_eq_true, beq_iff_eq] at h
      rw [h.1]
      rfl

theorem burnThen_success {r : CallResult} {lim : HostLimits} {amount : UInt64}
    {rest : CallResult → CallResult} (h : (burnThen r lim amount rest).success = true) :
    burnThen r lim amount rest = rest { r with fuelUsed := r.fuelUsed + amount } := by
  unfold burnThen burn at h ⊢
  by_cases hout : r.fuelUsed + amount > lim.fuel
  · rw [if_pos hout] at h
    cases h
  · rw [if_neg hout]

theorem burnThen_succeed_writes {r : CallResult} {lim : HostLimits} {amount : UInt64}
    (h : (burnThen r lim amount CallResult.succeed).success = true) :
    (burnThen r lim amount CallResult.succeed).storageWrites = r.storageWrites := by
  rw [burnThen_success h]
  rfl

theorem callDeny_success {r : CallResult} (hr : r.success = false) (which : Bytes) :
    (callDeny r which).success = false := by
  unfold callDeny
  split
  · rfl
  · exact hr

theorem callWrite_writes {r : CallResult} {limits : HostLimits} {rest : Bytes}
    (hr : r.success = false) (hw : r.storageWrites = ∅)
    (hs : (callWrite r limits rest).success = true) :
    ∃ pos, findColon rest = some pos ∧ (callWrite r limits rest).storageWrites =
      (∅ : Storage).insert (rest.take pos) (rest.drop (pos + 1)) := by
  unfold callWrite at hs ⊢
  cases hpos : findColon rest with
  | none =>
      simp only [hpos, CallResult.fail, hr] at hs
      cases hs
  | some pos =>
      refine ⟨pos, rfl, ?_⟩
      simp only [hpos] at hs ⊢
      split at hs
      · rw [CallResult.fail, hr] at hs
        cases hs
      · next hsize => rw [if_neg hsize, burnThen_success hs, hw]

theorem staged_of_not_write {cmd : Bytes} (h : ¬ startsWith (text "WRITE:") cmd = true) :
    staged cmd = none := by
  rw [staged, if_neg h]

theorem callCommand_writes {r r' : CallResult} {limits : HostLimits} {cmd : Bytes}
    (hr : r.success = false) (hw : r.storageWrites = ∅)
    (h : callCommand r limits cmd = .ok r') (hs : r'.success = true) :
    r'.storageWrites = (staged cmd).elim ∅ fun kv => (∅ : Storage).insert kv.1 kv.2 := by
  unfold callCommand at h
  split at h
  · next hok =>
      have hno : ¬ startsWith (text "WRITE:") cmd = true := by
        cases hok with
        | inl hnil =>
            rw [List.isEmpty_iff.mp hnil]
            decide
        | inr hok =>
            rw [hok]
            decide
      cases h
      rw [staged_of_not_write hno]
      exact hw
  split at h
  · next hburn =>
      -- a command has one first letter
      have hno : ¬ startsWith (text "WRITE:") cmd = true := by
        intro hwrite
        have hhead := (startsWith_cons hburn).symm.trans (startsWith_cons hwrite)
        exact absurd hhead (by decide)
      cases hn : stoull (cmd.drop 5) with
      | error ex =>
          rw [hn] at h
          cases h
      | ok n =>
          rw [hn] at h
          cases h
          rw [staged_of_not_write hno, burnThen_succeed_writes hs]
          exact hw
  split at h
  · cases h
    rw [callDeny_success hr] at hs
    cases hs
  split at h
  · next hwrite =>
      cases h
      obtain ⟨pos, hpos, hwrites⟩ := callWrite_writes hr hw hs
      rw [hwrites, staged, if_pos hwrite, hpos]
      rfl
  · next hno =>
      rw [staged_of_not_write hno]
      split at h
      · cases h
        rw [burnThen_succeed_writes hs]
        exact hw
      · cases h
        rw [burnThen_succeed_writes hs]
        exact hw

/-- A call that succeeds has staged the write of its command and nothing else. -/
theorem call_writes {code exportName args : Bytes} {storage : Storage} {limits : HostLimits}
    {caller : AccountName} {r : CallResult}
    (h : call code exportName args storage limits caller = .ok r) (hs : r.success = true) :
    r.storageWrites = (staged args).elim ∅ fun kv => (∅ : Storage).insert kv.1 kv.2 := by
  unfold call at h
  simp only at h
  split at h
  · cases h
    cases hs
  split at h
  · cases h
    cases hs
  split at h
  · next hburn =>
      cases h
      unfold burn at hburn
      split at hburn
      · cases hburn
        cases hs
      · cases hburn
  · next hburn =>
      unfold burn at hburn
      split at hburn
      · cases hburn
      · cases hburn
        exact callCommand_writes rfl rfl h hs

end HiveNative.Contracts
