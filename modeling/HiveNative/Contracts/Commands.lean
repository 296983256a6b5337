import HiveNative.Contracts.Fuel

/-!
# What the commands of the engine come to

The engine answers every command with a result, except for one.  The number of a
`BURN:` command is read by `std::stoull`, which throws on a text that is no number
or too large a number (`call_throws_iff`).
-/

namespace HiveNative.Contracts

open Std (ExtTreeMap)

/-! ## When the engine throws -/

/-- The command is a `BURN:` whose number cannot be read. -/
def UnreadableBurn (cmd : Bytes) : Prop :=
  startsWith (text "BURN:") cmd = true ∧ ∃ ex, stoull (cmd.drop 5) = .error ex

instance (cmd : Bytes) : Decidable (UnreadableBurn cmd) :=
  match h : stoull (cmd.drop 5) with
  | .error ex => decidable_of_iff (startsWith (text "BURN:") cmd = true)
      ⟨fun hs => ⟨hs, ex, h⟩, fun hs => hs.1⟩
  | .ok _ => .isFalse fun hs => by
      obtain ⟨-, ex, hex⟩ := hs
      rw [h] at hex
      cases hex

theorem callCommand_throws_iff {r : CallResult} {limits : HostLimits} {cmd : Bytes} :
    (∃ ex, callCommand r limits cmd = .error ex) ↔ UnreadableBurn cmd := by
  by_cases hburn : startsWith (text "BURN:") cmd = true
  · have hlong : ¬ (cmd.isEmpty = true ∨ cmd = text "OK") := by
      intro hshort
      cases hshort with
      | inl hnil =>
          rw [List.isEmpty_iff.mp hnil] at hburn
          exact absurd hburn (by decide)
      | inr hok =>
          rw [hok] at hburn
          exact absurd hburn (by decide)
    rw [callCommand, if_neg hlong, if_pos hburn]
    cases hn : stoull (cmd.drop 5) with
    | error ex => exact iff_of_true ⟨ex, rfl⟩ ⟨hburn, ex, hn⟩
    | ok n =>
        refine iff_of_false (fun hex => ?_) (fun hun => ?_)
        · obtain ⟨ex, hex⟩ := hex
          cases hex
        · obtain ⟨-, ex, hex⟩ := hun
          rw [hn] at hex
          cases hex
  · refine iff_of_false (fun hex => ?_) (fun hun => hburn hun.1)
    obtain ⟨ex, hex⟩ := hex
    simp only [callCommand, if_neg hburn] at hex
    split at hex
    · cases hex
    split at hex
    · cases hex
    split at hex
    · cases hex
    split at hex
    · cases hex
    · cases hex

/-! ## The base charge -/

section Call

variable {code exportName args : Bytes} {storage : Storage} {limits : HostLimits}
  {caller : AccountName}

theorem call_of_paid (hcode : code ≠ []) (hexport : exportName ≠ []) (hpaid : 50 ≤ limits.fuel) :
    call code exportName args storage limits caller = callCommand afterBase limits args := by
  have hburn : burn {} limits 50 = (true, afterBase) := by
    have hin : ¬ (({} : CallResult).fuelUsed + 50 > limits.fuel) := UInt64.not_lt.mpr hpaid
    rw [burn, if_neg hin]
    rfl
  rw [call, if_neg (by simpa using hcode), if_neg (by simpa using hexport)]
  simp only [hburn]

theorem call_of_unpaid (hcode : code ≠ []) (hexport : exportName ≠ [])
    (hpaid : ¬ 50 ≤ limits.fuel) :
    ∃ r, call code exportName args storage limits caller = .ok r ∧ r.success = false := by
  have hout : ({} : CallResult).fuelUsed + 50 > limits.fuel := UInt64.not_le.mp hpaid
  rw [call, if_neg (by simpa using hcode), if_neg (by simpa using hexport)]
  simp only [burn, if_pos hout]
  exact ⟨_, rfl, rfl⟩

/-- The engine throws on an unreadable `BURN:` once the base charge is paid. -/
theorem call_throws_iff (hcode : code ≠ []) (hexport : exportName ≠ []) :
    (∃ ex, call code exportName args storage limits caller = .error ex) ↔
      50 ≤ limits.fuel ∧ UnreadableBurn args := by
  by_cases hpaid : 50 ≤ limits.fuel
  · rw [call_of_paid hcode hexport hpaid, callCommand_throws_iff]
    exact (and_iff_right hpaid).symm
  · refine iff_of_false (fun hex => ?_) fun h => hpaid h.1
    obtain ⟨ex, hex⟩ := hex
    have hreturns : ∃ r, call code exportName args storage limits caller = .ok r ∧
        r.success = false := call_of_unpaid hcode hexport hpaid
    obtain ⟨r, hr, -⟩ := hreturns
    rw [hr] at hex
    cases hex

end Call

/-! ## Writes -/

/-- The text of the command that writes `v` at `k`. -/
def writeArgs (k v : Bytes) : Bytes := text "WRITE:" ++ k ++ text ":" ++ v

theorem findColon_eq_some {s : Bytes} {pos : ℕ} (h : findColon s = some pos) :
    s = s.take pos ++ 58 :: s.drop (pos + 1) ∧ 58 ∉ s.take pos := by
  obtain ⟨hlt, hcolon, hbefore⟩ := List.findIdx?_eq_some_iff_getElem.mp h
  constructor
  · have hget : s[pos] = 58 := by simpa using hcolon
    rw [← hget, ← List.drop_eq_getElem_cons hlt, List.take_append_drop]
  · intro hmem
    obtain ⟨i, hi, hat⟩ := List.mem_take_iff_getElem.mp hmem
    exact hbefore i (by omega) (by simpa using hat)

theorem findColon_append {k : Bytes} (h : 58 ∉ k) (v : Bytes) :
    findColon (k ++ 58 :: v) = some k.length := by
  unfold findColon
  rw [List.findIdx?_append, List.findIdx?_eq_none_iff.mpr]
  · simp [List.findIdx?_cons]
  · intro c hc
    have hne : c ≠ 58 := fun heq => h (heq ▸ hc)
    simpa using hne

theorem writeArgs_eq (k v : Bytes) : writeArgs k v = text "WRITE:" ++ (k ++ 58 :: v) := by
  rw [writeArgs, List.append_assoc, List.append_assoc]
  rfl

theorem startsWith_writeArgs (k v : Bytes) :
    startsWith (text "WRITE:") (writeArgs k v) = true := by
  rw [writeArgs_eq]
  exact List.isPrefixOf_iff_prefix.mpr (List.prefix_append _ _)

theorem drop_writeArgs (k v : Bytes) : (writeArgs k v).drop 6 = k ++ 58 :: v := by
  rw [writeArgs_eq]
  exact List.drop_left' (by decide)

/-- The command stages a write of `v` at `k` exactly when it is the text of that
write, and `k` has no colon. -/
theorem staged_eq_some {cmd k v : Bytes} :
    staged cmd = some (k, v) ↔ cmd = writeArgs k v ∧ 58 ∉ k := by
  constructor
  · intro h
    unfold staged at h
    split at h
    · next hwrite =>
        obtain ⟨rest, rfl⟩ := List.isPrefixOf_iff_prefix.mp hwrite
        rw [List.drop_left' (by decide)] at h
        obtain ⟨pos, hpos, hkv⟩ := Option.map_eq_some_iff.mp h
        cases hkv
        obtain ⟨hsplit, hplain⟩ := findColon_eq_some hpos
        refine ⟨?_, hplain⟩
        rw [writeArgs_eq, ← hsplit]
    · cases h
  · intro h
    obtain ⟨rfl, hplain⟩ := h
    rw [staged, if_pos (startsWith_writeArgs k v), drop_writeArgs, findColon_append hplain]
    simp

/-- The text of a write is executed as a write, and as no other command. -/
theorem callCommand_writeArgs (r : CallResult) (limits : HostLimits) (k v : Bytes) :
    callCommand r limits (writeArgs k v) = .ok (callWrite r limits (k ++ 58 :: v)) := by
  have hwrite := startsWith_writeArgs k v
  have hhead := startsWith_cons hwrite
  have hother : ∀ {c : UInt8} {p : Bytes},
      c ≠ 87 → ¬ startsWith (c :: p) (writeArgs k v) = true := by
    intro c p hc hstart
    exact hc (Option.some.inj ((startsWith_cons hstart).symm.trans hhead))
  have hlong : ¬ ((writeArgs k v).isEmpty = true ∨ writeArgs k v = text "OK") := by
    intro hshort
    cases hshort with
    | inl hnil =>
        rw [List.isEmpty_iff.mp hnil] at hhead
        cases hhead
    | inr hok =>
        rw [hok] at hhead
        exact absurd hhead (by decide)
  have hburn : ¬ startsWith (text "BURN:") (writeArgs k v) = true := hother (by decide)
  have hdeny : ¬ startsWith (text "DENY:") (writeArgs k v) = true := hother (by decide)
  rw [callCommand, if_neg hlong, if_neg hburn, if_neg hdeny, if_pos hwrite, drop_writeArgs]

/-- A write succeeds when it is within the size limits and can be paid.  The sizes
keep the sum of the charges below `2^64`. -/
theorem callWrite_success_iff {fuel : UInt64} {k v : Bytes} (hplain : 58 ∉ k) :
    (callWrite afterBase { fuel := fuel } (k ++ 58 :: v)).success = true ↔
      k.length ≤ 256 ∧ v.length ≤ 4096 ∧ 250 + 2 * v.length ≤ fuel.toNat := by
  have hval : (k ++ 58 :: v).drop (k.length + 1) = v := by
    rw [List.drop_length_add_append]
    rfl
  simp only [callWrite, findColon_append hplain, List.take_left, hval, UInt64.reduceToNat]
  by_cases hsize : k.length > 256 ∨ v.length > 4096
  · rw [if_pos hsize]
    refine iff_of_false Bool.false_ne_true fun h => ?_
    omega
  · rw [if_neg hsize]
    have hcost : (afterBase.fuelUsed.toNat +
        (hostFuelWeight .writeStorage (UInt64.ofNat v.length)).toNat) % 2 ^ 64 =
        250 + 2 * v.length := by
      simp only [afterBase, hostFuelWeight, UInt64.toNat_add, UInt64.toNat_mul,
        UInt64.toNat_ofNat, UInt64.toNat_ofNat']
      omega
    unfold burnThen
    rw [burn_eq, hcost]
    by_cases hfuel : 250 + 2 * v.length ≤ fuel.toNat
    · rw [if_pos hfuel]
      exact iff_of_true rfl ⟨by omega, by omega, hfuel⟩
    · rw [if_neg hfuel]
      exact iff_of_false Bool.false_ne_true fun h => hfuel h.2.2

/-- When the engine lets a write succeed. -/
theorem call_write_iff {code exportName : Bytes} {storage : Storage} {fuel : UInt64}
    {caller : AccountName} {k v : Bytes} (hcode : code ≠ []) (hexport : exportName ≠ [])
    (hplain : 58 ∉ k) :
    (∃ r, call code exportName (writeArgs k v) storage { fuel := fuel } caller = .ok r ∧
        r.success = true) ↔
      k.length ≤ 256 ∧ v.length ≤ 4096 ∧ 250 + 2 * v.length ≤ fuel.toNat := by
  by_cases hpaid : 50 ≤ fuel
  · rw [call_of_paid hcode hexport hpaid, callCommand_writeArgs, ← callWrite_success_iff hplain]
    constructor
    · intro h
      obtain ⟨r, hr, hs⟩ := h
      cases hr
      exact hs
    · intro hs
      exact ⟨_, rfl, hs⟩
  · refine iff_of_false (fun h => ?_) fun h => ?_
    · obtain ⟨r, hr, hs⟩ := h
      have hrefused : ∃ r, call code exportName (writeArgs k v) storage { fuel := fuel } caller =
          .ok r ∧ r.success = false := call_of_unpaid hcode hexport hpaid
      obtain ⟨r', hr', hs'⟩ := hrefused
      rw [hr] at hr'
      cases hr'
      rw [hs] at hs'
      cases hs'
    · have hlt : fuel.toNat < 50 := UInt64.lt_iff_toNat_lt.mp (UInt64.not_le.mp hpaid)
      omega

end HiveNative.Contracts
