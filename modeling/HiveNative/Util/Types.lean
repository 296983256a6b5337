import HiveNative.Util.Crypto

/-!
# Portable types

The constants, type aliases and helpers of `util/types.hpp`.

An enumeration of the source is an `enum class` over `uint8_t`, so a value that
is none of its enumerators can be put in a field by a cast.  The validators
check for that, and the inductive types keep such values as `unknown`.

A `protocol_error` carries its text.  The two other exceptions are those that
`std::stoull` throws.  A signed overflow has no defined result in the source:
the model does not pick one, the program stops with `Stop.undefined`, which is
not an exception.
-/

namespace HiveNative

/-- The bytes of an ASCII literal. -/
def text (s : String) : Bytes := s.toList.map fun c => UInt8.ofNat c.toNat

/-- The decimal digits of a number, as an output stream or `std::to_string`
writes them. -/
def decimal (n : UInt64) : Bytes := (Nat.toDigits 10 n.toNat).map fun c => UInt8.ofNat c.toNat

/-! ## Constants -/

def hiveHardforkNft : UInt32 := 9001
def hiveHardforkHtlc : UInt32 := 9002
def hiveHardforkContracts : UInt32 := 9003

def maxAccountNameLen : Nat := 16
def maxNftSymbolLen : Nat := 16
def maxNftNameLen : Nat := 64
def maxNftUriLen : Nat := 256
def maxMemoLen : Nat := 2048
def maxHtlcPreimageLen : Nat := 1024
def maxContractExport : Nat := 64
def maxContractArgs : Nat := 64 * 1024
def maxCodeBytes : Nat := 512 * 1024

def htlcMinDurationSec : Int := 60
def htlcMaxDurationSec : Int := 30 * 24 * 3600
def htlcMaxOpenPerAccount : UInt32 := 256

/-! ## Aliases and assets -/

abbrev AccountName := Bytes
abbrev TimePointSec := UInt32
abbrev ShareType := Int64
abbrev CollectionId := UInt64
abbrev NftId := UInt64
abbrev HtlcId := UInt64
abbrev ContractId := UInt64

/-- `asset_symbol`.  `unknown` is any other byte. -/
inductive AssetSymbol where
  | hive
  | hbd
  | unknown (raw : UInt8) (notNamed : 2 ≤ raw)
deriving Repr, DecidableEq

structure Asset where
  amount : ShareType := 0
  symbol : AssetSymbol := .hive
deriving Repr, DecidableEq

def Asset.isPositive (a : Asset) : Bool := a.amount > 0

/-- `hash_algo`.  `unknown` is any other byte. -/
inductive HashAlgo where
  | sha256
  | ripemd160
  | unknown (raw : UInt8) (notNamed : 2 ≤ raw)
deriving Repr, DecidableEq

structure HashDigest where
  algo : HashAlgo := .sha256
  bytes : Bytes := []
deriving Repr, DecidableEq

/-! ## Failures -/

/-- The C++ exceptions the program throws. -/
inductive Exception where
  | protocolError (what : String)
  | invalidArgument (what : String)
  | outOfRange (what : String)
deriving Repr, DecidableEq

/-- Why a program stopped before its end: it threw, or it reached an operation
the language leaves undefined. -/
inductive Stop where
  | threw (e : Exception)
  | undefined
deriving Repr, DecidableEq

/-- `if(c) throw protocol_error(what);` -/
def throwIf (c : Prop) [Decidable c] (what : String) : Except Exception Unit :=
  if c then throw (.protocolError what) else pure ()

@[simp] theorem throwIf_eq_ok {c : Prop} [Decidable c] {what : String} {u : Unit} :
    throwIf c what = .ok u ↔ ¬ c := by
  unfold throwIf
  split
  · next h => simp [throw, throwThe, MonadExceptOf.throw, h]
  · next h => simp [pure, Except.pure, h]

/-- A check and what follows it. -/
theorem check_bind_eq_ok {ε β : Type} {x : Except ε Unit} {f : Unit → Except ε β} {b : β} :
    (x >>= f) = .ok b ↔ x = .ok () ∧ f () = .ok b := by
  cases x with
  | ok a => simp [bind, Except.bind]
  | error e => simp [bind, Except.bind]

/-! ## Checks of names and lengths -/

/-- The characters an account name may have. -/
def accountNameChar (c : UInt8) : Bool :=
  (97 ≤ c && c ≤ 122) || (48 ≤ c && c ≤ 57) || c == 46 || c == 45

def assertAccountName (name : AccountName) : Except Exception Unit := do
  throwIf (name.isEmpty ∨ name.length > maxAccountNameLen) "invalid account name length"
  throwIf (¬ name.all accountNameChar) "invalid account name character"

def assertLen (s : Bytes) (max : Nat) (what : String) : Except Exception Unit :=
  throwIf (s.length > max) (what ++ " too long")

/-- What `assert_account_name` accepts. -/
structure ValidName (name : AccountName) : Prop where
  nonempty : name ≠ []
  short : name.length ≤ maxAccountNameLen
  chars : ∀ c ∈ name, accountNameChar c

@[simp] theorem assertAccountName_eq_ok {name : AccountName} {u : Unit} :
    assertAccountName name = .ok u ↔ ValidName name := by
  simp only [assertAccountName, check_bind_eq_ok, throwIf_eq_ok, List.isEmpty_iff, not_or,
    not_lt, not_not, List.all_eq_true]
  constructor
  · rintro ⟨⟨hne, hlen⟩, hch⟩
    exact ⟨hne, hlen, hch⟩
  · rintro ⟨hne, hlen, hch⟩
    exact ⟨⟨hne, hlen⟩, hch⟩

@[simp] theorem assertLen_eq_ok {s : Bytes} {max : Nat} {what : String} {u : Unit} :
    assertLen s max what = .ok u ↔ s.length ≤ max := by
  simp [assertLen]

/-! ## Digests -/

/-- `digest_of`.  Every algorithm that is not SHA-256 is taken as RIPEMD-160. -/
def digestOf (algo : HashAlgo) (preimage : Bytes) : HashDigest :=
  match algo with
  | .sha256 => { algo := algo, bytes := (sha256 preimage).toList }
  | _ => { algo := algo, bytes := (ripemd160 preimage).toList }

/-- `constant_time_equal`: the differences of all byte pairs are collected before
the verdict. -/
def constantTimeEqual (a b : Bytes) : Bool :=
  if a.length ≠ b.length then false
  else (a.zip b).foldl (fun diff p => diff ||| (p.1 ^^^ p.2)) 0 == 0

theorem foldl_diff_eq_zero (l : List (UInt8 × UInt8)) (d : UInt8) :
    l.foldl (fun diff p => diff ||| (p.1 ^^^ p.2)) d = 0 ↔ d = 0 ∧ ∀ p ∈ l, p.1 = p.2 := by
  induction l generalizing d with
  | nil => simp
  | cons p l ih =>
      rw [List.foldl_cons, ih, UInt8.or_eq_zero_iff, UInt8.xor_eq_zero_iff]
      simp [and_assoc]

/-- The collecting loop decides equality of byte strings. -/
theorem constantTimeEqual_iff (a b : Bytes) : constantTimeEqual a b = true ↔ a = b := by
  unfold constantTimeEqual
  split
  · next h =>
      simp only [Bool.false_eq_true, false_iff]
      exact fun he => h (by rw [he])
  · next h =>
      rw [beq_iff_eq, foldl_diff_eq_zero]
      have hlen : a.length = b.length := not_not.mp h
      constructor
      · rintro ⟨-, hall⟩
        have hmap : (a.zip b).map Prod.fst = (a.zip b).map Prod.snd :=
          List.map_congr_left hall
        rwa [List.map_fst_zip hlen.le, List.map_snd_zip hlen.ge] at hmap
      · intro he
        subst he
        refine ⟨rfl, fun p hp => ?_⟩
        rw [List.zip_eq_zipWith, List.zipWith_self] at hp
        obtain ⟨x, -, rfl⟩ := List.mem_map.mp hp
        rfl

end HiveNative
