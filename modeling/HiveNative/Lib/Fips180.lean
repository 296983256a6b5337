import Mathlib
import HiveNative.Lib.MerkleDamgard
import HiveNative.Lib.Octets
import HiveNative.Lib.RootConstants

/-!
# SHA-256 as FIPS 180-4 has it

The functions, the constants and the message schedule of the standard, in its own
terms: words are bit vectors, a rotation is a rotation, and `W_t` is a recursion
on `t`.  The constants are not a table.  They are the first 32 bits of the
fractional parts of the roots of the first primes, which is how the standard
explains its table.
-/

namespace Fips180

open Octets RootConstants

/-- The chaining value `H`, and the working variables `a` to `h`. -/
abbrev Hash := Vector Word 8

def Ch (x y z : Word) : Word := (x &&& y) ^^^ (~~~x &&& z)

def Maj (x y z : Word) : Word := (x &&& y) ^^^ (x &&& z) ^^^ (y &&& z)

/-- `Σ₀`. -/
def bigSigma0 (x : Word) : Word := x.rotateRight 2 ^^^ x.rotateRight 13 ^^^ x.rotateRight 22

/-- `Σ₁`. -/
def bigSigma1 (x : Word) : Word := x.rotateRight 6 ^^^ x.rotateRight 11 ^^^ x.rotateRight 25

/-- `σ₀`. -/
def smallSigma0 (x : Word) : Word := x.rotateRight 7 ^^^ x.rotateRight 18 ^^^ (x >>> 3)

/-- `σ₁`. -/
def smallSigma1 (x : Word) : Word := x.rotateRight 17 ^^^ x.rotateRight 19 ^^^ (x >>> 10)

/-- The round constant `K_t`, from the cube root of a prime. -/
noncomputable def K (t : Nat) : Word := scaledRoot 32 3 (Nat.nth Nat.Prime t)

/-- The word `i` of the initial hash value, from the square root of a prime. -/
noncomputable def H0 : Hash := Vector.ofFn fun i => scaledRoot 32 2 (Nat.nth Nat.Prime i)

/-- The word `W_t` of the message schedule of the block with the words `M`. -/
def W (M : Nat → Word) (t : Nat) : Word :=
  if t < 16 then M t
  else smallSigma1 (W M (t - 2)) + W M (t - 7) + smallSigma0 (W M (t - 15)) + W M (t - 16)

/-- One round, with the constant `k` and the schedule word `w`. -/
def round (v : Hash) (k w : Word) : Hash :=
  let T1 := v[7] + bigSigma1 v[4] + Ch v[4] v[5] v[6] + k + w
  let T2 := bigSigma0 v[0] + Maj v[0] v[1] v[2]
  #v[T1 + T2, v[0], v[1], v[2], v[3] + T1, v[4], v[5], v[6]]

/-- The hash value after a block. -/
noncomputable def compress (H : Hash) (block : List UInt8) : Hash :=
  let v := (List.range 64).foldl (fun v t => round v (K t) (W (wordBE block) t)) H
  H.zipWith (· + ·) v

/-- The padded message: `0x80`, the least number of zeros, and the length in bits. -/
def padded (m : Message) : List UInt8 :=
  MerkleDamgard.pad 64 0x80 0 (octetsBE 8 m.bitLength) m.octets

/-- The digest of a message. -/
noncomputable def sha256 (m : Message) : List UInt8 :=
  (MerkleDamgard.run 64 compress H0 (padded m)).toList.flatMap (octetsBE 4)

theorem W_lt {M : Nat → Word} {t : Nat} (h : t < 16) : W M t = M t := by
  rw [W, if_pos h]

theorem W_ge {M : Nat → Word} {t : Nat} (h : 16 ≤ t) :
    W M t =
      smallSigma1 (W M (t - 2)) + W M (t - 7) + smallSigma0 (W M (t - 15)) + W M (t - 16) := by
  rw [W, if_neg (by omega)]

end Fips180
