import Mathlib

/-!
# Words and octets

What the standards of hash functions say about words: how four octets make one,
how a word is written as octets, and what the length of a message is.  A word is
a bit vector here, so that a rotation is the rotation of its bits and a
concatenation that of its parts.

Programs do these things with shifts of machine words.  The last section says
that this comes to the same.
-/

namespace Octets

/-! ## Words -/

/-- A word of 32 bits. -/
abbrev Word := BitVec 32

/-- The word of four octets, the most significant first. -/
def join (b₃ b₂ b₁ b₀ : UInt8) : Word :=
  b₃.toBitVec ++ b₂.toBitVec ++ b₁.toBitVec ++ b₀.toBitVec

/-- The word `t` of a block, its first octet the most significant. -/
def wordBE (block : List UInt8) (t : Nat) : Word :=
  join (block.getD (4 * t) 0) (block.getD (4 * t + 1) 0) (block.getD (4 * t + 2) 0)
    (block.getD (4 * t + 3) 0)

/-- The word `t` of a block, its first octet the least significant. -/
def wordLE (block : List UInt8) (t : Nat) : Word :=
  join (block.getD (4 * t + 3) 0) (block.getD (4 * t + 2) 0) (block.getD (4 * t + 1) 0)
    (block.getD (4 * t) 0)

/-- The octet of a word with `i` octets below it. -/
def octet {n : Nat} (w : BitVec n) (i : Nat) : UInt8 := ⟨w.extractLsb' (8 * i) 8⟩

/-- A word as `k` octets, the least significant first. -/
def octetsLE (k : Nat) (w : BitVec (8 * k)) : List UInt8 := (List.range k).map (octet w)

/-- A word as `k` octets, the most significant first. -/
def octetsBE (k : Nat) (w : BitVec (8 * k)) : List UInt8 := (octetsLE k w).reverse

@[simp] theorem length_octetsLE (k : Nat) (w : BitVec (8 * k)) : (octetsLE k w).length = k := by
  simp [octetsLE]

@[simp] theorem length_octetsBE (k : Nat) (w : BitVec (8 * k)) : (octetsBE k w).length = k := by
  simp [octetsBE]

/-! ## Messages -/

/-- Both standards hash blocks of 64 octets. -/
instance neZero_blockLength : NeZero 64 := ⟨by decide⟩

/-- A message whose length in bits fits 64 bits. -/
structure Message where
  octets : List UInt8
  fits : 8 * octets.length < 2 ^ 64

theorem bits_fit {octets : List UInt8} (h : octets.length < 2 ^ 61) :
    8 * octets.length < 2 ^ 64 := by
  omega

/-- The length of a message in bits. -/
def Message.bitLength (m : Message) : BitVec (8 * 8) := BitVec.ofNatLT (8 * m.octets.length) m.fits

/-! ## The same with machine words -/

theorem toBitVec_shifts (b₃ b₂ b₁ b₀ : UInt8) :
    ((b₃.toUInt32 <<< 24) ||| (b₂.toUInt32 <<< 16) ||| (b₁.toUInt32 <<< 8) |||
      b₀.toUInt32).toBitVec = join b₃ b₂ b₁ b₀ := by
  have h24 : (24 : UInt32).toBitVec % 32 = 24#32 := by decide
  have h16 : (16 : UInt32).toBitVec % 32 = 16#32 := by decide
  have h8 : (8 : UInt32).toBitVec % 32 = 8#32 := by decide
  apply BitVec.eq_of_getLsbD_eq
  intro i hi
  simp only [join, UInt32.toBitVec_or, UInt32.toBitVec_shiftLeft, UInt8.toBitVec_toUInt32,
    h24, h16, h8, BitVec.getLsbD_or, BitVec.getLsbD_append, BitVec.shiftLeft_eq',
    BitVec.getLsbD_shiftLeft, BitVec.getLsbD_setWidth, hi, decide_true, Bool.true_and,
    BitVec.reduceToNat]
  -- A bit of the word is a bit of one octet, and the other shifts have none there.
  rcases (by omega : i < 8 ∨ (8 ≤ i ∧ i < 16) ∨ (16 ≤ i ∧ i < 24) ∨ 24 ≤ i) with
    h | h | h | h <;>
  simp (disch := omega) [if_pos, if_neg, decide_eq_true, decide_eq_false, Nat.sub_sub,
    BitVec.getLsbD_of_ge]

theorem toUInt8_shiftRight32 (w : UInt32) (i : Nat) (hi : i < 4) :
    (w >>> UInt32.ofNat (8 * i)).toUInt8 = octet w.toBitVec i := by
  have hshift : ((UInt32.ofNat (8 * i)).toBitVec % 32).toNat = 8 * i := by
    simp
    omega
  apply UInt8.toBitVec_inj.1
  rw [UInt32.toBitVec_toUInt8, UInt32.toBitVec_shiftRight, BitVec.ushiftRight_eq', hshift,
    BitVec.setWidth_ushiftRight_eq_extractLsb]
  rfl

/-- The four octets of a word, by shifts. -/
theorem octetsLE_shifts (w : UInt32) :
    octetsLE 4 w.toBitVec =
      [w.toUInt8, (w >>> 8).toUInt8, (w >>> 16).toUInt8, (w >>> 24).toUInt8] := by
  have h0 := toUInt8_shiftRight32 w 0 (by decide)
  have h1 := toUInt8_shiftRight32 w 1 (by decide)
  have h2 := toUInt8_shiftRight32 w 2 (by decide)
  have h3 := toUInt8_shiftRight32 w 3 (by decide)
  have hoctets : octetsLE 4 w.toBitVec =
      [octet w.toBitVec 0, octet w.toBitVec 1, octet w.toBitVec 2, octet w.toBitVec 3] := rfl
  rw [hoctets, ← h0, ← h1, ← h2, ← h3]
  simp

theorem toUInt8_shiftRight64 (w : UInt64) (i : Nat) (hi : i < 8) :
    (w >>> UInt64.ofNat (8 * i)).toUInt8 = octet w.toBitVec i := by
  have hshift : ((UInt64.ofNat (8 * i)).toBitVec % 64).toNat = 8 * i := by
    simp
    omega
  apply UInt8.toBitVec_inj.1
  rw [UInt64.toBitVec_toUInt8, UInt64.toBitVec_shiftRight, BitVec.ushiftRight_eq', hshift,
    BitVec.setWidth_ushiftRight_eq_extractLsb]
  rfl

theorem toBitVec_rotateRight (x n : UInt32) (h : n.toNat < 32) (hpos : 0 < n.toNat) :
    ((x >>> n) ||| (x <<< (32 - n))).toBitVec = x.toBitVec.rotateRight n.toNat := by
  have hright : (n.toBitVec % 32).toNat = n.toNat := by
    simp
    omega
  have hleft : ((32 - n).toBitVec % 32).toNat = 32 - n.toNat := by
    simp
    omega
  rw [BitVec.rotateRight_def, Nat.mod_eq_of_lt h]
  simp only [UInt32.toBitVec_or, UInt32.toBitVec_shiftRight, UInt32.toBitVec_shiftLeft,
    BitVec.shiftLeft_eq', BitVec.ushiftRight_eq', hright, hleft]

theorem toBitVec_rotateLeft (x n : UInt32) (h : n.toNat < 32) (hpos : 0 < n.toNat) :
    ((x <<< n) ||| (x >>> (32 - n))).toBitVec = x.toBitVec.rotateLeft n.toNat := by
  have hleft : (n.toBitVec % 32).toNat = n.toNat := by
    simp
    omega
  have hright : ((32 - n).toBitVec % 32).toNat = 32 - n.toNat := by
    simp
    omega
  rw [BitVec.rotateLeft_def, Nat.mod_eq_of_lt h]
  simp only [UInt32.toBitVec_or, UInt32.toBitVec_shiftRight, UInt32.toBitVec_shiftLeft,
    BitVec.shiftLeft_eq', BitVec.ushiftRight_eq', hright, hleft]

theorem toBitVec_rotateLeft64 (x n : UInt64) (h : n.toNat < 64) (hpos : 0 < n.toNat) :
    ((x <<< n) ||| (x >>> (64 - n))).toBitVec = x.toBitVec.rotateLeft n.toNat := by
  have hleft : (n.toBitVec % 64).toNat = n.toNat := by
    simp
    omega
  have hright : ((64 - n).toBitVec % 64).toNat = 64 - n.toNat := by
    simp
    omega
  rw [BitVec.rotateLeft_def, Nat.mod_eq_of_lt h]
  simp only [UInt64.toBitVec_or, UInt64.toBitVec_shiftRight, UInt64.toBitVec_shiftLeft,
    BitVec.shiftLeft_eq', BitVec.ushiftRight_eq', hright, hleft]

end Octets
