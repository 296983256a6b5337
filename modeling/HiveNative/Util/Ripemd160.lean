import Mathlib
import HiveNative.Util.HashBlocks
import HiveNative.Lib.Ripemd160

/-!
# `ripemd160` is RIPEMD-160

The hash function of the source against the published one (`Ripemd160`), in the
same way as `sha256`.  The source takes the steps of the two lines by turns;
`words_ripemd160Steps_fold` separates the lines.  The four tables of 80 entries are
compared with what the permutations and the roots give.
-/

namespace HiveNative

open Octets

/-- A state of the source as the words of a line. -/
def Ripemd160State.words (s : Ripemd160State) : Ripemd160.Hash :=
  #v[s.a.toBitVec, s.b.toBitVec, s.c.toBitVec, s.d.toBitVec, s.e.toBitVec]

/-! ## Tables -/

theorem ripemd160R1_eq : ∀ j < 80, ripemd160R1.getD j 0 = Ripemd160.r j := by
  decide +kernel

theorem ripemd160R2_eq : ∀ j < 80, ripemd160R2.getD j 0 = Ripemd160.r' j := by
  decide +kernel

/-- A rotation of the tables is the one of its word, and it is a proper one. -/
theorem ripemd160S1_eq : ∀ j < 80,
    (ripemd160S1.getD j 0).toNat = Ripemd160.shift (j / 16) (Ripemd160.r j) ∧
      0 < (ripemd160S1.getD j 0).toNat ∧ (ripemd160S1.getD j 0).toNat < 32 := by
  decide +kernel

theorem ripemd160S2_eq : ∀ j < 80,
    (ripemd160S2.getD j 0).toNat = Ripemd160.shift (j / 16) (Ripemd160.r' j) ∧
      0 < (ripemd160S2.getD j 0).toNat ∧ (ripemd160S2.getD j 0).toNat < 32 := by
  decide +kernel

theorem toBitVec_ripemd160K1 (j : Nat) (hj : j < 80) :
    (ripemd160K1.getD (j / 16) 0).toBitVec = Ripemd160.K j := by
  have hcheck : ∀ i < 5, (ripemd160K1.getD i 0).toBitVec = Ripemd160.K (i * 16) := by
    decide +kernel
  have hround : Ripemd160.K (j / 16 * 16) = Ripemd160.K j := by
    unfold Ripemd160.K
    rw [Nat.mul_div_cancel _ (by decide)]
  rw [hcheck (j / 16) (by omega), hround]

theorem toBitVec_ripemd160K2 (j : Nat) (hj : j < 80) :
    (ripemd160K2.getD (j / 16) 0).toBitVec = Ripemd160.K' j := by
  have hcheck : ∀ i < 5, (ripemd160K2.getD i 0).toBitVec = Ripemd160.K' (i * 16) := by
    decide +kernel
  have hround : Ripemd160.K' (j / 16 * 16) = Ripemd160.K' j := by
    unfold Ripemd160.K'
    rw [Nat.mul_div_cancel _ (by decide)]
  rw [hcheck (j / 16) (by omega), hround]

/-! ## One step of a line -/

theorem toBitVec_ripemd160F (j : Nat) (hj : j < 80) (x y z : UInt32) :
    (ripemd160F j x y z).toBitVec = Ripemd160.f j x.toBitVec y.toBitVec z.toBitVec := by
  unfold ripemd160F Ripemd160.f
  rcases (by omega : j < 16 ∨ (16 ≤ j ∧ j < 32) ∨ (32 ≤ j ∧ j < 48) ∨ (48 ≤ j ∧ j < 64) ∨
    64 ≤ j) with h | h | h | h | h
  · have hround : j / 16 = 0 := by omega
    simp [h, hround]
  · have hround : j / 16 = 1 := by omega
    simp (disch := omega) [if_pos, if_neg, hround]
  · have hround : j / 16 = 2 := by omega
    simp (disch := omega) [if_pos, if_neg, hround]
  · have hround : j / 16 = 3 := by omega
    simp (disch := omega) [if_pos, if_neg, hround]
  · have hround : j / 16 = 4 := by omega
    simp (disch := omega) [if_neg, hround]

theorem toBitVec_rol (x n : UInt32) (h : n.toNat < 32) (hpos : 0 < n.toNat) :
    (rol x n).toBitVec = x.toBitVec.rotateLeft n.toNat :=
  toBitVec_rotateLeft x n h hpos

theorem toBitVec_wordLE (block : Bytes) (t : Nat) :
    (wordLE block t).toBitVec = Octets.wordLE block t := by
  have hturn : ∀ a b c d : UInt32, a ||| b ||| c ||| d = d ||| c ||| b ||| a := by
    intro a b c d
    ac_rfl
  unfold wordLE
  rw [hturn, toBitVec_shifts, Nat.mul_comm t 4]
  rfl

theorem words_ripemd160Step (l : Ripemd160State) (g x k s : UInt32) (hs : s.toNat < 32)
    (hpos : 0 < s.toNat) :
    (ripemd160Step l g x k s).words =
      Ripemd160.step l.words g.toBitVec x.toBitVec k.toBitVec s.toNat := by
  simp [ripemd160Step, Ripemd160.step, Ripemd160State.words, toBitVec_rol, hs, hpos]

/-! ## The two lines -/

theorem words_ripemd160Steps (block : Bytes) (p : Ripemd160State × Ripemd160State) (j : Nat)
    (hj : j < 80) :
    (ripemd160Steps block p j).1.words =
        Ripemd160.leftStep (Octets.wordLE block) p.1.words j ∧
      (ripemd160Steps block p j).2.words =
        Ripemd160.rightStep (Octets.wordLE block) p.2.words j := by
  obtain ⟨l, r⟩ := p
  obtain ⟨hs1, hpos1, hlt1⟩ := ripemd160S1_eq j hj
  obtain ⟨hs2, hpos2, hlt2⟩ := ripemd160S2_eq j hj
  constructor
  · simp only [ripemd160Steps, Ripemd160.leftStep]
    rw [words_ripemd160Step _ _ _ _ _ hlt1 hpos1, toBitVec_ripemd160F j hj, toBitVec_wordLE,
      toBitVec_ripemd160K1 j hj, ripemd160R1_eq j hj, hs1]
    rfl
  · simp only [ripemd160Steps, Ripemd160.rightStep]
    rw [words_ripemd160Step _ _ _ _ _ hlt2 hpos2, toBitVec_ripemd160F (79 - j) (by omega),
      toBitVec_wordLE, toBitVec_ripemd160K2 j hj, ripemd160R2_eq j hj, hs2]
    rfl

/-- The steps taken by turns are the steps of each line. -/
theorem words_ripemd160Steps_fold (block : Bytes) (h : Ripemd160State) (n : Nat) (hn : n ≤ 80) :
    ((List.range n).foldl (ripemd160Steps block) (h, h)).1.words =
        (List.range n).foldl (Ripemd160.leftStep (Octets.wordLE block)) h.words ∧
      ((List.range n).foldl (ripemd160Steps block) (h, h)).2.words =
        (List.range n).foldl (Ripemd160.rightStep (Octets.wordLE block)) h.words := by
  induction n with
  | zero => exact ⟨rfl, rfl⟩
  | succ n ih =>
    obtain ⟨hleft, hright⟩ := ih (Nat.le_of_succ_le hn)
    simp only [List.range_succ, List.foldl_append, List.foldl_cons, List.foldl_nil]
    rw [← hleft, ← hright]
    exact words_ripemd160Steps block _ n hn

theorem words_ripemd160Compress (h : Ripemd160State) (block : Bytes) :
    (ripemd160Compress h block).words = Ripemd160.compress h.words block := by
  obtain ⟨hleft, hright⟩ := words_ripemd160Steps_fold block h 80 le_rfl
  unfold ripemd160Compress
  generalize (List.range 80).foldl (ripemd160Steps block) (h, h) = p at hleft hright ⊢
  obtain ⟨l, r⟩ := p
  have hl : Ripemd160.left (Octets.wordLE block) h.words = l.words := hleft.symm
  have hr : Ripemd160.right (Octets.wordLE block) h.words = r.words := hright.symm
  rw [Ripemd160.compress, hl, hr]
  simp [Ripemd160.combine, Ripemd160State.words]

/-! ## The digest -/

theorem toList_bytesLE32 (w : UInt32) : (bytesLE32 w).toList = octetsLE 4 w.toBitVec := by
  rw [octetsLE_shifts]
  rfl

/-- The words of the last state, in order. -/
def Ripemd160State.digest (s : Ripemd160State) : Ripemd160T :=
  bytesLE32 s.a ++ bytesLE32 s.b ++ bytesLE32 s.c ++ bytesLE32 s.d ++ bytesLE32 s.e

theorem Ripemd160State.toList_digest (s : Ripemd160State) :
    s.digest.toList = s.words.toList.flatMap (octetsLE 4) := by
  have hdigest : s.digest.toList =
      (bytesLE32 s.a ++ bytesLE32 s.b ++ bytesLE32 s.c ++ bytesLE32 s.d ++
        bytesLE32 s.e).toList := rfl
  rw [hdigest]
  simp only [Vector.toList_append, toList_bytesLE32]
  simp [Ripemd160State.words]

theorem ripemd160_eq (data : Bytes) :
    ripemd160 data =
      (finish ripemd160Compress
        (absorbBlocks ripemd160Compress (data.length / 64) ripemd160Init data)
        (bytesLE64 (UInt64.ofNat data.length * 8))).digest := by
  unfold ripemd160
  obtain ⟨h, rest⟩ := absorbBlocks ripemd160Compress (data.length / 64) ripemd160Init data
  by_cases hlong : rest.length ≥ 56
  · simp only [finish, if_pos hlong]
    rfl
  · simp only [finish, if_neg hlong]
    rfl

/-- For every message that RIPEMD-160 is defined on, `ripemd160` is its digest. -/
theorem ripemd160_published (m : Bytes) (h : m.length < 2 ^ 61) :
    (ripemd160 m).toList = Ripemd160.ripemd160 ⟨m, bits_fit h⟩ := by
  have hfield : bytesLE64 (UInt64.ofNat m.length * 8) =
      octetsLE 8 (Message.bitLength ⟨m, bits_fit h⟩) := by
    rw [bytesLE64_eq, toBitVec_bitlen h]
  have hinit : ripemd160Init.words = Ripemd160.IV := by decide
  have hwords := finish_simulated ripemd160Compress Ripemd160State.words
    (fun s block => (words_ripemd160Compress s block).symm) ripemd160Init m _
    (length_octetsLE 8 (Message.bitLength ⟨m, bits_fit h⟩))
  rw [ripemd160_eq, Ripemd160State.toList_digest, hfield, hwords, hinit]
  rfl

/-- The text `abc`. -/
theorem ripemd160_published_abc :
    Ripemd160.ripemd160 ⟨[0x61, 0x62, 0x63], bits_fit (by decide)⟩ =
      [0x8e, 0xb2, 0x08, 0xf7, 0xe0, 0x5d, 0x98, 0x7a, 0x9b, 0x04, 0x4a, 0x8e, 0x98, 0xc6, 0xb0,
        0x87, 0xf1, 0x5a, 0x0b, 0xfc] := by
  have hcode : (ripemd160 [0x61, 0x62, 0x63]).toList =
      [0x8e, 0xb2, 0x08, 0xf7, 0xe0, 0x5d, 0x98, 0x7a, 0x9b, 0x04, 0x4a, 0x8e, 0x98, 0xc6, 0xb0,
        0x87, 0xf1, 0x5a, 0x0b, 0xfc] := by
    decide +kernel
  rw [← hcode]
  exact (ripemd160_published [0x61, 0x62, 0x63] (by decide)).symm

end HiveNative
