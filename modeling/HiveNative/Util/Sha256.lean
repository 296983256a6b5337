import Mathlib
import HiveNative.Util.HashBlocks
import HiveNative.Lib.Fips180

/-!
# `sha256` is SHA-256

The hash function of the source against the standard (`Fips180`).  A state of the
source is read as the eight words of a hash value (`Sha256State.words`), and one
round, the message schedule and the compression function are followed across that
reading.  The tables of the source are compared with the roots of the primes.
-/

namespace HiveNative

open Octets RootConstants

/-- A state of the source as a hash value of the standard. -/
def Sha256State.words (s : Sha256State) : Fips180.Hash :=
  #v[s.a.toBitVec, s.b.toBitVec, s.c.toBitVec, s.d.toBitVec,
    s.e.toBitVec, s.f.toBitVec, s.g.toBitVec, s.h.toBitVec]

/-! ## Constants -/

theorem toBitVec_sha256K (t : Nat) (ht : t < 64) :
    (sha256K.getD t 0).toBitVec = Fips180.K t := by
  have hcheck : ∀ t < 64, ∃ i < 7,
      (i * 2 ^ 32 + (sha256K.getD t 0).toBitVec.toNat) ^ 3 ≤ primes.getD t 0 * 2 ^ (32 * 3) ∧
      primes.getD t 0 * 2 ^ (32 * 3) <
        (i * 2 ^ 32 + (sha256K.getD t 0).toBitVec.toNat + 1) ^ 3 := by
    decide +kernel
  rw [Fips180.K, nth_prime t ht]
  exact (scaledRoot_eq_word (by decide) (hcheck t ht)).symm

theorem words_sha256Init : sha256Init.words = Fips180.H0 := by
  have hcheck : ∀ t : Fin 8, ∃ i < 5,
      (i * 2 ^ 32 + sha256Init.words[t].toNat) ^ 2 ≤ primes.getD t 0 * 2 ^ (32 * 2) ∧
      primes.getD t 0 * 2 ^ (32 * 2) < (i * 2 ^ 32 + sha256Init.words[t].toNat + 1) ^ 2 := by
    decide +kernel
  apply Vector.ext
  intro t ht
  rw [Fips180.H0, Vector.getElem_ofFn, nth_prime t (by omega)]
  exact (scaledRoot_eq_word (by decide) (hcheck ⟨t, ht⟩)).symm

/-! ## Words and the message schedule -/

theorem toBitVec_wordBE (block : Bytes) (t : Nat) :
    (wordBE block t).toBitVec = Octets.wordBE block t := by
  unfold wordBE
  rw [toBitVec_shifts, Nat.mul_comm t 4]
  rfl

theorem toBitVec_rotr (x n : UInt32) (h : n.toNat < 32) (hpos : 0 < n.toNat) :
    (rotr x n).toBitVec = x.toBitVec.rotateRight n.toNat :=
  toBitVec_rotateRight x n h hpos

/-- The words so far are those of the standard. -/
structure Scheduled (block : Bytes) (n : Nat) (A : Array UInt32) : Prop where
  size : A.size = n
  word : ∀ t < n, (A.getD t 0).toBitVec = Fips180.W (Octets.wordBE block) t

theorem scheduled_words (block : Bytes) :
    Scheduled block 16 ((Array.range 16).map (wordBE block)) := by
  refine ⟨by simp, ?_⟩
  intro t ht
  rw [Fips180.W_lt ht, ← toBitVec_wordBE]
  simp [ht]

theorem scheduled_step {block : Bytes} {n : Nat} {A : Array UInt32} (hn : 16 ≤ n)
    (h : Scheduled block n A) : Scheduled block (n + 1) (sha256ScheduleStep A n) := by
  obtain ⟨rfl, hword⟩ := h
  have h2 := hword (A.size - 2) (by omega)
  have h7 := hword (A.size - 7) (by omega)
  have h15 := hword (A.size - 15) (by omega)
  have h16 := hword (A.size - 16) (by omega)
  refine ⟨by simp [sha256ScheduleStep], ?_⟩
  intro t ht
  rcases Nat.lt_succ_iff_lt_or_eq.1 ht with hlt | rfl
  · have hold : (sha256ScheduleStep A A.size).getD t 0 = A.getD t 0 := by
      simp [sha256ScheduleStep, Array.getElem?_push, hlt.ne]
    rw [hold]
    exact hword t hlt
  · rw [Fips180.W_ge hn, ← h2, ← h7, ← h15, ← h16]
    simp [sha256ScheduleStep, Fips180.smallSigma0, Fips180.smallSigma1, toBitVec_rotr]
    abel

theorem scheduled_run (block : Bytes) (k : Nat) :
    Scheduled block (16 + k)
      ((List.range' 16 k).foldl sha256ScheduleStep ((Array.range 16).map (wordBE block))) := by
  induction k with
  | zero => exact scheduled_words block
  | succ k ih =>
    rw [List.range'_concat, List.foldl_append, Nat.one_mul]
    exact scheduled_step (Nat.le_add_right 16 k) ih

/-! ## The compression function -/

theorem words_sha256Round (s : Sha256State) (k w : UInt32) :
    (sha256Round s k w).words = Fips180.round s.words k.toBitVec w.toBitVec := by
  simp [sha256Round, Fips180.round, Sha256State.words, Fips180.bigSigma0, Fips180.bigSigma1,
    Fips180.Ch, Fips180.Maj, toBitVec_rotr]

theorem words_rounds (s : Sha256State) (block : Bytes) (n : Nat) (hn : n ≤ 64) :
    ((List.range n).foldl
        (fun s i => sha256Round s (sha256K.getD i 0) ((sha256Schedule block).getD i 0)) s).words =
      (List.range n).foldl
        (fun v t => Fips180.round v (Fips180.K t) (Fips180.W (Octets.wordBE block) t))
        s.words := by
  induction n with
  | zero => rfl
  | succ n ih =>
    have hlt : n < 64 := hn
    have hW : ((sha256Schedule block).getD n 0).toBitVec = Fips180.W (Octets.wordBE block) n :=
      (scheduled_run block 48).word n hlt
    simp only [List.range_succ, List.foldl_append, List.foldl_cons, List.foldl_nil]
    rw [words_sha256Round, ih hlt.le, toBitVec_sha256K n hlt, hW]

theorem words_sha256Transform (s : Sha256State) (block : Bytes) :
    (sha256Transform s block).words = Fips180.compress s.words block := by
  unfold Fips180.compress sha256Transform
  rw [← words_rounds s block 64 le_rfl]
  simp [Sha256State.words]

/-! ## The digest -/

theorem toList_bytesBE32 (w : UInt32) : (bytesBE32 w).toList = octetsBE 4 w.toBitVec := by
  rw [octetsBE, octetsLE_shifts]
  rfl

/-- The words of the last state, in order. -/
def Sha256State.digest (s : Sha256State) : Sha256T :=
  bytesBE32 s.a ++ bytesBE32 s.b ++ bytesBE32 s.c ++ bytesBE32 s.d ++
    bytesBE32 s.e ++ bytesBE32 s.f ++ bytesBE32 s.g ++ bytesBE32 s.h

theorem Sha256State.toList_digest (s : Sha256State) :
    s.digest.toList = s.words.toList.flatMap (octetsBE 4) := by
  have hdigest : s.digest.toList =
      (bytesBE32 s.a ++ bytesBE32 s.b ++ bytesBE32 s.c ++ bytesBE32 s.d ++
        bytesBE32 s.e ++ bytesBE32 s.f ++ bytesBE32 s.g ++ bytesBE32 s.h).toList := rfl
  rw [hdigest]
  simp only [Vector.toList_append, toList_bytesBE32]
  simp [Sha256State.words]

theorem sha256_eq (data : Bytes) :
    sha256 data =
      (finish sha256Transform (absorbBlocks sha256Transform (data.length / 64) sha256Init data)
        (bytesLE64 (UInt64.ofNat data.length * 8)).reverse).digest := by
  unfold sha256
  obtain ⟨state, rest⟩ := absorbBlocks sha256Transform (data.length / 64) sha256Init data
  by_cases h : rest.length ≥ 56
  · simp only [finish, if_pos h]
    rfl
  · simp only [finish, if_neg h]
    rfl

/-- For every message that SHA-256 is defined on, `sha256` is its digest. -/
theorem sha256_fips (m : Bytes) (h : m.length < 2 ^ 61) :
    (sha256 m).toList = Fips180.sha256 ⟨m, bits_fit h⟩ := by
  have hfield : (bytesLE64 (UInt64.ofNat m.length * 8)).reverse =
      octetsBE 8 (Message.bitLength ⟨m, bits_fit h⟩) := by
    rw [bytesLE64_eq, toBitVec_bitlen h]
    rfl
  have hwords := finish_simulated sha256Transform Sha256State.words
    (fun s block => (words_sha256Transform s block).symm) sha256Init m _
    (length_octetsBE 8 (Message.bitLength ⟨m, bits_fit h⟩))
  rw [sha256_eq, Sha256State.toList_digest, hfield, hwords, words_sha256Init]
  rfl

/-- The text `abc`. -/
theorem sha256_fips_abc :
    Fips180.sha256 ⟨[0x61, 0x62, 0x63], bits_fit (by decide)⟩ =
      [0xba, 0x78, 0x16, 0xbf, 0x8f, 0x01, 0xcf, 0xea, 0x41, 0x41, 0x40, 0xde, 0x5d, 0xae, 0x22,
        0x23, 0xb0, 0x03, 0x61, 0xa3, 0x96, 0x17, 0x7a, 0x9c, 0xb4, 0x10, 0xff, 0x61, 0xf2, 0x00,
        0x15, 0xad] := by
  have hcode : (sha256 [0x61, 0x62, 0x63]).toList =
      [0xba, 0x78, 0x16, 0xbf, 0x8f, 0x01, 0xcf, 0xea, 0x41, 0x41, 0x40, 0xde, 0x5d, 0xae, 0x22,
        0x23, 0xb0, 0x03, 0x61, 0xa3, 0x96, 0x17, 0x7a, 0x9c, 0xb4, 0x10, 0xff, 0x61, 0xf2, 0x00,
        0x15, 0xad] := by
    decide +kernel
  rw [← hcode]
  exact (sha256_fips [0x61, 0x62, 0x63] (by decide)).symm

end HiveNative
