import Mathlib

/-!
# Constants from the roots of primes

The standards of hash functions take their constants from the roots of the first
primes, so that nothing can be hidden in them.  `scaledRoot w n p` is the integer
part of `2 ^ w` times the `n`-th root of `p`, as a word of 32 bits.

A table of such constants is checked without any root being taken: the entry has
to lie between two powers (`scaledRoot_eq`).  That the primes of a table are the
first ones is a count (`nth_eq_getD_filter`) and a division by the numbers below
the square root (`prime_iff_of_lt`).
-/

namespace RootConstants

/-- The low 32 bits of the integer part of `2 ^ w` times the `n`-th root of `p`. -/
def scaledRoot (w n p : Nat) : BitVec 32 := BitVec.ofNat 32 (Nat.nthRoot n (p * 2 ^ (w * n)))

theorem scaledRoot_eq {w n p r : Nat} (hn : n ≠ 0) (hlo : r ^ n ≤ p * 2 ^ (w * n))
    (hhi : p * 2 ^ (w * n) < (r + 1) ^ n) : scaledRoot w n p = BitVec.ofNat 32 r := by
  have hle : r ≤ Nat.nthRoot n (p * 2 ^ (w * n)) := (Nat.le_nthRoot_iff hn).2 hlo
  have hlt : Nat.nthRoot n (p * 2 ^ (w * n)) < r + 1 := (Nat.nthRoot_lt_iff hn).2 hhi
  rw [scaledRoot, Nat.le_antisymm (Nat.le_of_lt_succ hlt) hle]

/-- The leading bits of the fraction of a root whose integer part is some `i`. -/
theorem scaledRoot_eq_word {n p b : Nat} {x : BitVec 32} (hn : n ≠ 0)
    (h : ∃ i < b, (i * 2 ^ 32 + x.toNat) ^ n ≤ p * 2 ^ (32 * n) ∧
      p * 2 ^ (32 * n) < (i * 2 ^ 32 + x.toNat + 1) ^ n) : scaledRoot 32 n p = x := by
  obtain ⟨i, _, hlo, hhi⟩ := h
  rw [scaledRoot_eq hn hlo hhi]
  apply BitVec.eq_of_toNat_eq
  rw [BitVec.toNat_ofNat, Nat.mul_comm, Nat.mul_add_mod, Nat.mod_eq_of_lt x.isLt]

/-! ## The first primes -/

/-- The first 64 primes, which are those below 312. -/
def primes : List Nat :=
  [2, 3, 5, 7, 11, 13, 17, 19, 23, 29, 31, 37, 41, 43, 47, 53, 59, 61, 67, 71, 73, 79, 83, 89, 97,
   101, 103, 107, 109, 113, 127, 131, 137, 139, 149, 151, 157, 163, 167, 173, 179, 181, 191, 193,
   197, 199, 211, 223, 227, 229, 233, 239, 241, 251, 257, 263, 269, 271, 277, 281, 283, 293, 307,
   311]

/-- Trial division by the numbers below a bound of the square root. -/
theorem prime_iff_of_lt {b n : Nat} (h : n < b * b) :
    Nat.Prime n ↔ 2 ≤ n ∧ ∀ d < b, 2 ≤ d → d ∣ n → d = n := by
  constructor
  · intro hn
    refine ⟨hn.two_le, ?_⟩
    intro d _ hd hdvd
    exact (Nat.dvd_prime_two_le hn hd).1 hdvd
  · rintro ⟨hn, hall⟩
    by_contra hnot
    have hsq : n.minFac ^ 2 ≤ n := Nat.minFac_sq_le_self (by omega) hnot
    rw [sq] at hsq
    have hlt : n.minFac < b := lt_of_mul_self_lt_mul_self₀ (Nat.zero_le b) (hsq.trans_lt h)
    have hprime : n.minFac.Prime := Nat.minFac_prime (by omega)
    rw [hall n.minFac hlt hprime.two_le n.minFac_dvd] at hprime
    exact hnot hprime

theorem filter_prime : ((List.range 312).filter fun n => Nat.Prime n) = primes := by
  have hsieve : ((List.range 312).filter fun n => 2 ≤ n ∧ ∀ d < 18, 2 ≤ d → d ∣ n → d = n) =
      primes := by
    decide +kernel
  rw [← hsieve]
  apply List.filter_congr
  intro n hn
  rw [List.mem_range] at hn
  exact decide_eq_decide.2 (prime_iff_of_lt (by omega))

/-- The numbers with a property, in order, are the ones that a filter leaves. -/
theorem nth_eq_getD_filter (p : Nat → Prop) [DecidablePred p] (N t : Nat)
    (h : t < ((List.range N).filter fun n => p n).length) :
    Nat.nth p t = ((List.range N).filter fun n => p n).getD t 0 := by
  induction N with
  | zero => simp at h
  | succ N ih =>
    have hcount : Nat.count p N = ((List.range N).filter fun n => p n).length :=
      List.countP_eq_length_filter
    rw [List.range_succ, List.filter_append] at h ⊢
    by_cases hlt : t < ((List.range N).filter fun n => p n).length
    · rw [List.getD_append _ _ _ _ hlt]
      exact ih hlt
    · by_cases hp : p N
      · have ht : t = Nat.count p N := by
          simp [hp] at h
          omega
        rw [ht, Nat.nth_count hp, List.getD_append_right _ _ _ _ hcount.ge, hcount]
        simp [hp]
      · simp [hp] at h
        omega

theorem nth_prime (t : Nat) (ht : t < 64) : Nat.nth Nat.Prime t = primes.getD t 0 := by
  have hlen : primes.length = 64 := rfl
  have hnth := nth_eq_getD_filter Nat.Prime 312 t
  rw [filter_prime, hlen] at hnth
  exact hnth ht

end RootConstants
