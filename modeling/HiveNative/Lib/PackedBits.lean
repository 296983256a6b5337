import Mathlib

/-!
# Bits packed into words

A set of numbers kept as the bits of a list of 64-bit words: the number `n` is the
bit `n % 64` of the word `n / 64`.  A word is addressed by `bit >> 6` and its bit by
the mask `1 << (bit & 63)`.  Both accesses have no result where the word is not
there.

`Marked` is the set the words show.  `setBit_spec` and `getBit_eq` say what the two
accesses do to it and read of it, and `markAll_spec` and `allMarked_eq` say the same
of a loop over several bits.
-/

namespace PackedBits

/-- `words[bit >> 6]` -/
def wordIndex (bit : UInt64) : ℕ := (bit >>> 6).toNat

/-- `uint64_t(1) << (bit & 63)` -/
def mask (bit : UInt64) : UInt64 := 1 <<< (bit &&& 63)

def getBit (words : List UInt64) (bit : UInt64) : Option Bool :=
  words[wordIndex bit]?.map fun w => w &&& mask bit ≠ 0

def setBit (words : List UInt64) (bit : UInt64) : Option (List UInt64) :=
  words[wordIndex bit]?.map fun w => words.set (wordIndex bit) (w ||| mask bit)

/-- The number is in the set that the words show. -/
def Marked (words : List UInt64) (n : ℕ) : Prop :=
  ∃ w, words[n / 64]? = some w ∧ w.toNat.testBit (n % 64) = true

/-- The words are there for this bit. -/
def InRange (words : List UInt64) (bit : UInt64) : Prop := wordIndex bit < words.length

variable {words words' : List UInt64} {bit : UInt64} {bits : List UInt64} {n : ℕ}

/-! ## One word -/

theorem wordIndex_eq (bit : UInt64) : wordIndex bit = bit.toNat / 64 := by
  rw [wordIndex, UInt64.toNat_shiftRight]
  show bit.toNat >>> 6 = _
  rw [Nat.shiftRight_eq_div_pow]

theorem toNat_mask (bit : UInt64) : (mask bit).toNat = 2 ^ (bit.toNat % 64) := by
  have hand : (bit &&& 63).toNat = bit.toNat % 64 := by
    rw [UInt64.toNat_and]
    exact Nat.and_two_pow_sub_one_eq_mod bit.toNat 6
  have hlt : bit.toNat % 64 < 64 := Nat.mod_lt _ (by decide)
  rw [mask, UInt64.toNat_shiftLeft, hand, Nat.mod_eq_of_lt hlt, UInt64.toNat_one, Nat.one_shiftLeft]
  exact Nat.mod_eq_of_lt (Nat.pow_lt_pow_right (by decide) hlt)

theorem and_mask_ne_zero (w bit : UInt64) :
    w &&& mask bit ≠ 0 ↔ w.toNat.testBit (bit.toNat % 64) = true := by
  rw [ne_eq, ← UInt64.toNat_inj, UInt64.toNat_and, toNat_mask, UInt64.toNat_zero, Nat.and_two_pow]
  cases w.toNat.testBit (bit.toNat % 64) with
  | false => simp
  | true => simp

theorem testBit_or_mask (w bit : UInt64) (j : ℕ) :
    (w ||| mask bit).toNat.testBit j = (w.toNat.testBit j || decide (bit.toNat % 64 = j)) := by
  rw [UInt64.toNat_or, toNat_mask, Nat.testBit_or, Nat.testBit_two_pow]

/-! ## One bit -/

theorem not_marked_zero (k n : ℕ) : ¬ Marked (List.replicate k 0) n := by
  intro h
  obtain ⟨w, hw, hbit⟩ := h
  rw [List.getElem?_replicate] at hw
  split at hw
  · cases hw
    simp at hbit
  · cases hw

theorem getBit_eq (h : InRange words bit) :
    ∃ b, getBit words bit = some b ∧ (b = true ↔ Marked words bit.toNat) := by
  obtain ⟨w, hw⟩ : ∃ w, words[wordIndex bit]? = some w := ⟨_, List.getElem?_eq_getElem h⟩
  refine ⟨decide (w &&& mask bit ≠ 0), by rw [getBit, hw]; rfl, ?_⟩
  rw [decide_eq_true_eq, and_mask_ne_zero, Marked, ← wordIndex_eq, hw]
  constructor
  · intro hbit
    exact ⟨w, rfl, hbit⟩
  · intro hm
    obtain ⟨x, hx, hbit⟩ := hm
    cases hx
    exact hbit

/-- Setting a bit puts its number into the set, and takes the words as many as they
were. -/
theorem setBit_spec (h : InRange words bit) :
    ∃ words', setBit words bit = some words' ∧ words'.length = words.length ∧
      ∀ n, Marked words' n ↔ n = bit.toNat ∨ Marked words n := by
  obtain ⟨w, hw⟩ : ∃ w, words[wordIndex bit]? = some w := ⟨_, List.getElem?_eq_getElem h⟩
  refine ⟨words.set (wordIndex bit) (w ||| mask bit), by rw [setBit, hw]; rfl, List.length_set,
    fun n => ?_⟩
  have hindex := wordIndex_eq bit
  unfold Marked
  rw [List.getElem?_set]
  by_cases hn : wordIndex bit = n / 64
  · -- the word of `n` is the one written
    have hlt : n / 64 < words.length := hn ▸ h
    rw [if_pos hn, if_pos (hn ▸ hlt), ← hn, hw]
    have hsame : n = bit.toNat ↔ bit.toNat % 64 = n % 64 := by omega
    simp only [Option.some.injEq, exists_eq_left', testBit_or_mask, Bool.or_eq_true,
      decide_eq_true_eq, hsame]
    exact or_comm
  · rw [if_neg hn]
    have hne : n ≠ bit.toNat := by
      intro heq
      exact hn (by rw [hindex, heq])
    simp only [hne, false_or]

/-! ## Several bits -/

/-- Set the bits one after the other. -/
def markAll (words : List UInt64) (bits : List UInt64) : Option (List UInt64) :=
  bits.foldlM setBit words

/-- Are all the bits set?  Stops at the first one that is not. -/
def allMarked (words : List UInt64) : List UInt64 → Option Bool
  | [] => some true
  | bit :: bits =>
      match getBit words bit with
      | none => none
      | some false => some false
      | some true => allMarked words bits

theorem markAll_spec (h : ∀ bit ∈ bits, InRange words bit) :
    ∃ words', markAll words bits = some words' ∧ words'.length = words.length ∧
      ∀ n, Marked words' n ↔ (∃ bit ∈ bits, n = bit.toNat) ∨ Marked words n := by
  induction bits generalizing words with
  | nil => exact ⟨words, rfl, rfl, fun n => by simp⟩
  | cons bit bits ih =>
      obtain ⟨w₁, hset, hlen, hmarked⟩ := setBit_spec (h bit List.mem_cons_self)
      have hrange : ∀ b ∈ bits, InRange w₁ b := by
        intro b hb
        rw [InRange, hlen]
        exact h b (List.mem_cons_of_mem bit hb)
      obtain ⟨w₂, hall, hlen', hmarked'⟩ := ih hrange
      refine ⟨w₂, ?_, hlen'.trans hlen, fun n => ?_⟩
      · rw [markAll, List.foldlM_cons, hset]
        exact hall
      · rw [hmarked', hmarked]
        simp only [List.mem_cons, exists_eq_or_imp, or_assoc]
        exact or_left_comm

theorem allMarked_eq (h : ∀ bit ∈ bits, InRange words bit) :
    ∃ b, allMarked words bits = some b ∧ (b = true ↔ ∀ bit ∈ bits, Marked words bit.toNat) := by
  induction bits with
  | nil => exact ⟨true, rfl, by simp⟩
  | cons bit bits ih =>
      obtain ⟨b, hget, hb⟩ := getBit_eq (h bit List.mem_cons_self)
      obtain ⟨c, hall, hc⟩ := ih fun x hx => h x (List.mem_cons_of_mem bit hx)
      rw [List.forall_mem_cons, ← hb, ← hc]
      cases b with
      | false => exact ⟨false, by rw [allMarked, hget], by simp⟩
      | true => exact ⟨c, by rw [allMarked, hget]; exact hall, by simp⟩

end PackedBits
