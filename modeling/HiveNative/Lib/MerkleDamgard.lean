import Mathlib

/-!
# Hashing by blocks

The construction that the classical hash functions share.  A message is padded
to a multiple of the block length `B`: a mark, the least number of zeros that
makes the length right, and a field of fixed length at the end (`pad`).  The
padded message is split into blocks, and a compression function is folded over
them (`run`).

`run_pad_short` and `run_pad_long` are what a program relies on that never builds
the padded message.  The whole blocks of the message can be absorbed in place,
and what is left of it goes into one last block when the mark and the field still
fit behind it, and into two otherwise.
-/

namespace MerkleDamgard

universe u v

section Blocks

variable {β : Type u}

/-- The first `k` blocks of `n` letters each. -/
def blocks (n : Nat) : Nat → List β → List (List β)
  | 0, _ => []
  | k + 1, xs => xs.take n :: blocks n k (xs.drop n)

/-- A list, cut into blocks of `n` letters. -/
def split (n : Nat) (xs : List β) : List (List β) := blocks n (xs.length / n) xs

theorem blocks_add (n j k : Nat) (xs : List β) :
    blocks n (j + k) xs = blocks n j xs ++ blocks n k (xs.drop (n * j)) := by
  induction j generalizing xs with
  | zero => simp [blocks]
  | succ j ih =>
    have hdrop : n + n * j = n * (j + 1) := by rw [Nat.mul_succ, Nat.add_comm]
    rw [Nat.succ_add_eq_add_succ, Nat.add_succ]
    simp only [blocks, List.cons_append]
    rw [ih, List.drop_drop, hdrop]

/-- Letters behind the blocks do not matter. -/
theorem blocks_append (n k : Nat) (xs ys : List β) (h : n * k ≤ xs.length) :
    blocks n k (xs ++ ys) = blocks n k xs := by
  induction k generalizing xs with
  | zero => rfl
  | succ k ih =>
    rw [Nat.mul_succ] at h
    have hn : n ≤ xs.length := by omega
    simp only [blocks]
    rw [List.take_append_of_le_length hn, List.drop_append_of_le_length hn,
      ih _ (by rw [List.length_drop]; omega)]

theorem split_append {n : Nat} (hn : 0 < n) (xs ys : List β) (h : n ∣ xs.length) :
    split n (xs ++ ys) = split n xs ++ split n ys := by
  obtain ⟨k, hk⟩ := h
  have hlen : (xs ++ ys).length / n = k + ys.length / n := by
    rw [List.length_append, hk, Nat.mul_add_div hn]
  have hxs : xs.length / n = k := by rw [hk, Nat.mul_div_cancel_left k hn]
  unfold split
  rw [hlen, hxs, blocks_add, blocks_append n k xs ys hk.ge, ← hk, List.drop_left]

theorem split_of_length {n : Nat} (hn : 0 < n) (xs : List β) (h : xs.length = n) :
    split n xs = [xs] := by
  unfold split
  rw [h, Nat.div_self hn]
  simp [blocks, ← h]

/-- What is left of a list behind its blocks. -/
def leftover (n : Nat) (xs : List β) : List β := xs.drop (n * (xs.length / n))

theorem split_of_lt {n : Nat} {xs : List β} (h : xs.length < n) :
    split n xs = [] ∧ leftover n xs = xs := by
  rw [split, leftover, Nat.div_eq_of_lt h]
  exact ⟨rfl, rfl⟩

/-- A list of at least one block, after its first block. -/
theorem split_of_le {n : Nat} (hn : 0 < n) {xs : List β} (h : n ≤ xs.length) :
    split n xs = xs.take n :: split n (xs.drop n) ∧
      leftover n xs = leftover n (xs.drop n) := by
  have hdiv : xs.length / n = (xs.length - n) / n + 1 := by
    rw [← Nat.add_div_right _ hn, Nat.sub_add_cancel h]
  rw [split, split, leftover, leftover, List.length_drop, List.drop_drop, hdiv, blocks,
    Nat.mul_succ, Nat.add_comm n]
  exact ⟨rfl, rfl⟩

theorem length_of_mem_blocks {n k : Nat} {xs b : List β} (h : n * k ≤ xs.length)
    (hb : b ∈ blocks n k xs) : b.length = n := by
  induction k generalizing xs with
  | zero => cases hb
  | succ k ih =>
    rw [Nat.mul_succ] at h
    cases List.mem_cons.mp hb with
    | inl heq =>
      rw [heq, List.length_take]
      omega
    | inr hmem => exact ih (by rw [List.length_drop]; omega) hmem

theorem length_of_mem_split {n : Nat} {xs b : List β} (hb : b ∈ split n xs) : b.length = n :=
  length_of_mem_blocks (Nat.mul_div_le _ _) hb

theorem length_leftover {n : Nat} (hn : 0 < n) (xs : List β) : (leftover n xs).length < n := by
  have hmod := Nat.div_add_mod xs.length n
  have hlt := Nat.mod_lt xs.length hn
  rw [leftover, List.length_drop]
  omega

end Blocks

section Padding

variable {β : Type u} {σ : Type v}

theorem exists_fill (B : Nat) [NeZero B] (r : Nat) : ∃ k, B ∣ r + k := by
  have hB : 0 < B := Nat.pos_of_neZero B
  refine ⟨r * B - r, ?_⟩
  rw [Nat.add_sub_cancel' (Nat.le_mul_of_pos_right r hB)]
  exact Nat.dvd_mul_left B r

/-- The least number of zeros that takes a length to a multiple of `B`. -/
def fill (B : Nat) [NeZero B] (r : Nat) : Nat := Nat.find (exists_fill B r)

theorem fill_eq {B : Nat} [NeZero B] {r k : Nat} (hk : k < B) (h : B ∣ r + k) :
    fill B r = k := by
  refine (Nat.find_eq_iff _).2 ⟨h, ?_⟩
  intro j hj hdvd
  have hdiff : B ∣ k - j := by
    have hsub := Nat.dvd_sub h hdvd
    rwa [Nat.add_sub_add_left] at hsub
  have hle := Nat.le_of_dvd (by omega) hdiff
  omega

/-- The padded message: the mark, zeros, and the field at the end of a block. -/
def pad (B : Nat) [NeZero B] (mark zero : β) (field m : List β) : List β :=
  m ++ mark :: (List.replicate (fill B (m.length + 1 + field.length)) zero ++ field)

/-- The chaining value after the blocks of `p`. -/
def run (B : Nat) (compress : σ → List β → σ) (iv : σ) (p : List β) : σ :=
  (split B p).foldl compress iv

theorem run_append {B : Nat} [NeZero B] (compress : σ → List β → σ) (iv : σ) (xs ys : List β)
    (h : B ∣ xs.length) :
    run B compress iv (xs ++ ys) = run B compress (run B compress iv xs) ys := by
  unfold run
  rw [split_append (Nat.pos_of_neZero B) xs ys h, List.foldl_append]

theorem run_block {B : Nat} [NeZero B] (compress : σ → List β → σ) (iv : σ) (xs : List β)
    (h : xs.length = B) : run B compress iv xs = compress iv xs := by
  unfold run
  rw [split_of_length (Nat.pos_of_neZero B) xs h]
  rfl

/-- A compression that another one simulates is simulated over any blocks. -/
theorem run_hom {τ : Type v} {B : Nat} (f : σ → τ) {compress : σ → List β → σ}
    {compress' : τ → List β → τ} (h : ∀ s b, compress' (f s) b = f (compress s b)) (iv : σ)
    (p : List β) : run B compress' (f iv) p = f (run B compress iv p) :=
  List.foldl_hom f h

variable {B : Nat} [NeZero B] (compress : σ → List β → σ) (iv : σ) (mark zero : β)
variable (field whole rest : List β)

/-- The mark and the field fit behind the last letters: one block. -/
theorem run_pad_short (hwhole : B ∣ whole.length)
    (hfit : rest.length + 1 + field.length ≤ B) :
    run B compress iv (pad B mark zero field (whole ++ rest)) =
      compress (run B compress iv whole)
        (rest ++ mark ::
          (List.replicate (B - (rest.length + 1 + field.length)) zero ++ field)) := by
  obtain ⟨k, hk⟩ := hwhole
  have hpos : 0 < B := Nat.pos_of_neZero B
  have hfill : fill B ((whole ++ rest).length + 1 + field.length) =
      B - (rest.length + 1 + field.length) := by
    apply fill_eq
    · omega
    · rw [List.length_append, hk]
      exact ⟨k + 1, by rw [Nat.mul_succ]; omega⟩
  unfold pad
  rw [hfill, List.append_assoc, run_append compress iv whole _ ⟨k, hk⟩, run_block]
  simp only [List.length_append, List.length_cons, List.length_replicate]
  omega

/-- They do not: the mark ends one block, and the field fills the next. -/
theorem run_pad_long (hwhole : B ∣ whole.length) (hrest : rest.length < B)
    (hfield : field.length < B) (hfit : B < rest.length + 1 + field.length) :
    run B compress iv (pad B mark zero field (whole ++ rest)) =
      compress
        (compress (run B compress iv whole)
          (rest ++ mark :: List.replicate (B - 1 - rest.length) zero))
        (List.replicate (B - field.length) zero ++ field) := by
  obtain ⟨k, hk⟩ := hwhole
  have hfill : fill B ((whole ++ rest).length + 1 + field.length) =
      (B - 1 - rest.length) + (B - field.length) := by
    apply fill_eq
    · omega
    · rw [List.length_append, hk]
      exact ⟨k + 2, by rw [Nat.mul_add]; omega⟩
  have htail : rest ++ mark ::
        (List.replicate ((B - 1 - rest.length) + (B - field.length)) zero ++ field) =
      (rest ++ mark :: List.replicate (B - 1 - rest.length) zero) ++
        (List.replicate (B - field.length) zero ++ field) := by
    rw [List.replicate_add]
    simp only [List.append_assoc, List.cons_append]
  have hfirst : (rest ++ mark :: List.replicate (B - 1 - rest.length) zero).length = B := by
    simp only [List.length_append, List.length_cons, List.length_replicate]
    omega
  have hsecond : (List.replicate (B - field.length) zero ++ field).length = B := by
    simp only [List.length_append, List.length_replicate]
    omega
  unfold pad
  rw [hfill, List.append_assoc, run_append compress iv whole _ ⟨k, hk⟩, htail,
    run_append compress _ _ _ (by rw [hfirst]), run_block compress _ _ hfirst,
    run_block compress _ _ hsecond]

end Padding

end MerkleDamgard
