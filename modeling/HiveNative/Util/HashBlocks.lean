import Mathlib
import HiveNative.Util.Crypto
import HiveNative.Lib.MerkleDamgard
import HiveNative.Lib.Octets

/-!
# The padded message that is never built

Both hash functions absorb the whole blocks of the message in place and assemble
one or two tail blocks from the rest (`finish`).  `finish_absorbBlocks` says what
this comes to: the compression function folded over the blocks of the padded
message.  Nothing in it depends on the compression function, or on the order in
which the length is written.

`finish` is the tail of `sha256` and of `ripemd160`, which have it twice.
-/

namespace HiveNative

open MerkleDamgard Octets

section Blocks

variable {σ : Type} (compress : σ → Bytes → σ)

/-- The tail: the chaining value after the last one or two blocks. -/
def finish (p : σ × Bytes) (len : Bytes) : σ :=
  if p.2.length ≥ 56 then
    compress (compress p.1 (tailBlock p.2)) (putLength (List.replicate 64 0) len)
  else compress p.1 (putLength (tailBlock p.2) len)

theorem absorbBlocks_eq (k : Nat) (h : σ) (data : Bytes) :
    absorbBlocks compress k h data =
      ((blocks 64 k data).foldl compress h, data.drop (64 * k)) := by
  induction k generalizing h data with
  | zero => rfl
  | succ k ih =>
    have hdrop : 64 + 64 * k = 64 * (k + 1) := by omega
    rw [absorbBlocks, ih, List.drop_drop, hdrop]
    rfl

/-- The length goes behind the zeros of a tail block. -/
theorem putLength_tailBlock {rest len : Bytes} (h : rest.length < 56) :
    putLength (tailBlock rest) len =
      rest ++ 0x80 :: (List.replicate (64 - (rest.length + 1 + 8)) 0 ++ len) := by
  have hone : 56 - rest.length = (55 - rest.length) + 1 := by omega
  unfold putLength tailBlock
  rw [List.take_append, List.take_of_length_le (by omega), hone, List.take_succ_cons,
    List.take_replicate, List.append_assoc, List.cons_append]
  congr 4
  omega

theorem finish_absorbBlocks (h : σ) (data len : Bytes) (hlen : len.length = 8) :
    finish compress (absorbBlocks compress (data.length / 64) h data) len =
      run 64 compress h (pad 64 0x80 0 len data) := by
  obtain ⟨k, hk⟩ : ∃ k, k = data.length / 64 := ⟨_, rfl⟩
  obtain ⟨whole, hwhole⟩ : ∃ xs, xs = data.take (64 * k) := ⟨_, rfl⟩
  obtain ⟨rest, hrest⟩ : ∃ ys, ys = data.drop (64 * k) := ⟨_, rfl⟩
  have hdata : data = whole ++ rest := by rw [hwhole, hrest, List.take_append_drop]
  have hwholeLen : whole.length = 64 * k := by
    rw [hwhole, List.length_take]
    omega
  have hdvd : 64 ∣ whole.length := ⟨k, hwholeLen⟩
  have hrestLen : rest.length < 64 := by
    rw [hrest, List.length_drop]
    omega
  have hsplit : split 64 whole = blocks 64 k data := by
    have hcount : 64 * k / 64 = k := by omega
    unfold split
    rw [hwholeLen, hcount, hdata, blocks_append 64 k whole rest hwholeLen.ge]
  have hrun : (blocks 64 k data).foldl compress h = run 64 compress h whole := by
    unfold run
    rw [hsplit]
  rw [← hk, absorbBlocks_eq, ← hrest, hrun]
  by_cases hlong : rest.length ≥ 56
  · have hpad := run_pad_long compress h (0x80 : UInt8) 0 len whole rest hdvd
      hrestLen (by omega) (by omega)
    rw [finish, if_pos hlong, hdata, hpad, hlen]
    rfl
  · have hshort : rest.length < 56 := by omega
    have hpad := run_pad_short compress h (0x80 : UInt8) 0 len whole rest hdvd
      (by omega)
    rw [finish, if_neg hlong, hdata, hpad, hlen, putLength_tailBlock hshort]

/-- With a compression function that another one simulates. -/
theorem finish_simulated {τ : Type} (f : σ → τ) {compress' : τ → Bytes → τ}
    (hsim : ∀ s block, compress' (f s) block = f (compress s block)) (h : σ) (data len : Bytes)
    (hlen : len.length = 8) :
    f (finish compress (absorbBlocks compress (data.length / 64) h data) len) =
      run 64 compress' (f h) (pad 64 0x80 0 len data) := by
  rw [finish_absorbBlocks compress h data len hlen, run_hom f hsim]

end Blocks

/-! ## The length -/

theorem bytesLE64_eq (w : UInt64) : bytesLE64 w = octetsLE 8 w.toBitVec := by
  apply List.map_congr_left
  intro i hi
  exact toUInt8_shiftRight64 w i (List.mem_range.1 hi)

/-- The length that is written counts the bits of the message. -/
theorem toBitVec_bitlen {m : Bytes} (h : m.length < 2 ^ 61) :
    (UInt64.ofNat m.length * 8).toBitVec = Message.bitLength ⟨m, bits_fit h⟩ := by
  apply BitVec.eq_of_toNat_eq
  simp only [Message.bitLength, UInt64.toNat_toBitVec, UInt64.toNat_mul, UInt64.toNat_ofNat',
    BitVec.toNat_ofNatLT, UInt64.reduceToNat]
  omega

end HiveNative
