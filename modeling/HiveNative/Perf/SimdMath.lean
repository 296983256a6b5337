import HiveNative.Lib.CellMemory
import HiveNative.Lib.CountedLoop

/-!
# Batches of 64-bit words

`perf/simd_math.hpp`: element-wise products and sums of arrays of `uint64_t`, once as
plain loops and once in the four builds that the preprocessor chooses from.  The builds
for NEON and SSE2 take two elements at a time and leave the last one of an odd batch to
the plain loop.

An array is a stretch of the memory, whose cells are `uint64_t` objects, and a pointer
is the number of a cell.  `size_t` has `w` bits, at least 16 in C++, and the memory has
the cells that `w` bits can address.  The arrays may overlap.

The intrinsics work on registers as their documentation has it.  An SSE2 register has
128 bits, the first element in the lower half.

A round of two lanes loads four elements before it stores two.  That is two rounds of
the plain loop (`twoLanes_eq`), unless the second of these loads what the first has
stored: unless an input starts one element before the output.  So the builds agree with
the plain loops, and what all of them leave is element-wise as long as no input starts
before the output and reaches into it.
-/

namespace HiveNative.Perf.SimdMath

open CellMemory CountedLoop

variable {w : ℕ}

/-- The `uint64_t` objects of an address space of `2^w` bytes. -/
abbrev Words (w : ℕ) := Memory UInt64 (2 ^ w / 8)

/-- A program over these. -/
abbrev Batch (w : ℕ) := Program UInt64 (2 ^ w / 8)

/-! ## NEON -/

namespace Neon

/-- `uint64x2_t` -/
abbrev Uint64x2 := Vector UInt64 2

def vld1qU64 (p : ℕ) : Batch w Uint64x2 := do
  let x ← load p
  let y ← load (p + 1)
  return #v[x, y]

def vst1qU64 (p : ℕ) (v : Uint64x2) : Batch w Unit := do
  store p v[0]
  store (p + 1) v[1]

def vgetqLaneU64 (v : Uint64x2) (lane : Fin 2) : UInt64 := v[lane]

/-- `uint64x1_t` -/
def vcreateU64 (x : UInt64) : Vector UInt64 1 := #v[x]

def vcombineU64 (low high : Vector UInt64 1) : Uint64x2 := #v[low[0], high[0]]

def vaddqU64 (a b : Uint64x2) : Uint64x2 := #v[a[0] + b[0], a[1] + b[1]]

end Neon

/-! ## SSE2 -/

namespace Sse2

/-- `__m128i` -/
abbrev M128i := BitVec 128

/-- The half of a register that holds the first or the second element. -/
def half (v : M128i) (i : ℕ) : UInt64 := UInt64.ofBitVec (v.extractLsb' (64 * i) 64)

/-- The register with these halves. -/
def ofHalves (high low : UInt64) : M128i := high.toBitVec ++ low.toBitVec

def loaduSi128 (p : ℕ) : Batch w M128i := do
  let low ← load p
  let high ← load (p + 1)
  return ofHalves high low

def storeuSi128 (p : ℕ) (v : M128i) : Batch w Unit := do
  store p (half v 0)
  store (p + 1) (half v 1)

/-- `_mm_store_si128` into a local array of two, that nothing else points to. -/
def storeSi128 (v : M128i) : Vector UInt64 2 := #v[half v 0, half v 1]

def cvtsi128Si64 (v : M128i) : Int64 := Int64.ofBitVec (v.extractLsb' 0 64)

/-- A shift by bytes. -/
def srliSi128 (v : M128i) (bytes : ℕ) : M128i := v >>> (8 * bytes)

def setEpi64x (e1 e0 : Int64) : M128i := e1.toBitVec ++ e0.toBitVec

def addEpi64 (a b : M128i) : M128i := ofHalves (half a 1 + half b 1) (half a 0 + half b 0)

end Sse2

/-! ## The loops -/

/-- The builds: `HIVE_NATIVE_SIMD_NEON`, `HIVE_NATIVE_SIMD_SSE2` with the extraction of
64 bits and with the one through arrays, and none of these. -/
inductive Build where
  | neon
  | sse2X64
  | sse2
  | plain
deriving Repr, DecidableEq

/-- `for(; i < n; ++i)`, which takes at most `n` rounds. -/
def remainder (n : BitVec w) (body : ℕ → Batch w Unit) (i : BitVec w) : Batch w Unit := do
  let _ ← loop (fun i => i < n) (fun i => i + 1) (fun i => body i.toNat) (n.toNat + 1) i
  return ()

/-- `for(; i + 2 <= n; i += 2)`, from zero on.  It takes at most `n` rounds, or it never
ends because `i + 2` wraps around. -/
def pairs (n : BitVec w) (body : ℕ → Batch w Unit) : Batch w (BitVec w) :=
  loop (fun i => i + 2 ≤ n) (fun i => i + 2) (fun i => body i.toNat) (n.toNat + 1) 0

/-- `out[i] = a[i] ∘ b[i]` -/
def element (f : UInt64 → UInt64 → UInt64) (a b out : ℕ) (i : ℕ) : Batch w Unit := do
  let x ← load (a + i)
  let y ← load (b + i)
  store (out + i) (f x y)

def batchMulU64Scalar (a b out : ℕ) (n : BitVec w) : Batch w Unit :=
  remainder n (element (· * ·) a b out) 0

def batchAddU64Scalar (a b out : ℕ) (n : BitVec w) : Batch w Unit :=
  remainder n (element (· + ·) a b out) 0

section Rounds

open Neon Sse2

/-- The body of the NEON loop of `batch_mul_u64`. -/
def mulNeon (a b out : ℕ) (i : ℕ) : Batch w Unit := do
  let va ← vld1qU64 (a + i)
  let vb ← vld1qU64 (b + i)
  let r0 := vgetqLaneU64 va 0 * vgetqLaneU64 vb 0
  let r1 := vgetqLaneU64 va 1 * vgetqLaneU64 vb 1
  let vr := vcombineU64 (vcreateU64 r0) (vcreateU64 r1)
  vst1qU64 (out + i) vr

/-- The elements of a register, with `_mm_cvtsi128_si64`. -/
def extracted (v : M128i) : UInt64 × UInt64 :=
  ((cvtsi128Si64 v).toUInt64, (cvtsi128Si64 (srliSi128 v 8)).toUInt64)

/-- The elements of a register, through an array. -/
def stored (v : M128i) : UInt64 × UInt64 :=
  let t := storeSi128 v
  (t[0], t[1])

/-- The body of the SSE2 loop of `batch_mul_u64`. -/
def mulSse2 (elements : M128i → UInt64 × UInt64) (a b out : ℕ) (i : ℕ) : Batch w Unit := do
  let va ← loaduSi128 (a + i)
  let vb ← loaduSi128 (b + i)
  let (a0, a1) := elements va
  let (b0, b1) := elements vb
  let vr := setEpi64x (a1 * b1).toInt64 (a0 * b0).toInt64
  storeuSi128 (out + i) vr

/-- The body of the NEON loop of `batch_add_u64`. -/
def addNeon (a b out : ℕ) (i : ℕ) : Batch w Unit := do
  let va ← vld1qU64 (a + i)
  let vb ← vld1qU64 (b + i)
  vst1qU64 (out + i) (vaddqU64 va vb)

/-- The body of the SSE2 loop of `batch_add_u64`. -/
def addSse2 (a b out : ℕ) (i : ℕ) : Batch w Unit := do
  let va ← loaduSi128 (a + i)
  let vb ← loaduSi128 (b + i)
  storeuSi128 (out + i) (addEpi64 va vb)

end Rounds

def batchMulU64 (build : Build) (a b out : ℕ) (n : BitVec w) : Batch w Unit := do
  let i ← match build with
    | .neon => pairs n (mulNeon a b out)
    | .sse2X64 => pairs n (mulSse2 extracted a b out)
    | .sse2 => pairs n (mulSse2 stored a b out)
    | .plain => pure 0
  remainder n (element (· * ·) a b out) i

def batchAddU64 (build : Build) (a b out : ℕ) (n : BitVec w) : Batch w Unit := do
  let i ← match build with
    | .neon => pairs n (addNeon a b out)
    | .sse2X64 | .sse2 => pairs n (addSse2 a b out)
    | .plain => pure 0
  remainder n (element (· + ·) a b out) i

/-! ## Lanes -/

section Lanes

open Neon Sse2

theorem half_ofHalves_zero (high low : UInt64) : half (ofHalves high low) 0 = low := by
  rw [half, ofHalves, Nat.mul_zero, BitVec.extractLsb'_append_eq_right]

theorem half_ofHalves_one (high low : UInt64) : half (ofHalves high low) 1 = high := by
  rw [half, ofHalves, Nat.mul_one, BitVec.extractLsb'_append_eq_left]

theorem half_srliSi128 (v : M128i) : half (srliSi128 v 8) 0 = half v 1 := by
  have hshift : (v >>> (8 * 8)).extractLsb' (64 * 0) 64 = v.extractLsb' (64 * 1) 64 := by
    apply BitVec.eq_of_toNat_eq
    rw [BitVec.extractLsb'_toNat, BitVec.extractLsb'_toNat, BitVec.toNat_ushiftRight]
    rfl
  rw [half, half, srliSi128, hshift]

theorem cvtsi128Si64_eq (v : M128i) : (cvtsi128Si64 v).toUInt64 = half v 0 := rfl

theorem setEpi64x_eq (high low : UInt64) :
    setEpi64x high.toInt64 low.toInt64 = ofHalves high low :=
  rfl

theorem extracted_ofHalves (high low : UInt64) : extracted (ofHalves high low) = (low, high) := by
  rw [extracted, cvtsi128Si64_eq, cvtsi128Si64_eq, half_srliSi128, half_ofHalves_zero,
    half_ofHalves_one]

theorem stored_ofHalves (high low : UInt64) : stored (ofHalves high low) = (low, high) := by
  show (half _ 0, half _ 1) = _
  rw [half_ofHalves_zero, half_ofHalves_one]

theorem addEpi64_ofHalves (high low high' low' : UInt64) :
    addEpi64 (ofHalves high low) (ofHalves high' low') = ofHalves (high + high') (low + low') := by
  rw [addEpi64, half_ofHalves_zero, half_ofHalves_one, half_ofHalves_zero, half_ofHalves_one]

/-! ## Rounds of two lanes -/

variable {f : UInt64 → UInt64 → UInt64} {a b out : ℕ}

/-- The two elements of a round, all loads before the stores. -/
def twoLanes (f : UInt64 → UInt64 → UInt64) (a b out : ℕ) (i : ℕ) : Batch w Unit := do
  let x0 ← load (a + i)
  let x1 ← load (a + i + 1)
  let y0 ← load (b + i)
  let y1 ← load (b + i + 1)
  store (out + i) (f x0 y0)
  store (out + i + 1) (f x1 y1)

theorem mulNeon_eq (i : ℕ) : (mulNeon a b out i : Batch w Unit) = twoLanes (· * ·) a b out i := by
  simp only [mulNeon, vld1qU64, vst1qU64, bind_assoc, pure_bind]
  rfl

theorem addNeon_eq (i : ℕ) : (addNeon a b out i : Batch w Unit) = twoLanes (· + ·) a b out i := by
  simp only [addNeon, vld1qU64, vst1qU64, bind_assoc, pure_bind]
  rfl

theorem storeuSi128_ofHalves (p : ℕ) (high low : UInt64) :
    (storeuSi128 p (ofHalves high low) : Batch w Unit) = (do store p low; store (p + 1) high) := by
  rw [storeuSi128, half_ofHalves_zero, half_ofHalves_one]

theorem mulSse2_eq {elements : M128i → UInt64 × UInt64}
    (h : ∀ high low, elements (ofHalves high low) = (low, high)) (i : ℕ) :
    (mulSse2 elements a b out i : Batch w Unit) = twoLanes (· * ·) a b out i := by
  simp only [mulSse2, loaduSi128, bind_assoc, pure_bind, h, setEpi64x_eq, storeuSi128_ofHalves]
  rfl

theorem addSse2_eq (i : ℕ) : (addSse2 a b out i : Batch w Unit) = twoLanes (· + ·) a b out i := by
  simp only [addSse2, loaduSi128, bind_assoc, pure_bind, addEpi64_ofHalves, storeuSi128_ofHalves]
  rfl

/-- Neither input starts one element before the output: a round of two lanes is two
rounds of one. -/
theorem twoLanes_eq (ha : out ≠ a + 1) (hb : out ≠ b + 1) (i : ℕ) :
    (twoLanes f a b out i : Batch w Unit) =
      (do element f a b out i; element f a b out (i + 1)) := by
  have hxa : out + i ≠ a + i + 1 := by omega
  have hyb : out + i ≠ b + i + 1 := by omega
  simp only [twoLanes, element, bind_assoc]
  refine congrArg (load (a + i) >>= ·) (funext fun x0 => ?_)
  rw [load_load]
  refine congrArg (load (b + i) >>= ·) (funext fun y0 => ?_)
  show _ = (do
    store (out + i) (f x0 y0)
    let x1 ← load (a + i + 1)
    let y1 ← load (b + i + 1)
    store (out + i + 1) (f x1 y1))
  rw [store_load hxa]
  refine congrArg (load (a + i + 1) >>= ·) (funext fun x1 => ?_)
  rw [store_load hyb]

end Lanes

/-! ## Counters -/

variable {f : UInt64 → UInt64 → UInt64} {a b out : ℕ}
variable {n : BitVec w} {body : ℕ → Batch w Unit}

theorem toNat_ofNat_of_le {k : ℕ} (h : k ≤ n.toNat) : (BitVec.ofNat w k).toNat = k := by
  rw [BitVec.toNat_ofNat, Nat.mod_eq_of_lt (Nat.lt_of_le_of_lt h n.isLt)]

theorem ofNat_two_mul_add (k : ℕ) : BitVec.ofNat w (2 * k) + 2 = BitVec.ofNat w (2 * k + 2) :=
  (BitVec.ofNat_add (2 * k) 2).symm

/-- The counter of the plain loop does not wrap around. -/
theorem counts_singles {start : ℕ} (h : start ≤ n.toNat) :
    Counts (fun i => decide (i < n)) (fun i => i + 1) (BitVec.ofNat w) start
      (n.toNat - start) where
  next_idx k := (BitVec.ofNat_add k 1).symm
  goes k hlo hhi := by
    have hlt : k < n.toNat := by omega
    rw [decide_eq_true_eq, BitVec.lt_def, toNat_ofNat_of_le hlt.le]
    exact hlt
  stops := by
    rw [decide_eq_false_iff_not, Nat.add_sub_cancel' h, BitVec.ofNat_toNat, BitVec.setWidth_eq]
    exact BitVec.lt_irrefl n

/-- Nor does the counter of the loop over pairs, when `n + 2` does not. -/
theorem counts_pairs (h : n.toNat + 2 < 2 ^ w) :
    Counts (fun i => decide (i + 2 ≤ n)) (fun i => i + 2) (fun k => BitVec.ofNat w (2 * k)) 0
      (n.toNat / 2) where
  next_idx := ofNat_two_mul_add
  goes k hlo hhi := by
    have hle : 2 * k + 2 ≤ n.toNat := by omega
    rw [decide_eq_true_eq, ofNat_two_mul_add, BitVec.le_def, toNat_ofNat_of_le hle]
    exact hle
  stops := by
    rw [decide_eq_false_iff_not, ofNat_two_mul_add, BitVec.le_def, BitVec.toNat_ofNat,
      Nat.mod_eq_of_lt (by omega)]
    omega

theorem remainder_eq_sweep {start : ℕ} (h : start ≤ n.toNat) :
    remainder n body (BitVec.ofNat w start) = sweep body start (n.toNat - start) := by
  have hcongr : sweep (fun k => body (BitVec.ofNat w k).toNat) start (n.toNat - start) =
      sweep body start (n.toNat - start) :=
    sweep_congr fun k hlo hhi => congrArg body (toNat_ofNat_of_le (n := n) (by omega))
  rw [remainder, loop_eq_sweep (counts_singles h) _ (Nat.lt_succ_of_le (Nat.sub_le _ _)), hcongr,
    bind_assoc]
  simp only [pure_bind]
  exact bind_pure _

theorem pairs_eq_sweep (h : n.toNat + 2 < 2 ^ w) :
    pairs n body = (do
      sweep (fun k => body (2 * k)) 0 (n.toNat / 2)
      pure (BitVec.ofNat w (2 * (n.toNat / 2)))) := by
  have hcongr : sweep (fun k => body (BitVec.ofNat w (2 * k)).toNat) 0 (n.toNat / 2) =
      sweep (fun k => body (2 * k)) 0 (n.toNat / 2) :=
    sweep_congr fun k hlo hhi => congrArg body (toNat_ofNat_of_le (n := n) (by omega))
  have hrounds : n.toNat / 2 < n.toNat + 1 := Nat.lt_succ_of_le (Nat.div_le_self _ _)
  have hloop := loop_eq_sweep (counts_pairs h) (fun i => body i.toNat) hrounds
  rw [Nat.zero_add, hcongr] at hloop
  exact hloop

/-- A loop over pairs whose rounds are two steps of the plain loop each, and the plain
loop over what is left, are the plain loop. -/
theorem pairs_remainder {pair : ℕ → Batch w Unit} (h : n.toNat + 2 < 2 ^ w)
    (hpair : ∀ i, i + 2 ≤ n.toNat → pair i = (do body i; body (i + 1))) :
    (do let i ← pairs n pair; remainder n body i) = remainder n body 0 := by
  have hsplit : 2 * (n.toNat / 2) + (n.toNat - 2 * (n.toNat / 2)) = n.toNat := by omega
  have hblocks : sweep (fun k => pair (2 * k)) 0 (n.toNat / 2) =
      sweep body 0 (2 * (n.toNat / 2)) := by
    rw [← Nat.mul_zero 2, ← sweep_blocks]
    refine sweep_congr fun k hlo hhi => ?_
    rw [sweep_two, hpair (2 * k) (by omega)]
  rw [pairs_eq_sweep h, hblocks, bind_assoc, pure_bind, remainder_eq_sweep (by omega)]
  show _ = remainder n body (BitVec.ofNat w 0)
  rw [remainder_eq_sweep (Nat.zero_le _), Nat.sub_zero]
  conv_rhs => rw [← hsplit, sweep_add, Nat.zero_add]

/-! ## The results -/

/-- Nothing but the output was written. -/
def Outside (m m' : Words w) (out n : ℕ) : Prop :=
  ∀ p, p < out ∨ out + n ≤ p → m'.cells p = m.cells p

/-- In `m'` the output has the results of the inputs in `m`. -/
def ElementWise (f : UInt64 → UInt64 → UInt64) (m m' : Words w) (a b out n : ℕ) : Prop :=
  ∀ i < n, ∃ x y, m.cells (a + i) = some x ∧ m.cells (b + i) = some y ∧
    m'.cells (out + i) = some (f x y)

/-- The input does not start before the output and reach into it. -/
def Clear (input out n : ℕ) : Prop := out ≤ input ∨ input + n ≤ out

/-- The output has two elements or more, and the input starts one element before it. -/
def Lags (input out n : ℕ) : Prop := 2 ≤ n ∧ out = input + 1

/-- The plain loop before the element `k`. -/
structure Progress (f : UInt64 → UInt64 → UInt64) (m : Words w) (a b out n k : ℕ) (s : Words w) :
    Prop where
  allocated : ∀ p, (s.cells p).isSome = (m.cells p).isSome
  outside : Outside m s out k
  results : Clear a out n → Clear b out n → ElementWise f m s a b out k

variable {m s : Words w} {k len : ℕ}

/-- An element of a clear input that the loop has not come to is not written yet. -/
theorem Clear.unwritten {input : ℕ} (h : Clear input out len) (hk : k < len) :
    input + k < out ∨ out + k ≤ input + k := by
  unfold Clear at h
  omega

theorem Progress.step (h : Progress f m a b out len k s) (hk : k < len)
    (ha : m.HasArray a len) (hb : m.HasArray b len) (hout : m.HasArray out len) :
    ∃ s', element f a b out k s = some ((), s') ∧ Progress f m a b out len (k + 1) s' := by
  obtain ⟨x, hx⟩ := Option.isSome_iff_exists.mp ((h.allocated (a + k)).trans (ha k hk))
  obtain ⟨y, hy⟩ := Option.isSome_iff_exists.mp ((h.allocated (b + k)).trans (hb k hk))
  have hcell := (h.allocated (out + k)).trans (hout k hk)
  refine ⟨s.write (out + k) (f x y) hcell, ?_, fun p => ?_, fun p hp => ?_, fun hca hcb i hi => ?_⟩
  · rw [element, load_bind, hx, Option.bind_some, load_bind, hy, Option.bind_some]
    exact run_store hcell _
  · rw [Memory.write_isSome, h.allocated]
  · rw [Memory.write_cells_ne hcell (by omega)]
    exact h.outside p (by omega)
  · by_cases hik : i = k
    · subst hik
      refine ⟨x, y, ?_, ?_, Memory.write_cells_self hcell⟩
      · rw [← h.outside _ (hca.unwritten hk), hx]
      · rw [← h.outside _ (hcb.unwritten hk), hy]
    · obtain ⟨x', y', hx', hy', hres⟩ := h.results hca hcb i (by omega)
      refine ⟨x', y', hx', hy', ?_⟩
      rw [Memory.write_cells_ne hcell (by omega)]
      exact hres

/-- What the plain loop leaves. -/
theorem remainder_spec (f : UInt64 → UInt64 → UInt64) (ha : m.HasArray a n.toNat)
    (hb : m.HasArray b n.toNat) (hout : m.HasArray out n.toNat) :
    ∃ m', remainder n (element f a b out) 0 m = some ((), m') ∧ Outside m m' out n.toNat ∧
      (Clear a out n.toNat → Clear b out n.toNat → ElementWise f m m' a b out n.toNat) := by
  have hstart : Progress f m a b out n.toNat 0 m :=
    ⟨fun _ => rfl, fun _ _ => rfl, fun _ _ i hi => absurd hi (Nat.not_lt_zero i)⟩
  obtain ⟨m', hrun, hm'⟩ : ∃ m', sweep (element f a b out) 0 n.toNat m = some ((), m') ∧
      Progress f m a b out n.toNat (0 + n.toNat) m' :=
    sweep_rule _ (fun k s _ hk h => h.step (by omega) ha hb hout) hstart
  rw [Nat.zero_add] at hm'
  refine ⟨m', ?_, hm'.outside, hm'.results⟩
  show remainder n (element f a b out) (BitVec.ofNat w 0) m = _
  rw [remainder_eq_sweep (Nat.zero_le _), Nat.sub_zero]
  exact hrun

/-! ## Main result -/

theorem Clear.not_lags {input : ℕ} (h : Clear input out len) : ¬ Lags input out len := by
  unfold Clear Lags at *
  omega

/-- The two arrays do not overlap. -/
def Apart (p q n : ℕ) : Prop := p + n ≤ q ∨ q + n ≤ p

theorem clear_of_apart {input : ℕ} (h : Apart input out len) : Clear input out len := by
  unfold Clear Apart at *
  omega

theorem clear_self (out len : ℕ) : Clear out out len := Or.inl le_rfl

/-- Both programs finish and leave the same memory.  Only the output was written, and it
has the element-wise results if the inputs are clear of it. -/
def Agree (f : UInt64 → UInt64 → UInt64) (m : Words w) (batch scalar : Batch w Unit)
    (a b out n : ℕ) : Prop :=
  ∃ m', batch m = some ((), m') ∧ scalar m = some ((), m') ∧ Outside m m' out n ∧
    (Clear a out n → Clear b out n → ElementWise f m m' a b out n)

/-- A program that is the plain loop agrees with it. -/
theorem agree_of_eq {batch : Batch w Unit} (ha : m.HasArray a n.toNat)
    (hb : m.HasArray b n.toNat) (hout : m.HasArray out n.toNat)
    (h : batch = remainder n (element f a b out) 0) :
    Agree f m batch (remainder n (element f a b out) 0) a b out n.toNat := by
  obtain ⟨m', hrun, hrest⟩ := remainder_spec f ha hb hout
  refine ⟨m', ?_, hrun, hrest⟩
  rw [h, hrun]

/-- Rounds of two lanes with the plain loop behind them are the plain loop: the output is
in the address space, so `n + 2` does not wrap around. -/
theorem lanes_remainder {pair : ℕ → Batch w Unit} (hw : 16 ≤ w) (hout : m.HasArray out n.toNat)
    (hlag : ¬ Lags a out n.toNat ∧ ¬ Lags b out n.toNat)
    (hpair : ∀ i, pair i = twoLanes f a b out i) :
    (do let i ← pairs n pair; remainder n (element f a b out) i) =
      remainder n (element f a b out) 0 := by
  have hspace := hout.length_le
  have hwide : 2 ^ 16 ≤ 2 ^ w := Nat.pow_le_pow_right (by decide) hw
  refine pairs_remainder (by omega) fun i hi => ?_
  rw [hpair, twoLanes_eq (fun h => hlag.1 ⟨by omega, h⟩) fun h => hlag.2 ⟨by omega, h⟩]

/-- Every build of both operations leaves what its plain loop leaves, unless an input
starts one element before the output. -/
theorem batches_agree (hw : 16 ≤ w) (build : Build) (m : Words w) (a b out : ℕ) (n : BitVec w)
    (ha : m.HasArray a n.toNat) (hb : m.HasArray b n.toNat) (hout : m.HasArray out n.toNat)
    (hlag : ¬ Lags a out n.toNat ∧ ¬ Lags b out n.toNat) :
    Agree (· * ·) m (batchMulU64 build a b out n) (batchMulU64Scalar a b out n)
      a b out n.toNat ∧
    Agree (· + ·) m (batchAddU64 build a b out n) (batchAddU64Scalar a b out n)
      a b out n.toNat := by
  cases build with
  | neon =>
      exact ⟨agree_of_eq ha hb hout (lanes_remainder hw hout hlag mulNeon_eq),
        agree_of_eq ha hb hout (lanes_remainder hw hout hlag addNeon_eq)⟩
  | sse2X64 =>
      exact ⟨agree_of_eq ha hb hout (lanes_remainder hw hout hlag (mulSse2_eq extracted_ofHalves)),
        agree_of_eq ha hb hout (lanes_remainder hw hout hlag addSse2_eq)⟩
  | sse2 =>
      exact ⟨agree_of_eq ha hb hout (lanes_remainder hw hout hlag (mulSse2_eq stored_ofHalves)),
        agree_of_eq ha hb hout (lanes_remainder hw hout hlag addSse2_eq)⟩
  | plain =>
      exact ⟨agree_of_eq ha hb hout (pure_bind _ _), agree_of_eq ha hb hout (pure_bind _ _)⟩

/-- Three elements of one array, multiplied in place by three of another. -/
theorem batches_agree_inPlace :
    let m : Words 32 := .ofList [0xffffffffffffffff, 5, 7, 2, 3, 4] (by decide)
    ∃ m', batchMulU64 .sse2 0 3 0 3 m = some ((), m') ∧
      batchMulU64Scalar 0 3 0 3 m = some ((), m') ∧ ElementWise (· * ·) m m' 0 3 0 3 := by
  intro m
  have hfirst : Clear 0 0 3 := clear_self 0 3
  have hsecond : Clear 3 0 3 := clear_of_apart (Or.inr (by decide))
  obtain ⟨⟨m', hbatch, hscalar, -, hres⟩, -⟩ := batches_agree (by decide) .sse2 m 0 3 0 3
    (by decide +kernel) (by decide +kernel) (by decide +kernel)
    ⟨hfirst.not_lags, hsecond.not_lags⟩
  exact ⟨m', hbatch, hscalar, hres hfirst hsecond⟩

/-- The output overlaps neither input, or it is one of them. -/
def Placed (a b out n : ℕ) : Prop := (Apart a out n ∧ Apart b out n) ∨ out = a ∨ out = b

/-- Two elements in place, where the other input starts one element before them.  The plain
loop reads back the product that it has just written: it leaves 15 and 105, where two lanes
leave 15 and 35. -/
theorem shifted_input_disagrees :
    let m : Words 64 := .ofList [3, 5, 7] (by decide)
    m.HasArray 1 2 ∧ m.HasArray 0 2 ∧ Placed 1 0 1 2 ∧
      ∀ build ∈ [Build.neon, .sse2X64, .sse2],
        ¬ Agree (· * ·) m (batchMulU64 build 1 0 1 2) (batchMulU64Scalar 1 0 1 2) 1 0 1 2 := by
  intro m
  refine ⟨by decide +kernel, by decide +kernel, Or.inr (Or.inl rfl), fun build hbuild hagree => ?_⟩
  have hlast : ((batchMulU64Scalar 1 0 1 2 m).map fun r => r.2.cells 2) = some (some 105) := by
    decide +kernel
  have hlanes : ∀ build ∈ [Build.neon, .sse2X64, .sse2],
      ((batchMulU64 build 1 0 1 2 m).map fun r => r.2.cells 2) = some (some 35) := by
    decide +kernel
  obtain ⟨m', hbatch, hscalar, -⟩ := hagree
  have h := hlanes build hbuild
  rw [hbatch, ← hscalar, hlast] at h
  exact absurd h (by decide)

end HiveNative.Perf.SimdMath
