import HiveNative.Lib.Machine

/-!
# The arena

`arena` of `perf/arena.hpp`: a bump allocator.  A chunk is modelled by its size, and
a block by the number of its chunk, its offset in the chunk and its size.  The
template `create` calls `allocate` and is not modelled.

`grow` can fail for want of memory.  The exception leaves `chunk_size_` as
`allocate` has set it and the rest as it was, and no block is returned.  Whether the
memory is `granted` is an argument of the model.

`Packed` is the invariant over the blocks handed out since the last `reset`: each is
inside its chunk, those of the last chunk are in front of `offset_`, and no two
overlap.  Every step keeps it, because a block is cut at `offset_` of the last
chunk and `offset_` moves behind it.
-/

namespace HiveNative.Perf

structure Arena where
  chunkSize : UInt64
  offset : UInt64 := 0
  /-- The sizes of the chunks, oldest first. -/
  chunks : List UInt64 := []
deriving Repr, DecidableEq

namespace Arena

/-- What `allocate` returns a pointer to. -/
structure Block where
  chunk : ℕ
  offset : UInt64
  size : UInt64
deriving Repr, DecidableEq

def grow (a : Arena) : Arena := { a with chunks := a.chunks ++ [a.chunkSize], offset := 0 }

/-- The constructor. -/
def new (chunk : UInt64 := 64 * 1024) : Arena := grow { chunkSize := chunk }

/-- `chunks_.back().size()` -/
def backSize (a : Arena) : UInt64 := a.chunks.getLastD 0

/-- `(align - (offset_ % align)) % align` -/
def pad (a : Arena) (align : UInt64) : UInt64 := (align - a.offset % align) % align

/-- The request does not fit into the last chunk. -/
def Overruns (a : Arena) (n align : UInt64) : Prop := a.offset + a.pad align + n > a.backSize

instance (a : Arena) (n align : UInt64) : Decidable (a.Overruns n align) :=
  inferInstanceAs (Decidable (_ > _))

/-- `if(need > chunk_size_) chunk_size_ = need;` -/
def widen (a : Arena) (n align : UInt64) : Arena :=
  { a with chunkSize := if n + align > a.chunkSize then n + align else a.chunkSize }

/-- The end of `allocate`: the block starts behind the padding. -/
def carve (a : Arena) (n align : UInt64) : Block × Arena :=
  let start := a.offset + a.pad align
  (⟨a.chunks.length - 1, start, n⟩, { a with offset := start + n })

def allocate (a : Arena) (n align : UInt64) (granted : Bool) : Option Block × Arena :=
  if a.Overruns n align then
    let a := a.widen n align
    if granted then (some (a.grow.carve n align).1, (a.grow.carve n align).2) else (none, a)
  else (some (a.carve n align).1, (a.carve n align).2)

def reset (a : Arena) : Arena :=
  if a.chunks.isEmpty then a
  else { a with chunks := if a.chunks.length > 1 then a.chunks.take 1 else a.chunks, offset := 0 }

def bytesUsed (a : Arena) : UInt64 :=
  if a.chunks.isEmpty then 0
  else (UInt64.ofNat a.chunks.length - 1) * a.chunkSize + a.offset

/-! ## Runs -/

/-- The calls that change an arena. -/
inductive Op where
  | allocate (n align : UInt64) (granted : Bool)
  | reset
deriving Repr, DecidableEq

def exec (op : Op) (a : Arena) : Option Block × Arena :=
  match op with
  | .allocate n align granted => a.allocate n align granted
  | .reset => (none, a.reset)

@[simp] theorem exec_allocate (n align : UInt64) (granted : Bool) (a : Arena) :
    exec (.allocate n align granted) a = a.allocate n align granted := rfl

/-- The arena after a sequence of calls, listed newest first. -/
abbrev after (chunk : UInt64) (ops : List Op) : Arena := Machine.final exec (new chunk) ops

/-- One call of a run, with the arena before and after it. -/
abbrev Event := Machine.Event Arena Op (Option Block)

/-- The calls of a run, newest first. -/
abbrev run (chunk : UInt64) (ops : List Op) : List Event := Machine.trace exec (new chunk) ops

/-- The blocks returned since the last `reset`, newest first. -/
def handed : List Event → List Block
  | [] => []
  | e :: past =>
      match e.label with
      | .allocate _ _ _ => e.outcome.toList ++ handed past
      | .reset => []

/-- The alignment is not zero, and the sizes that `allocate` adds up are sizes. -/
def Representable (a : Arena) : Op → Prop
  | .allocate n align _ =>
      1 ≤ align ∧ a.offset.toNat + (a.pad align).toNat + n.toNat < 2 ^ 64 ∧
        n.toNat + align.toNat < 2 ^ 64
  | .reset => True

instance (a : Arena) (op : Op) : Decidable (Representable a op) :=
  match op with
  | .allocate _ _ _ => inferInstanceAs (Decidable (_ ∧ _ ∧ _))
  | .reset => inferInstanceAs (Decidable True)

/-! ## Sizes -/

variable {a : Arena} {n align : UInt64}

theorem backSize_grow (a : Arena) : a.grow.backSize = a.chunkSize :=
  List.getLastD_concat

theorem length_grow (a : Arena) : a.grow.chunks.length = a.chunks.length + 1 :=
  List.length_append

/-- A chunk that has just been opened needs no padding. -/
theorem pad_grow (a : Arena) (align : UInt64) : a.grow.pad align = 0 := by
  simp [pad, grow]

theorem toNat_pad (a : Arena) (h : 1 ≤ align) :
    (a.pad align).toNat = (align.toNat - a.offset.toNat % align.toNat) % align.toNat := by
  have hpos : 0 < align.toNat := h
  have hle : a.offset % align ≤ align := by
    rw [UInt64.le_iff_toNat_le, UInt64.toNat_mod]
    exact (Nat.mod_lt _ hpos).le
  rw [pad, UInt64.toNat_mod, UInt64.toNat_sub_of_le _ _ hle, UInt64.toNat_mod]

/-- The padding leads to a multiple of the alignment. -/
theorem dvd_offset_add_pad (a : Arena) (h : 1 ≤ align) :
    align.toNat ∣ a.offset.toNat + (a.pad align).toNat := by
  have hpos : 0 < align.toNat := h
  have hlt := Nat.mod_lt a.offset.toNat hpos
  rw [toNat_pad a h]
  apply Nat.dvd_of_mod_eq_zero
  calc (a.offset.toNat + (align.toNat - a.offset.toNat % align.toNat) % align.toNat) % align.toNat
      = (a.offset.toNat % align.toNat + (align.toNat - a.offset.toNat % align.toNat)) %
          align.toNat := by rw [Nat.add_mod_mod, Nat.mod_add_mod]
    _ = 0 := by rw [Nat.add_sub_cancel' hlt.le, Nat.mod_self]

/-- The end of a block that starts at `offset_ + pad`, when it is a size. -/
theorem toNat_start (h : a.offset.toNat + (a.pad align).toNat + n.toNat < 2 ^ 64) :
    (a.offset + a.pad align).toNat = a.offset.toNat + (a.pad align).toNat ∧
      (a.offset + a.pad align + n).toNat = a.offset.toNat + (a.pad align).toNat + n.toNat := by
  have hstart : (a.offset + a.pad align).toNat = a.offset.toNat + (a.pad align).toNat := by
    rw [UInt64.toNat_add, Nat.mod_eq_of_lt (by omega)]
  refine ⟨hstart, ?_⟩
  rw [UInt64.toNat_add, hstart, Nat.mod_eq_of_lt h]

theorem overruns_iff (h : a.offset.toNat + (a.pad align).toNat + n.toNat < 2 ^ 64) :
    a.Overruns n align ↔
      a.backSize.toNat < a.offset.toNat + (a.pad align).toNat + n.toNat := by
  rw [Overruns, gt_iff_lt, UInt64.lt_iff_toNat_lt, (toNat_start h).2]

/-- After `widen` the chunks are large enough for the request and no smaller than
they were. -/
theorem le_widen (a : Arena) (h : n.toNat + align.toNat < 2 ^ 64) :
    n.toNat + align.toNat ≤ (a.widen n align).chunkSize.toNat ∧
      a.chunkSize.toNat ≤ (a.widen n align).chunkSize.toNat := by
  have hneed : (n + align).toNat = n.toNat + align.toNat := by
    rw [UInt64.toNat_add, Nat.mod_eq_of_lt h]
  show _ ≤ (if n + align > a.chunkSize then n + align else a.chunkSize).toNat ∧
    _ ≤ (if n + align > a.chunkSize then n + align else a.chunkSize).toNat
  split
  · next hgt =>
      have hlt : a.chunkSize.toNat < (n + align).toNat := hgt
      omega
  · next hle =>
      have hge : (n + align).toNat ≤ a.chunkSize.toNat := Nat.not_lt.mp hle
      omega

/-! ## Blocks -/

/-- The offset behind the block. -/
def Block.stop (b : Block) : ℕ := b.offset.toNat + b.size.toNat

/-- The blocks lie in different chunks or one in front of the other. -/
def Block.Apart (b b' : Block) : Prop :=
  b.chunk ≠ b'.chunk ∨ b.stop ≤ b'.offset.toNat ∨ b'.stop ≤ b.offset.toNat

/-- The block lies inside its chunk. -/
def Inside (a : Arena) (b : Block) : Prop := ∃ c, a.chunks[b.chunk]? = some c ∧ b.stop ≤ c.toNat

/-- The state of an arena that has handed out the blocks since the last `reset`. -/
structure Packed (a : Arena) (blocks : List Block) : Prop where
  chunks_ne : a.chunks ≠ []
  widest : ∀ c ∈ a.chunks, c.toNat ≤ a.chunkSize.toNat
  offset_le : a.offset.toNat ≤ a.backSize.toNat
  inside : ∀ b ∈ blocks, a.Inside b
  behind : ∀ b ∈ blocks, b.chunk + 1 = a.chunks.length → b.stop ≤ a.offset.toNat
  apart : blocks.Pairwise Block.Apart

variable {blocks : List Block}

/-- An arena with one chunk that nothing was cut from. -/
theorem packed_fresh {size c : UInt64} (h : c.toNat ≤ size.toNat) :
    Packed { chunkSize := size, offset := 0, chunks := [c] } [] := by
  refine ⟨List.cons_ne_nil _ _, fun x hx => ?_, Nat.zero_le _, ?_, ?_, List.Pairwise.nil⟩
  · rw [List.mem_singleton.mp hx]
    exact h
  · intro b hb
    cases hb
  · intro b hb
    cases hb

theorem packed_new (chunk : UInt64) : Packed (new chunk) [] := packed_fresh le_rfl

theorem Packed.back (h : Packed a blocks) : a.chunks[a.chunks.length - 1]? = some a.backSize := by
  rw [← List.getLast?_eq_getElem?, backSize, List.getLastD_eq_getLast?,
    List.getLast?_eq_some_getLast h.chunks_ne]
  rfl

theorem Packed.backSize_le (h : Packed a blocks) : a.backSize.toNat ≤ a.chunkSize.toNat :=
  h.widest _ (List.mem_of_getElem? h.back)

/-- A block is in a chunk that the arena has. -/
theorem Packed.chunk_lt (h : Packed a blocks) {b : Block} (hb : b ∈ blocks) :
    b.chunk < a.chunks.length := by
  obtain ⟨c, hc, -⟩ := h.inside b hb
  exact (List.getElem?_eq_some_iff.mp hc).1

theorem Packed.widen (h : Packed a blocks) (hn : n.toNat + align.toNat < 2 ^ 64) :
    Packed (a.widen n align) blocks :=
  ⟨h.chunks_ne, fun c hc => (h.widest c hc).trans (le_widen a hn).2, h.offset_le, h.inside,
    h.behind, h.apart⟩

theorem Packed.grow (h : Packed a blocks) : Packed a.grow blocks := by
  refine ⟨List.concat_ne_nil _ _, fun c hc => ?_, Nat.zero_le _, fun b hb => ?_,
    fun b hb hlast => ?_, h.apart⟩
  · cases List.mem_append.mp hc with
    | inl hold => exact h.widest c hold
    | inr hnew => rw [List.mem_singleton.mp hnew]; exact le_rfl
  · obtain ⟨c, hc, hstop⟩ := h.inside b hb
    refine ⟨c, ?_, hstop⟩
    show (a.chunks ++ [a.chunkSize])[b.chunk]? = some c
    rw [List.getElem?_append_left (h.chunk_lt hb), hc]
  · -- the blocks handed out before lie in the chunks before
    have hlt := h.chunk_lt hb
    rw [length_grow] at hlast
    omega

/-- Cutting a block that fits into the last chunk. -/
theorem Packed.carve (h : Packed a blocks) (ha : 1 ≤ align)
    (hfit : a.offset.toNat + (a.pad align).toNat + n.toNat ≤ a.backSize.toNat) :
    Packed (a.carve n align).2 ((a.carve n align).1 :: blocks) ∧
      align.toNat ∣ (a.carve n align).1.offset.toNat ∧
      (a.carve n align).2.Inside (a.carve n align).1 := by
  have hback := a.backSize.toNat_lt
  have hsum : a.offset.toNat + (a.pad align).toNat + n.toNat < 2 ^ 64 :=
    Nat.lt_of_le_of_lt hfit hback
  obtain ⟨hstart, hend⟩ := toNat_start hsum
  have hstop : (a.carve n align).1.stop = a.offset.toNat + (a.pad align).toNat + n.toNat := by
    show (a.offset + a.pad align).toNat + n.toNat = _
    rw [hstart]
  have hinside : (a.carve n align).2.Inside (a.carve n align).1 :=
    ⟨a.backSize, h.back, by rw [hstop]; exact hfit⟩
  refine ⟨⟨h.chunks_ne, h.widest, ?_, ?_, ?_, ?_⟩, ?_, hinside⟩
  · show (a.offset + a.pad align + n).toNat ≤ a.backSize.toNat
    rw [hend]
    exact hfit
  · exact List.forall_mem_cons.mpr ⟨hinside, h.inside⟩
  · show ∀ b ∈ (a.carve n align).1 :: blocks,
      b.chunk + 1 = a.chunks.length → b.stop ≤ (a.offset + a.pad align + n).toNat
    rw [hend]
    refine List.forall_mem_cons.mpr ⟨fun _ => hstop.le, fun b hb hlast => ?_⟩
    have := h.behind b hb hlast
    omega
  · refine List.pairwise_cons.mpr ⟨fun b hb => ?_, h.apart⟩
    by_cases hlast : b.chunk + 1 = a.chunks.length
    · -- an older block of the same chunk ends in front of `offset_`
      have hb' := h.behind b hb hlast
      refine Or.inr (Or.inr ?_)
      show b.stop ≤ (a.offset + a.pad align).toNat
      omega
    · have hpos := List.length_pos_iff.mpr h.chunks_ne
      refine Or.inl ?_
      show a.chunks.length - 1 ≠ b.chunk
      omega
  · show align.toNat ∣ (a.offset + a.pad align).toNat
    rw [hstart]
    exact dvd_offset_add_pad a ha

/-- `reset` keeps the first chunk. -/
theorem Packed.reset_eq (h : Packed a blocks) :
    ∃ c ∈ a.chunks, a.reset = { a with chunks := [c], offset := 0 } := by
  obtain ⟨c, cs, hc⟩ := List.exists_cons_of_ne_nil h.chunks_ne
  refine ⟨c, by rw [hc]; exact List.mem_cons_self, ?_⟩
  rw [Arena.reset, hc]
  cases cs with
  | nil => rfl
  | cons c' cs => simp

theorem Packed.reset (h : Packed a blocks) : Packed a.reset [] := by
  obtain ⟨c, hc, heq⟩ := h.reset_eq
  rw [heq]
  exact packed_fresh (h.widest c hc)

/-- What `allocate` can do: the block fits, a new chunk is opened for it, or there is
no memory for one. -/
theorem allocate_cases {granted : Bool} (h : Representable a (.allocate n align granted)) :
    (a.offset.toNat + (a.pad align).toNat + n.toNat ≤ a.backSize.toNat ∧
      a.allocate n align granted = (some (a.carve n align).1, (a.carve n align).2)) ∨
    (a.backSize.toNat < a.offset.toNat + (a.pad align).toNat + n.toNat ∧ granted = true ∧
      a.allocate n align granted =
        (some ((a.widen n align).grow.carve n align).1,
          ((a.widen n align).grow.carve n align).2)) ∨
    (a.backSize.toNat < a.offset.toNat + (a.pad align).toNat + n.toNat ∧ granted = false ∧
      a.allocate n align granted = (none, a.widen n align)) := by
  obtain ⟨-, hsum, -⟩ := h
  by_cases hover : a.Overruns n align
  · have hlt := (overruns_iff hsum).mp hover
    cases granted with
    | true => exact Or.inr (Or.inl ⟨hlt, rfl, if_pos hover⟩)
    | false => exact Or.inr (Or.inr ⟨hlt, rfl, if_pos hover⟩)
  · have hge := Nat.not_lt.mp fun hlt => hover ((overruns_iff hsum).mpr hlt)
    exact Or.inl ⟨hge, if_neg hover⟩

/-- The block is one for the request, in an arena that has it. -/
def Serves (a : Arena) (n align : UInt64) (b : Block) : Prop :=
  b.size = n ∧ align.toNat ∣ b.offset.toNat ∧ a.Inside b

theorem Packed.allocate (h : Packed a blocks) {granted : Bool}
    (hr : Representable a (.allocate n align granted)) :
    Packed (a.allocate n align granted).2 ((a.allocate n align granted).1.toList ++ blocks) ∧
      ∀ b, (a.allocate n align granted).1 = some b →
        (a.allocate n align granted).2.Serves n align b := by
  have ha : 1 ≤ align := hr.1
  have hneed : n.toNat + align.toNat < 2 ^ 64 := hr.2.2
  obtain ⟨hfit, heq⟩ | ⟨-, -, heq⟩ | ⟨-, -, heq⟩ := allocate_cases hr
  · obtain ⟨hpacked, hdvd, hinside⟩ := h.carve ha hfit
    rw [heq]
    refine ⟨hpacked, fun b hb => ?_⟩
    cases hb
    exact ⟨rfl, hdvd, hinside⟩
  · -- the chunk that was opened has room for the block
    have hroom : (a.widen n align).grow.offset.toNat +
        ((a.widen n align).grow.pad align).toNat + n.toNat ≤
        (a.widen n align).grow.backSize.toNat := by
      have hwide := (le_widen a hneed).1
      rw [pad_grow, backSize_grow]
      show 0 + 0 + n.toNat ≤ _
      omega
    obtain ⟨hpacked, hdvd, hinside⟩ := (h.widen hneed).grow.carve ha hroom
    rw [heq]
    refine ⟨hpacked, fun b hb => ?_⟩
    cases hb
    exact ⟨rfl, hdvd, hinside⟩
  · rw [heq]
    refine ⟨h.widen hneed, fun b hb => ?_⟩
    cases hb

/-- One step of a run. -/
theorem Packed.step {tr : List Event} (op : Op) (h : Packed a (handed tr))
    (hr : Representable a op) :
    Packed (exec op a).2 (handed (Machine.event exec a op :: tr)) := by
  cases op with
  | allocate n align granted => exact (h.allocate hr).1
  | reset => exact h.reset

/-- The calls of the run add up to sizes. -/
def RepresentableRun (tr : List Event) : Prop := ∀ e ∈ tr, Representable e.before e.label

instance (tr : List Event) : Decidable (RepresentableRun tr) :=
  inferInstanceAs (Decidable (∀ e ∈ tr, _))

theorem representableRun_tail (e : Event) (tr : List Event) (h : RepresentableRun (e :: tr)) :
    RepresentableRun tr :=
  (List.forall_mem_cons.mp h).2

theorem packed_after {chunk : UInt64} {ops : List Op} (h : RepresentableRun (run chunk ops)) :
    Packed (after chunk ops) (handed (run chunk ops)) :=
  Machine.invariant_of RepresentableRun (fun tr s => Packed s (handed tr)) representableRun_tail
    (packed_new chunk) (fun _ _ op hr hp => hp.step op (List.forall_mem_cons.mp hr).1) ops h

/-- Every block that is returned starts at a multiple of its alignment and ends in its
chunk, and the blocks returned since the last `reset` do not overlap. -/
theorem blocks_apart (chunk : UInt64) (ops : List Op) (h : RepresentableRun (run chunk ops)) :
    (∀ e ∈ run chunk ops, ∀ n align granted b, e.label = .allocate n align granted →
      e.outcome = some b → e.after.Serves n align b) ∧
    (handed (run chunk ops)).Pairwise Block.Apart := by
  refine ⟨fun e he n align granted b hlabel hb => ?_, (packed_after h).apart⟩
  obtain ⟨tr, hpacked, hr, hev⟩ := Machine.invariant_before RepresentableRun
    (fun tr s => Packed s (handed tr)) representableRun_tail (packed_new chunk)
    (fun _ _ op hr hp => hp.step op (List.forall_mem_cons.mp hr).1) ops h he
  have hreq : Representable e.before (.allocate n align granted) := by
    rw [← hlabel]
    exact (List.forall_mem_cons.mp hr).1
  rw [hlabel] at hev
  rw [hev] at hb ⊢
  exact (hpacked.allocate hreq).2 b hb

theorem blocks_apart_grown :
    let tr := run 64 [.allocate 4 8 true, .allocate 5 1 true, .allocate 100 16 true, .reset,
      .allocate 3 1 true]
    handed tr = [⟨1, 112, 4⟩, ⟨1, 100, 5⟩, ⟨1, 0, 100⟩] ∧ (handed tr).Pairwise Block.Apart :=
  ⟨by decide +kernel, (blocks_apart 64 _ (by decide +kernel)).2⟩

end Arena

end HiveNative.Perf
