import HiveNative.Perf.Arena

/-!
# What an arena says it uses

`bytes_used` counts every chunk but the last with the size `chunk_size_` has now.  A
request that is larger than a chunk raises `chunk_size_`, and the chunks that were
there before, or that a `reset` has kept, stay as they are.  `shortfall` is what
they lack.

As a natural number (`usage`) the count is never below the bytes requested since the last
`reset`.  It is within the chunks as long as the room left in the last chunk makes up for
the shortfall of the others, and `Covered` says when a call leaves the arena so.  Then
`bytes_used` returns it, as the chunks together are a size (`usage_sound`).  A count that
is larger than the chunks may be no size, and `bytes_used` wraps around (`usage_wraps`).
-/

namespace HiveNative.Perf.Arena

/-- The bytes of the chunks that the arena holds. -/
def total (a : Arena) : ℕ := (a.chunks.map UInt64.toNat).sum

/-- What `bytes_used` counts, as a natural number. -/
def usage (a : Arena) : ℕ := (a.chunks.length - 1) * a.chunkSize.toNat + a.offset.toNat

/-- The bytes of the blocks returned since the last `reset`. -/
def requested (tr : List Event) : ℕ := ((handed tr).map fun b => b.size.toNat).sum

/-- What the chunks lack when each is counted with `size` bytes. -/
def shortfall (size : ℕ) (chunks : List UInt64) : ℕ := (chunks.map fun c => size - c.toNat).sum

/-- By how much a request that does not fit raises `chunk_size_`. -/
def raise (a : Arena) (n align : UInt64) : ℕ := n.toNat + align.toNat - a.chunkSize.toNat

/-- The chunks lack no more than the last one has room for.  A block that fits takes some
of the room.  A block that does not may raise `chunk_size_`, and the chunks held so far
then lack that much more each, against the room in a new chunk or, when there is no memory
for one, in the last. -/
def Covered (a : Arena) : Op → Prop
  | .allocate n align granted =>
      if a.Overruns n align then
        if granted then
          n.toNat + (shortfall a.chunkSize.toNat a.chunks + a.chunks.length * a.raise n align) ≤
            a.chunkSize.toNat + a.raise n align
        else
          a.offset.toNat + (shortfall a.chunkSize.toNat a.chunks.dropLast +
            (a.chunks.length - 1) * a.raise n align) ≤ a.backSize.toNat
      else
        a.offset.toNat + (a.pad align).toNat + n.toNat +
          shortfall a.chunkSize.toNat a.chunks.dropLast ≤ a.backSize.toNat
  | .reset => True

instance (a : Arena) (op : Op) : Decidable (Covered a op) :=
  match op with
  | .allocate n align granted =>
      inferInstanceAs (Decidable (if a.Overruns n align then
        (if granted then _ ≤ _ else _ ≤ _) else _ ≤ _))
  | .reset => inferInstanceAs (Decidable True)

variable {a : Arena} {blocks : List Block} {n align : UInt64}

/-! ## The count -/

theorem toNat_bytesUsed (h : a.chunks ≠ []) (hu : a.usage < 2 ^ 64) :
    a.bytesUsed.toNat = a.usage := by
  have hpos := List.length_pos_iff.mpr h
  have hne : a.chunks.isEmpty = false := List.isEmpty_eq_false_iff.mpr h
  have hpred : UInt64.ofNat a.chunks.length - 1 = UInt64.ofNat (a.chunks.length - 1) := by
    rw [UInt64.ofNat_sub hpos]
    rfl
  rw [bytesUsed, hne, if_neg Bool.false_ne_true, hpred, UInt64.toNat_add, UInt64.toNat_mul,
    UInt64.toNat_ofNat', Nat.mod_mul_mod, Nat.mod_add_mod]
  exact Nat.mod_eq_of_lt hu

theorem sum_add_shortfall {size : ℕ} {chunks : List UInt64} (h : ∀ c ∈ chunks, c.toNat ≤ size) :
    (chunks.map UInt64.toNat).sum + shortfall size chunks = chunks.length * size := by
  induction chunks with
  | nil => rw [List.length_nil, Nat.zero_mul]; rfl
  | cons c cs ih =>
      obtain ⟨hc, hcs⟩ := List.forall_mem_cons.mp h
      have := ih hcs
      simp only [shortfall, List.map_cons, List.sum_cons, List.length_cons, Nat.add_one_mul]
        at this ⊢
      omega

theorem shortfall_add {size : ℕ} {chunks : List UInt64} (h : ∀ c ∈ chunks, c.toNat ≤ size)
    (more : ℕ) :
    shortfall (size + more) chunks = shortfall size chunks + chunks.length * more := by
  induction chunks with
  | nil => simp [shortfall]
  | cons c cs ih =>
      obtain ⟨hc, hcs⟩ := List.forall_mem_cons.mp h
      have := ih hcs
      simp only [shortfall, List.map_cons, List.sum_cons, List.length_cons, Nat.add_one_mul]
        at this ⊢
      omega

theorem toNat_widen (a : Arena) (h : n.toNat + align.toNat < 2 ^ 64) :
    (a.widen n align).chunkSize.toNat = a.chunkSize.toNat + a.raise n align := by
  have hneed : (n + align).toNat = n.toNat + align.toNat := by
    rw [UInt64.toNat_add, Nat.mod_eq_of_lt h]
  show (if n + align > a.chunkSize then n + align else a.chunkSize).toNat = _
  rw [raise, ← hneed]
  split
  · next hgt =>
      have hlt : a.chunkSize.toNat < (n + align).toNat := hgt
      omega
  · next hle =>
      have hge : (n + align).toNat ≤ a.chunkSize.toNat := Nat.not_lt.mp hle
      omega

theorem Packed.total_eq (h : Packed a blocks) :
    a.total = (a.chunks.dropLast.map UInt64.toNat).sum + a.backSize.toNat := by
  have hlast : a.chunks.getLast h.chunks_ne = a.backSize := by
    rw [backSize, List.getLastD_eq_getLast?, List.getLast?_eq_some_getLast h.chunks_ne]
    rfl
  calc a.total = ((a.chunks.dropLast ++ [a.chunks.getLast h.chunks_ne]).map UInt64.toNat).sum := by
        rw [List.dropLast_append_getLast]
        rfl
    _ = _ := by
        rw [hlast, List.map_append, List.sum_append]
        rfl

/-- The count is within the chunks when the rest of the last one makes up for the
shortfall of the others. -/
theorem Packed.usage_le_iff (h : Packed a blocks) :
    a.usage ≤ a.total ↔
      a.offset.toNat + shortfall a.chunkSize.toNat a.chunks.dropLast ≤ a.backSize.toNat := by
  have hsum := sum_add_shortfall fun c hc => h.widest c (List.mem_of_mem_dropLast hc)
  rw [List.length_dropLast] at hsum
  rw [usage, h.total_eq, ← hsum]
  omega

/-! ## One call -/

/-- A block at the start of a chunk. -/
theorem offset_carve_grow (a : Arena) (n align : UInt64) :
    (a.grow.carve n align).2.offset.toNat = n.toNat := by
  show (a.grow.offset + a.grow.pad align + n).toNat = _
  rw [pad_grow]
  show ((0 : UInt64) + 0 + n).toNat = _
  rw [UInt64.zero_add, UInt64.zero_add]

/-- A call leaves the count within the chunks exactly if it is covered. -/
theorem Packed.usage_le_step {tr : List Event} (op : Op) (h : Packed a (handed tr))
    (hr : Representable a op) :
    (exec op a).2.usage ≤ (exec op a).2.total ↔ Covered a op := by
  rw [(h.step op hr).usage_le_iff]
  cases op with
  | reset =>
      obtain ⟨c, -, heq⟩ := h.reset_eq
      show a.reset.offset.toNat + shortfall _ a.reset.chunks.dropLast ≤ _ ↔ True
      rw [heq]
      exact iff_of_true (Nat.zero_le _) trivial
  | allocate n align granted =>
      have hover := overruns_iff hr.2.1
      have hsize := toNat_widen a hr.2.2
      rcases allocate_cases hr with ⟨hfit, heq⟩ | ⟨hlt, rfl, heq⟩ | ⟨hlt, rfl, heq⟩
      · have hno : ¬ a.Overruns n align := fun ho => absurd (hover.mp ho) (Nat.not_lt.mpr hfit)
        rw [exec_allocate, heq, Covered, if_neg hno]
        show (a.offset + a.pad align + n).toNat + _ ≤ _ ↔ _
        rw [(toNat_start hr.2.1).2]
        rfl
      · rw [exec_allocate, heq, Covered, if_pos (hover.mpr hlt), if_pos rfl]
        show ((a.widen n align).grow.carve n align).2.offset.toNat + _ ≤
          (a.widen n align).grow.backSize.toNat ↔ _
        rw [offset_carve_grow, backSize_grow, hsize, ← shortfall_add h.widest, ← hsize]
        show n.toNat + shortfall _ (a.chunks ++ [(a.widen n align).chunkSize]).dropLast ≤ _ ↔ _
        rw [List.dropLast_concat]
        rfl
      · have hearlier : ∀ c ∈ a.chunks.dropLast, c.toNat ≤ a.chunkSize.toNat :=
          fun c hc => h.widest c (List.mem_of_mem_dropLast hc)
        rw [exec_allocate, heq, Covered, if_pos (hover.mpr hlt), if_neg Bool.false_ne_true,
          ← List.length_dropLast, ← shortfall_add hearlier, ← hsize]
        rfl

/-- The count is not below the bytes requested since the last `reset`. -/
theorem Packed.requested_le_step {tr : List Event} (op : Op) (h : Packed a (handed tr))
    (hr : Representable a op) (hle : requested tr ≤ a.usage) :
    requested (Machine.event exec a op :: tr) ≤ (exec op a).2.usage := by
  cases op with
  | reset => exact Nat.zero_le _
  | allocate n align granted =>
      have hlen := List.length_pos_iff.mpr h.chunks_ne
      have hwide := (le_widen a hr.2.2).2
      show ((((exec (.allocate n align granted) a).1.toList ++ handed tr).map _).sum) ≤ _
      obtain ⟨hfit, heq⟩ | ⟨hlt, rfl, heq⟩ | ⟨hlt, rfl, heq⟩ := allocate_cases hr
      · rw [exec_allocate, heq]
        show n.toNat + requested tr ≤ (a.chunks.length - 1) * a.chunkSize.toNat +
          (a.offset + a.pad align + n).toNat
        rw [(toNat_start hr.2.1).2]
        rw [usage] at hle
        omega
      · -- the chunk that is left behind counts as much as it can have been used
        have hleave : a.usage ≤ a.chunks.length * (a.widen n align).chunkSize.toNat := by
          have hoff := h.offset_le.trans (h.backSize_le.trans hwide)
          have hmul := Nat.mul_le_mul_left (a.chunks.length - 1) hwide
          calc a.usage ≤ (a.chunks.length - 1) * (a.widen n align).chunkSize.toNat +
                (a.widen n align).chunkSize.toNat := Nat.add_le_add hmul hoff
            _ = _ := by rw [← Nat.add_one_mul, Nat.sub_add_cancel hlen]
        rw [exec_allocate, heq]
        show n.toNat + requested tr ≤
          ((a.chunks ++ [(a.widen n align).chunkSize]).length - 1) *
            (a.widen n align).chunkSize.toNat +
            ((a.widen n align).grow.carve n align).2.offset.toNat
        rw [offset_carve_grow, List.length_append, List.length_singleton, Nat.add_sub_cancel]
        omega
      · have hmul := Nat.mul_le_mul_left (a.chunks.length - 1) hwide
        rw [exec_allocate, heq]
        exact hle.trans (Nat.add_le_add_right hmul _)

/-! ## Runs -/

/-- The count lies between the bytes requested since the last `reset` and the bytes of
the chunks. -/
def Sound (chunk : UInt64) (ops : List Op) : Prop :=
  requested (run chunk ops) ≤ (after chunk ops).bytesUsed.toNat ∧
    (after chunk ops).bytesUsed.toNat ≤ (after chunk ops).total

instance (chunk : UInt64) (ops : List Op) : Decidable (Sound chunk ops) :=
  inferInstanceAs (Decidable (_ ∧ _))

theorem requested_le_after {chunk : UInt64} {ops : List Op}
    (h : RepresentableRun (run chunk ops)) :
    requested (run chunk ops) ≤ (after chunk ops).usage := by
  induction ops with
  | nil => exact Nat.zero_le _
  | cons op past ih =>
      have hpast := representableRun_tail _ _ h
      exact (packed_after hpast).requested_le_step op (List.forall_mem_cons.mp h).1 (ih hpast)

/-- Covered calls keep the count within the chunks. -/
theorem usage_le_after {chunk : UInt64} {ops : List Op} (h : RepresentableRun (run chunk ops))
    (hc : ∀ e ∈ run chunk ops, Covered e.before e.label) :
    (after chunk ops).usage ≤ (after chunk ops).total := by
  cases ops with
  | nil => simp [usage, after, Arena.new, grow]
  | cons op past =>
      have hpast := packed_after (representableRun_tail _ _ h)
      exact (hpast.usage_le_step op (h _ List.mem_cons_self)).mpr (hc _ List.mem_cons_self)

theorem sound_of_usage_le {chunk : UInt64} {ops : List Op} (h : RepresentableRun (run chunk ops))
    (hle : (after chunk ops).usage ≤ (after chunk ops).total)
    (ht : (after chunk ops).total < 2 ^ 64) : Sound chunk ops := by
  rw [Sound, toNat_bytesUsed (packed_after h).chunks_ne (Nat.lt_of_le_of_lt hle ht)]
  exact ⟨requested_le_after h, hle⟩

/-- A call that leaves the count sound was covered, or what `bytes_used` counts is no size
any more. -/
theorem covered_of_sound {chunk : UInt64} {op : Op} {past : List Op}
    (h : RepresentableRun (run chunk (op :: past))) (hs : Sound chunk (op :: past)) :
    Covered (after chunk past) op ∨ 2 ^ 64 ≤ (after chunk (op :: past)).usage := by
  rcases Nat.lt_or_ge (after chunk (op :: past)).usage (2 ^ 64) with hlt | hge
  · have hpast := packed_after (representableRun_tail _ _ h)
    rw [Sound, toNat_bytesUsed (packed_after h).chunks_ne hlt] at hs
    exact Or.inl ((hpast.usage_le_step op (h _ List.mem_cons_self)).mp hs.2)
  · exact Or.inr hge

/-- The count is sound in every state of a run whose calls are covered, when the chunks
together are always a size.  And a call that is not covered leaves the count too large,
unless it is so large that it wraps around. -/
theorem usage_sound (chunk : UInt64) (ops : List Op) (h : RepresentableRun (run chunk ops))
    (ht : ∀ e ∈ run chunk ops, e.after.total < 2 ^ 64) :
    ((∀ e ∈ run chunk ops, Covered e.before e.label) → ∀ past, past <:+ ops → Sound chunk past) ∧
      ((∀ past, past <:+ ops → Sound chunk past) →
        ∀ e ∈ run chunk ops, Covered e.before e.label ∨ 2 ^ 64 ≤ e.after.usage) := by
  refine ⟨fun hc past hp => ?_, fun hs e he => ?_⟩
  · have hsub : ∀ e ∈ run chunk past, e ∈ run chunk ops :=
      fun e he => (Machine.trace_suffix hp).subset he
    have hpast : RepresentableRun (run chunk past) := fun e he => h e (hsub e he)
    refine sound_of_usage_le hpast (usage_le_after hpast fun e he => hc e (hsub e he)) ?_
    cases past with
    | nil => simpa [total, after, Arena.new, grow] using chunk.toNat_lt
    | cons op past => exact ht _ (hsub _ List.mem_cons_self)
  · obtain ⟨later, past, rfl, hev⟩ := Machine.mem_trace he
    have hp : e.label :: past <:+ later ++ e.label :: past := List.suffix_append _ _
    have hpast : RepresentableRun (run chunk (e.label :: past)) :=
      fun e' he' => h e' ((Machine.trace_suffix hp).subset he')
    rw [hev]
    exact covered_of_sound hpast (hs _ hp)

theorem usage_sound_filled :
    let ops := [Op.allocate 40 8 true, .reset, .allocate 40 8 true, .allocate 30 4 true]
    Sound 64 ops ∧ Sound 64 (ops.drop 2) ∧ (after 64 (ops.drop 2)).bytesUsed = 104 := by
  intro ops
  have hall := (usage_sound 64 ops (by decide +kernel) (by decide +kernel)).1 (by decide +kernel)
  exact ⟨hall _ List.suffix_rfl, hall _ (List.drop_suffix 2 ops), by decide +kernel⟩

/-- A request that is larger than the chunk: the count is 2016 bytes, the chunks have
1080. -/
theorem usage_exceeds_chunks :
    let ops := [Op.allocate 1000 16 true]
    RepresentableRun (run 64 ops) ∧ (after 64 ops).bytesUsed = 2016 ∧
      (after 64 ops).total = 1080 ∧ ¬ Sound 64 ops := by
  decide +kernel

/-- Five blocks of a chunk each, and a request of a quarter of the address space that is
refused.  It raises `chunk_size_`, and four times that wraps around: the count is 64 bytes,
of 320 requested. -/
theorem usage_wraps :
    let ops := Op.allocate (2 ^ 62 - 1) 1 false :: List.replicate 5 (Op.allocate 64 1 true)
    RepresentableRun (run 64 ops) ∧ Sound 64 ops.tail ∧ (after 64 ops).bytesUsed = 64 ∧
      requested (run 64 ops) = 320 ∧ ¬ Sound 64 ops := by
  decide +kernel

/-! ## Chunks of one size -/

/-- Every chunk has the size that `chunk_size_` has. -/
structure Uniform (size : UInt64) (a : Arena) : Prop where
  chunkSize_eq : a.chunkSize = size
  chunks_eq : ∀ c ∈ a.chunks, c = size

/-- The request fits into an empty chunk of this size, with room for the alignment. -/
def Small (size : UInt64) : Op → Prop
  | .allocate n align _ => n + align ≤ size
  | .reset => True

variable {size : UInt64}

theorem shortfall_eq_zero {chunks : List UInt64} (h : ∀ c ∈ chunks, c = size) :
    shortfall size.toNat chunks = 0 := by
  refine List.sum_eq_zero fun x hx => ?_
  obtain ⟨c, hc, rfl⟩ := List.mem_map.mp hx
  rw [h c hc, Nat.sub_self]

theorem Uniform.widen {granted : Bool} (h : Uniform size a)
    (hs : Small size (.allocate n align granted)) :
    a.widen n align = a := by
  have hle : ¬ n + align > a.chunkSize := by
    rw [h.chunkSize_eq]
    exact UInt64.not_lt.mpr hs
  rw [Arena.widen, if_neg hle]

theorem Uniform.covered {op : Op} (h : Uniform size a) (hp : Packed a blocks)
    (hr : Representable a op) (hs : Small size op) : Covered a op := by
  cases op with
  | reset => trivial
  | allocate n align granted =>
      have hearlier : shortfall a.chunkSize.toNat a.chunks.dropLast = 0 := by
        rw [h.chunkSize_eq]
        exact shortfall_eq_zero fun c hc => h.chunks_eq c (List.mem_of_mem_dropLast hc)
      have hall : shortfall a.chunkSize.toNat a.chunks = 0 := by
        rw [h.chunkSize_eq]
        exact shortfall_eq_zero h.chunks_eq
      have hneed := (le_widen a hr.2.2).1
      rw [h.widen hs] at hneed
      have hraise : a.raise n align = 0 := Nat.sub_eq_zero_of_le hneed
      rw [Covered, hraise, hall, hearlier, Nat.mul_zero, Nat.mul_zero]
      split
      · cases granted with
        | true =>
            show n.toNat + (0 + 0) ≤ _ + 0
            omega
        | false =>
            show a.offset.toNat + (0 + 0) ≤ _
            exact hp.offset_le
      · next hover => exact Nat.not_lt.mp fun hlt => hover ((overruns_iff hr.2.1).mpr hlt)

theorem Uniform.step {op : Op} (h : Uniform size a) (hp : Packed a blocks) (hr : Representable a op)
    (hs : Small size op) : Uniform size (exec op a).2 := by
  cases op with
  | reset =>
      obtain ⟨c, hc, heq⟩ := hp.reset_eq
      show Uniform size a.reset
      rw [heq]
      exact ⟨h.chunkSize_eq, fun x hx => by rw [List.mem_singleton.mp hx, h.chunks_eq c hc]⟩
  | allocate n align granted =>
      have hgrow : Uniform size a.grow := by
        refine ⟨h.chunkSize_eq, fun c hc => ?_⟩
        cases List.mem_append.mp hc with
        | inl hold => exact h.chunks_eq c hold
        | inr hnew => rw [List.mem_singleton.mp hnew, h.chunkSize_eq]
      show Uniform size (a.allocate n align granted).2
      obtain ⟨-, heq⟩ | ⟨-, -, heq⟩ | ⟨-, -, heq⟩ := allocate_cases hr
      · rw [heq]
        exact ⟨h.chunkSize_eq, h.chunks_eq⟩
      · rw [heq, h.widen hs]
        exact ⟨hgrow.chunkSize_eq, hgrow.chunks_eq⟩
      · rw [heq, h.widen hs]
        exact h

/-- No call of a run needs cover when every request is small. -/
theorem covered_of_small {chunk : UInt64} {ops : List Op} (h : RepresentableRun (run chunk ops))
    (hs : ∀ op ∈ ops, Small chunk op) : ∀ e ∈ run chunk ops, Covered e.before e.label := by
  have key : Uniform chunk (after chunk ops) ∧ ∀ e ∈ run chunk ops, Covered e.before e.label := by
    induction ops with
    | nil =>
        refine ⟨⟨rfl, fun c hc => List.mem_singleton.mp hc⟩, fun e he => ?_⟩
        cases he
    | cons op past ih =>
        have hpast := representableRun_tail _ _ h
        have hr := h _ List.mem_cons_self
        have hop := hs op List.mem_cons_self
        obtain ⟨heven, hcov⟩ := ih hpast fun op hmem => hs op (List.mem_cons_of_mem _ hmem)
        have hp := packed_after hpast
        exact ⟨heven.step hp hr hop, List.forall_mem_cons.mpr ⟨heven.covered hp hr hop, hcov⟩⟩
  exact key.2

end HiveNative.Perf.Arena
