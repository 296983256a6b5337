import HiveNative.Util.Types
import HiveNative.Lib.OrderedMap

/-!
# Compact blocks

The announcement of a block by short transaction ids, and its reconstruction from
a local mempool: `perf/compact_block.hpp`.

The loop of `reconstruct` walks the slots of the block with two cursors, one in
the short ids and one in the prefilled transactions.  A cursor is the part of its
list that is still to come.  The loop writes the slots in ascending order, so a
write at slot `i` appends, and a slot without a transaction keeps the empty
string it was allocated with.

`merged` is what the loop computes, without the checks.  On a well-formed
announcement no check fails (`foldlM_fillSlot`), and two inductions read `merged`:
slot by slot for an announcement of any origin, and along the body for an
announcement made from one.

A malformed announcement is signalled by listing every short id as missing.  An
announcement without short ids has nothing to list, so it is accepted whatever
its prefilled indexes are.
-/

namespace HiveNative.Perf

open Std (ExtTreeMap)

/-! ## Announcements -/

abbrev ShortTxId := Vector UInt8 6

abbrev MempoolMap := ExtTreeMap ShortTxId Bytes

/-- The first 6 bytes of a digest. -/
def shortTxIdOfDigest (digest : Sha256T) : ShortTxId := Vector.ofFn fun i => digest[i.val]

def makeShortTxId (txBytes : Bytes) : ShortTxId := shortTxIdOfDigest (sha256 txBytes)

/-- A full transaction at a position of the block body. -/
structure PrefilledTx where
  index : UInt32 := 0
  tx : Bytes
deriving Repr, DecidableEq

structure CompactBlock where
  headerHash : Sha256T
  shortIds : List ShortTxId
  prefilled : List PrefilledTx
deriving DecidableEq

def CompactBlock.txCount (cb : CompactBlock) : ℕ := cb.shortIds.length + cb.prefilled.length

/-- The transactions of the body, or the short ids to ask for. -/
structure ReconstructResult where
  txs : List Bytes := []
  missing : List ShortTxId := []
deriving DecidableEq

namespace ReconstructResult

def ok (r : ReconstructResult) : Bool := r.missing.isEmpty

def fullList (r : ReconstructResult) : Option (List Bytes) :=
  if r.missing.isEmpty then some r.txs else none

end ReconstructResult

/-! ## Reconstruction -/

/-- The validating loop: every index is in range and above the one before it. -/
def validPrefilled (n : ℕ) : Option UInt32 → List PrefilledTx → Bool
  | _, [] => true
  | previous, pf :: rest =>
      if n ≤ pf.index.toNat then false
      else if previous.any fun i => pf.index ≤ i then false
      else validPrefilled n (some pf.index) rest

/-- The short ids and prefilled transactions still to come, and the result so
far. -/
structure Cursors where
  shortIds : List ShortTxId
  prefilled : List PrefilledTx
  result : ReconstructResult := {}

/-- The prefilled transaction under the cursor, if it is for slot `i`. -/
def nextPrefilled (i : ℕ) : List PrefilledTx → Option Bytes
  | [] => none
  | pf :: _ => if pf.index.toNat = i then some pf.tx else none

/-- The body of the main loop for slot `i`.  `none` is the return for an
announcement with more slots than short ids. -/
def fillSlot (localMempool : MempoolMap) (c : Cursors) (i : ℕ) : Option Cursors :=
  match nextPrefilled i c.prefilled with
  | some tx =>
      some { c with
        prefilled := c.prefilled.tail
        result := { c.result with txs := c.result.txs ++ [tx] } }
  | none =>
      match c.shortIds with
      | [] => none
      | sid :: rest =>
          match localMempool[sid]? with
          | none =>
              some { c with
                shortIds := rest
                result := ⟨c.result.txs ++ [[]], c.result.missing ++ [sid]⟩ }
          | some tx =>
              some { c with
                shortIds := rest
                result := { c.result with txs := c.result.txs ++ [tx] } }

/-- The result for a malformed announcement. -/
def CompactBlock.malformed (cb : CompactBlock) : ReconstructResult := ⟨[], cb.shortIds⟩

def reconstruct (cb : CompactBlock) (localMempool : MempoolMap) : ReconstructResult :=
  if cb.txCount = 0 then {}
  else if ¬ validPrefilled cb.txCount none cb.prefilled then cb.malformed
  else
    match (List.range cb.txCount).foldlM (fillSlot localMempool)
      ⟨cb.shortIds, cb.prefilled, {}⟩ with
    | none => cb.malformed
    | some c =>
        if c.prefilled ≠ [] ∨ c.shortIds ≠ [] then cb.malformed
        else if c.result.missing ≠ [] then { c.result with txs := [] }
        else c.result

/-! ## Announcing a body -/

/-- `is_prefilled`, one flag for each transaction. -/
def prefillFlags (n : ℕ) (prefillIndexes : List UInt32) : List Bool :=
  prefillIndexes.foldl (fun flags idx => if idx.toNat < n then flags.set idx.toNat true else flags)
    (List.replicate n false)

/-- The body of the loop over the transactions. -/
def announceTx (isPrefilled : List Bool) (cb : CompactBlock) (entry : Bytes × ℕ) : CompactBlock :=
  if isPrefilled.getD entry.2 false then
    { cb with prefilled := cb.prefilled ++ [⟨UInt32.ofNat entry.2, entry.1⟩] }
  else { cb with shortIds := cb.shortIds ++ [makeShortTxId entry.1] }

def makeCompactBlock (headerHash : Sha256T) (txs : List Bytes) (prefillIndexes : List UInt32) :
    CompactBlock :=
  txs.zipIdx.foldl (announceTx (prefillFlags txs.length prefillIndexes)) ⟨headerHash, [], []⟩

/-! ## Well-formed announcements -/

/-- Ascending indexes in a range of slots. -/
structure Ascending (lo hi : ℕ) (prefilled : List PrefilledTx) : Prop where
  sorted : prefilled.Pairwise fun p q => p.index < q.index
  low : ∀ p ∈ prefilled, lo ≤ p.index.toNat
  high : ∀ p ∈ prefilled, p.index.toNat < hi

/-- The prefilled indexes are strictly ascending and below the number of
transactions. -/
structure CompactBlock.WellFormed (cb : CompactBlock) : Prop where
  sorted : cb.prefilled.Pairwise fun p q => p.index < q.index
  inRange : ∀ p ∈ cb.prefilled, p.index.toNat < cb.txCount

theorem CompactBlock.WellFormed.ascending {cb : CompactBlock} (h : cb.WellFormed) :
    Ascending 0 cb.txCount cb.prefilled :=
  ⟨h.sorted, fun _ _ => Nat.zero_le _, h.inRange⟩

theorem validPrefilled_iff {n : ℕ} {previous : Option UInt32} {prefilled : List PrefilledTx} :
    validPrefilled n previous prefilled ↔
      prefilled.Pairwise (fun p q => p.index < q.index) ∧
        ∀ p ∈ prefilled, p.index.toNat < n ∧ ∀ i ∈ previous, i < p.index := by
  induction prefilled generalizing previous with
  | nil => simp [validPrefilled]
  | cons pf rest ih =>
      have hany : (previous.any fun i => pf.index ≤ i) = true ↔ ¬ ∀ i ∈ previous, i < pf.index := by
        cases previous with
        | none => simp
        | some i => simp
      rw [validPrefilled, List.pairwise_cons, List.forall_mem_cons]
      split
      · next hrange =>
          simp only [Bool.false_eq_true, false_iff]
          omega
      · next hrange =>
          split
          · next hprev =>
              simp only [Bool.false_eq_true, false_iff]
              exact fun h => hany.mp hprev h.2.1.2
          · next hprev =>
              rw [hany, not_not] at hprev
              rw [ih]
              constructor
              · intro h
                refine ⟨⟨fun p hp => (h.2 p hp).2 pf.index rfl, h.1⟩, ⟨by omega, hprev⟩, ?_⟩
                intro p hp
                refine ⟨(h.2 p hp).1, fun i hi => ?_⟩
                exact UInt32.lt_trans (hprev i hi) ((h.2 p hp).2 pf.index rfl)
              · intro h
                refine ⟨h.1.2, fun p hp => ⟨(h.2.2 p hp).1, fun i hi => ?_⟩⟩
                cases hi
                exact h.1.1 p hp

theorem CompactBlock.wellFormed_iff {cb : CompactBlock} :
    cb.WellFormed ↔ validPrefilled cb.txCount none cb.prefilled := by
  rw [validPrefilled_iff]
  constructor
  · intro h
    exact ⟨h.sorted, fun p hp => ⟨h.inRange p hp, fun i hi => by cases hi⟩⟩
  · intro h
    exact ⟨h.1, fun p hp => (h.2 p hp).1⟩

namespace Ascending

variable {lo hi : ℕ} {pf : PrefilledTx} {prefilled : List PrefilledTx}

theorem tail (h : Ascending lo hi (pf :: prefilled)) :
    Ascending (pf.index.toNat + 1) hi prefilled where
  sorted := (List.pairwise_cons.mp h.sorted).2
  low := fun p hp => (List.pairwise_cons.mp h.sorted).1 p hp
  high := fun p hp => h.high p (List.mem_cons_of_mem pf hp)

theorem length_le (h : Ascending lo hi prefilled) (hle : lo ≤ hi) :
    lo + prefilled.length ≤ hi := by
  induction prefilled generalizing lo with
  | nil => simpa using hle
  | cons pf rest ih =>
      have hlow := h.low pf List.mem_cons_self
      have hhigh := h.high pf List.mem_cons_self
      have hrest := ih h.tail hhigh
      rw [List.length_cons]
      omega

/-- The cursor is at the slot: the slot is the first of the range, and the rest
lies behind it. -/
theorem next_some {tx : Bytes} (h : Ascending lo hi prefilled)
    (hnext : nextPrefilled lo prefilled = some tx) :
    ∃ pf rest, prefilled = pf :: rest ∧ pf.index.toNat = lo ∧ pf.tx = tx ∧
      Ascending (lo + 1) hi rest := by
  cases prefilled with
  | nil => cases hnext
  | cons pf rest =>
      rw [nextPrefilled] at hnext
      split at hnext
      · next hidx =>
          cases hnext
          exact ⟨pf, rest, rfl, hidx, rfl, hidx ▸ h.tail⟩
      · cases hnext

/-- The cursor is not at the slot: everything to come lies behind it. -/
theorem next_none (h : Ascending lo hi prefilled) (hnext : nextPrefilled lo prefilled = none) :
    Ascending (lo + 1) hi prefilled := by
  cases prefilled with
  | nil => exact ⟨h.sorted, List.forall_mem_nil _, List.forall_mem_nil _⟩
  | cons pf rest =>
      rw [nextPrefilled] at hnext
      split at hnext
      · cases hnext
      · next hidx =>
          have hlow := h.low pf List.mem_cons_self
          refine ⟨h.sorted, ?_, h.high⟩
          rw [List.forall_mem_cons]
          refine ⟨by omega, fun p hp => ?_⟩
          have := h.tail.low p hp
          omega

end Ascending

/-! ## What the loop computes -/

/-- The transactions of the slots `i`, `i + 1`, …: a prefilled one where the
cursor is at the slot, else what the mempool has for the next short id. -/
def merged (pool : MempoolMap) : (left i : ℕ) → List ShortTxId → List PrefilledTx → List Bytes
  | 0, _, _, _ => []
  | left + 1, i, shortIds, prefilled =>
      match nextPrefilled i prefilled with
      | some tx => tx :: merged pool left (i + 1) shortIds prefilled.tail
      | none =>
          (shortIds.head?.bind fun sid => pool[sid]?).getD [] ::
            merged pool left (i + 1) shortIds.tail prefilled

/-- The short ids the mempool does not have. -/
def absentIds (pool : MempoolMap) (shortIds : List ShortTxId) : List ShortTxId :=
  shortIds.filter fun sid => sid ∉ pool

/-- Where the cursors have exactly as many entries as there are slots left and the
prefilled ones are in order, no check of the loop fails and both cursors reach
their end. -/
theorem foldlM_fillSlot (pool : MempoolMap) (left : ℕ) {i : ℕ} {shortIds : List ShortTxId}
    {prefilled : List PrefilledTx} (hcount : shortIds.length + prefilled.length = left)
    (hasc : Ascending i (i + left) prefilled) (r : ReconstructResult) :
    (List.range' i left).foldlM (fillSlot pool) ⟨shortIds, prefilled, r⟩ =
      some ⟨[], [], ⟨r.txs ++ merged pool left i shortIds prefilled,
        r.missing ++ absentIds pool shortIds⟩⟩ := by
  induction left generalizing i shortIds prefilled r with
  | zero =>
      obtain ⟨hs, hp⟩ := Nat.add_eq_zero_iff.mp hcount
      rw [List.length_eq_zero_iff] at hs hp
      subst hs hp
      simp [merged, absentIds]
  | succ left ih =>
      have hend : i + (left + 1) = i + 1 + left := by omega
      rw [hend] at hasc
      rw [List.range'_succ, List.foldlM_cons]
      cases hnext : nextPrefilled i prefilled with
      | some tx =>
          obtain ⟨pf, rest, hp, -, -, hrest⟩ := hasc.next_some hnext
          subst hp
          simp only [fillSlot, merged, hnext, List.tail_cons, Option.bind_eq_bind,
            Option.bind_some]
          rw [ih (by simpa [← Nat.add_assoc] using hcount) hrest]
          simp
      | none =>
          have hrest := hasc.next_none hnext
          have hle := hrest.length_le (by omega)
          cases shortIds with
          | nil =>
              simp only [List.length_nil] at hcount
              omega
          | cons sid shortIds =>
              have hleft : shortIds.length + prefilled.length = left := by
                simp only [List.length_cons] at hcount
                omega
              cases hsid : pool[sid]? with
              | none =>
                  have habsent : sid ∉ pool := OrderedMap.not_mem_iff.mpr hsid
                  simp only [fillSlot, merged, hnext, hsid, Option.bind_eq_bind, Option.bind_some]
                  rw [ih hleft hrest]
                  simp [absentIds, habsent]
              | some tx =>
                  have hmem : sid ∈ pool := OrderedMap.mem_iff_exists.mpr ⟨tx, hsid⟩
                  simp only [fillSlot, merged, hnext, hsid, Option.bind_eq_bind, Option.bind_some]
                  rw [ih hleft hrest, List.head?_cons, Option.bind_some, hsid]
                  simp [absentIds, hmem]

/-- What the loop computes for a whole announcement. -/
def CompactBlock.body (cb : CompactBlock) (pool : MempoolMap) : List Bytes :=
  merged pool cb.txCount 0 cb.shortIds cb.prefilled

/-- A well-formed announcement gives its body, or the short ids the mempool does
not have. -/
theorem reconstruct_wellFormed {cb : CompactBlock} (h : cb.WellFormed) (pool : MempoolMap) :
    reconstruct cb pool =
      if absentIds pool cb.shortIds = [] then ⟨cb.body pool, []⟩
      else ⟨[], absentIds pool cb.shortIds⟩ := by
  have hloop := foldlM_fillSlot pool cb.txCount (i := 0) rfl
    (by simpa using h.ascending) {}
  rw [← List.range_eq_range'] at hloop
  by_cases hzero : cb.txCount = 0
  · obtain ⟨hs, hp⟩ := Nat.add_eq_zero_iff.mp hzero
    rw [List.length_eq_zero_iff] at hs hp
    rw [reconstruct, if_pos hzero]
    simp [CompactBlock.body, hzero, hs, absentIds, merged]
  · rw [reconstruct, if_neg hzero, if_neg (not_not.mpr (CompactBlock.wellFormed_iff.mp h)), hloop]
    by_cases habsent : absentIds pool cb.shortIds = []
    · simp [habsent, CompactBlock.body]
    · simp [habsent]

/-- A malformed announcement gives every short id as missing. -/
theorem reconstruct_malformed {cb : CompactBlock} (h : ¬ cb.WellFormed) (pool : MempoolMap) :
    reconstruct cb pool = cb.malformed := by
  rw [reconstruct]
  split
  · next hzero =>
      obtain ⟨hs, -⟩ := Nat.add_eq_zero_iff.mp hzero
      rw [List.length_eq_zero_iff] at hs
      rw [CompactBlock.malformed, hs]
  · rw [if_pos (fun hvalid => h (CompactBlock.wellFormed_iff.mpr hvalid))]

/-! ## What is accepted -/

/-- The prefilled transaction of a slot. -/
def prefilledAt (prefilled : List PrefilledTx) (i : ℕ) : Option Bytes :=
  (prefilled.find? fun pf => pf.index.toNat = i).map PrefilledTx.tx

/-- The number of slots without a prefilled transaction among `i`, …, `i + k - 1`. -/
def openSlots (prefilled : List PrefilledTx) (i k : ℕ) : ℕ :=
  (List.range' i k).countP fun j => (prefilledAt prefilled j).isNone

/-- The transaction of a slot: the prefilled one if there is one, else the one the
mempool has for the short id whose number is the number of open slots before. -/
def CompactBlock.entry (cb : CompactBlock) (pool : MempoolMap) (i : ℕ) : Option Bytes :=
  match prefilledAt cb.prefilled i with
  | some tx => some tx
  | none => cb.shortIds[openSlots cb.prefilled 0 i]?.bind fun sid => pool[sid]?

theorem prefilledAt_cons_ne {pf : PrefilledTx} {rest : List PrefilledTx} {j : ℕ}
    (h : pf.index.toNat ≠ j) : prefilledAt (pf :: rest) j = prefilledAt rest j := by
  rw [prefilledAt, List.find?_cons_of_neg (by simpa using h)]
  rfl

theorem openSlots_cons_ne {pf : PrefilledTx} {rest : List PrefilledTx} {i k : ℕ}
    (h : pf.index.toNat < i) : openSlots (pf :: rest) i k = openSlots rest i k := by
  apply List.countP_congr
  intro j hj
  have hlow := (List.mem_range'_1.mp hj).1
  rw [prefilledAt_cons_ne (by omega)]

theorem openSlots_succ (prefilled : List PrefilledTx) (i k : ℕ) :
    openSlots prefilled i (k + 1) =
      openSlots prefilled (i + 1) k + if (prefilledAt prefilled i).isNone then 1 else 0 := by
  rw [openSlots, List.range'_succ, List.countP_cons]
  rfl

theorem Ascending.prefilledAt_none {lo hi i : ℕ} {prefilled : List PrefilledTx}
    (h : Ascending lo hi prefilled) (hlt : i < lo) : prefilledAt prefilled i = none := by
  rw [prefilledAt, Option.map_eq_none_iff, List.find?_eq_none]
  intro p hp heq
  have := h.low p hp
  have := of_decide_eq_true heq
  omega

/-- The slots of the merged lists, one by one. -/
theorem getElem?_merged {pool : MempoolMap} (left : ℕ) {i : ℕ} {shortIds : List ShortTxId}
    {prefilled : List PrefilledTx} (hcount : shortIds.length + prefilled.length = left)
    (hasc : Ascending i (i + left) prefilled) (hall : ∀ sid ∈ shortIds, sid ∈ pool) {k : ℕ}
    (hk : k < left) :
    (merged pool left i shortIds prefilled)[k]? =
      (match prefilledAt prefilled (i + k) with
      | some tx => some tx
      | none => shortIds[openSlots prefilled i k]?.bind fun sid => pool[sid]?) := by
  induction left generalizing i shortIds prefilled k with
  | zero => omega
  | succ left ih =>
      rw [show i + (left + 1) = i + 1 + left by omega] at hasc
      cases hnext : nextPrefilled i prefilled with
      | some tx =>
          obtain ⟨pf, rest, hp, hidx, htx, hrest⟩ := hasc.next_some hnext
          subst hp htx
          have hleft : shortIds.length + rest.length = left := by
            simp only [List.length_cons] at hcount
            omega
          have hat : prefilledAt (pf :: rest) i = some pf.tx := by
            rw [prefilledAt, List.find?_cons_of_pos (by simpa using hidx)]
            rfl
          simp only [merged, hnext, List.tail_cons]
          cases k with
          | zero => simp [hat]
          | succ k =>
              rw [List.getElem?_cons_succ, ih hleft hrest hall (by omega), openSlots_succ, hat,
                openSlots_cons_ne (by omega), show i + (k + 1) = i + 1 + k by omega,
                prefilledAt_cons_ne (by omega)]
              rfl
      | none =>
          have hrest := hasc.next_none hnext
          have hle := hrest.length_le (by omega)
          cases shortIds with
          | nil =>
              simp only [List.length_nil] at hcount
              omega
          | cons sid shortIds =>
              have hleft : shortIds.length + prefilled.length = left := by
                simp only [List.length_cons] at hcount
                omega
              have hat : prefilledAt prefilled i = none := hrest.prefilledAt_none (by omega)
              obtain ⟨tx, htx⟩ := OrderedMap.mem_iff_exists.mp (hall sid List.mem_cons_self)
              simp only [merged, hnext]
              cases k with
              | zero => simp [hat, openSlots, htx]
              | succ k =>
                  rw [List.getElem?_cons_succ, List.tail_cons,
                    ih hleft hrest (fun s hs => hall s (List.mem_cons_of_mem sid hs)) (by omega),
                    openSlots_succ, hat, show i + (k + 1) = i + 1 + k by omega]
                  simp

theorem length_merged (pool : MempoolMap) (left i : ℕ) (shortIds : List ShortTxId)
    (prefilled : List PrefilledTx) : (merged pool left i shortIds prefilled).length = left := by
  induction left generalizing i shortIds prefilled with
  | zero => rfl
  | succ left ih =>
      rw [merged]
      split
      · rw [List.length_cons, ih]
      · rw [List.length_cons, ih]

/-- The result is complete exactly for a well-formed announcement whose short ids
are all in the mempool, and a complete result has every transaction at its
place. -/
def AcceptsExactly (cb : CompactBlock) (pool : MempoolMap) : Prop :=
  ((reconstruct cb pool).ok ↔ cb.WellFormed ∧ ∀ sid ∈ cb.shortIds, sid ∈ pool) ∧
    ((reconstruct cb pool).ok → ∃ txs, (reconstruct cb pool).fullList = some txs ∧
      txs.length = cb.txCount ∧ ∀ i < cb.txCount, txs[i]? = cb.entry pool i)

theorem absentIds_eq_nil {pool : MempoolMap} {shortIds : List ShortTxId} :
    absentIds pool shortIds = [] ↔ ∀ sid ∈ shortIds, sid ∈ pool := by
  simp [absentIds]

theorem acceptsExactly_wellFormed {cb : CompactBlock} (h : cb.WellFormed) (pool : MempoolMap) :
    AcceptsExactly cb pool := by
  rw [AcceptsExactly, reconstruct_wellFormed h]
  by_cases habsent : absentIds pool cb.shortIds = []
  · have hall := absentIds_eq_nil.mp habsent
    rw [if_pos habsent]
    refine ⟨iff_of_true rfl ⟨h, hall⟩, fun _ => ⟨cb.body pool, rfl, length_merged .., ?_⟩⟩
    intro i hi
    have hentry := getElem?_merged cb.txCount (i := 0) rfl
      (by simpa using h.ascending) hall hi
    rw [zero_add] at hentry
    exact hentry
  · have hnot : ¬ (ReconstructResult.mk [] (absentIds pool cb.shortIds)).ok := by
      simpa [ReconstructResult.ok] using habsent
    rw [if_neg habsent]
    exact ⟨iff_of_false hnot fun hc => habsent (absentIds_eq_nil.mpr hc.2),
      fun hc => absurd hc hnot⟩

/-- Acceptance is exact unless an announcement without short ids is malformed. -/
theorem acceptsExactly_iff (cb : CompactBlock) (pool : MempoolMap) :
    AcceptsExactly cb pool ↔ cb.shortIds ≠ [] ∨ cb.WellFormed := by
  by_cases hwf : cb.WellFormed
  · exact iff_of_true (acceptsExactly_wellFormed hwf pool) (.inr hwf)
  · rw [AcceptsExactly, reconstruct_malformed hwf]
    by_cases hids : cb.shortIds = []
    · have hok : cb.malformed.ok := by simp [ReconstructResult.ok, CompactBlock.malformed, hids]
      exact iff_of_false (fun hc => hwf (hc.1.mp hok).1) (by simp [hids, hwf])
    · have hnot : ¬ cb.malformed.ok := by
        simpa [ReconstructResult.ok, CompactBlock.malformed] using hids
      exact iff_of_true ⟨iff_of_false hnot fun hc => hwf hc.1, fun hc => absurd hc hnot⟩
        (.inl hids)

/-- One prefilled transaction, at position 5 of a block of one transaction. -/
def strayAnnouncement : CompactBlock := ⟨Vector.replicate 32 0, [], [⟨5, text "tx"⟩]⟩

theorem strayAnnouncement_accepted : ¬ AcceptsExactly strayAnnouncement ∅ := by
  intro h
  have hok : (reconstruct strayAnnouncement ∅).ok := by decide +kernel
  have hrange := (h.1.mp hok).1.inRange ⟨5, text "tx"⟩ List.mem_cons_self
  exact absurd hrange (by decide)

/-! ## Announcing and reconstructing a body -/

/-- The position is one of the prefill indexes. -/
def chosen (prefillIndexes : List UInt32) (i : ℕ) : Bool :=
  prefillIndexes.any fun idx => idx.toNat = i

/-- The transactions of the body that are not prefilled, in block order. -/
def openTxs (txs : List Bytes) (prefillIndexes : List UInt32) : List Bytes :=
  (txs.zipIdx.filter fun e => ¬ chosen prefillIndexes e.2).map Prod.fst

/-- The mempool with transactions added under their short ids. -/
def addTxs (pool : MempoolMap) (txs : List Bytes) : MempoolMap :=
  txs.foldl (fun pool tx => pool.insert (makeShortTxId tx) tx) pool

theorem getD_foldl_set {flags : List Bool} {n i : ℕ} (hi : i < flags.length)
    (hn : flags.length = n) (prefillIndexes : List UInt32) :
    (prefillIndexes.foldl (fun flags idx =>
      if idx.toNat < n then flags.set idx.toNat true else flags) flags).getD i false =
      (flags.getD i false || chosen prefillIndexes i) := by
  induction prefillIndexes generalizing flags with
  | nil => simp [chosen]
  | cons idx rest ih =>
      rw [List.foldl_cons]
      split
      · rw [ih (by simpa using hi) (by simpa using hn)]
        by_cases heq : idx.toNat = i
        · simp [chosen, List.getD_eq_getElem?_getD, heq, hi]
        · simp [chosen, List.getD_eq_getElem?_getD, heq]
      · next hge =>
          have hne : ¬ idx.toNat = i := by omega
          rw [ih hi hn]
          simp [chosen, hne]

/-- The flags mark the chosen positions. -/
theorem prefillFlags_getD {n i : ℕ} (hi : i < n) (prefillIndexes : List UInt32) :
    (prefillFlags n prefillIndexes).getD i false = chosen prefillIndexes i := by
  rw [prefillFlags, getD_foldl_set (by simpa using hi) List.length_replicate]
  simp [List.getD_eq_getElem?_getD, hi]

section Announced

variable (chosenAt : ℕ → Bool)

/-- The short ids announced for numbered transactions. -/
def announcedIds (entries : List (Bytes × ℕ)) : List ShortTxId :=
  (entries.filter fun e => ¬ chosenAt e.2).map fun e => makeShortTxId e.1

/-- The prefilled transactions announced for numbered transactions. -/
def announcedPrefilled (entries : List (Bytes × ℕ)) : List PrefilledTx :=
  (entries.filter fun e => chosenAt e.2).map fun e => ⟨UInt32.ofNat e.2, e.1⟩

variable {chosenAt}

theorem announced_chosen {e : Bytes × ℕ} (h : chosenAt e.2 = true) (entries : List (Bytes × ℕ)) :
    announcedIds chosenAt (e :: entries) = announcedIds chosenAt entries ∧
      announcedPrefilled chosenAt (e :: entries) =
        ⟨UInt32.ofNat e.2, e.1⟩ :: announcedPrefilled chosenAt entries := by
  simp [announcedIds, announcedPrefilled, h]

theorem announced_open {e : Bytes × ℕ} (h : chosenAt e.2 = false) (entries : List (Bytes × ℕ)) :
    announcedIds chosenAt (e :: entries) = makeShortTxId e.1 :: announcedIds chosenAt entries ∧
      announcedPrefilled chosenAt (e :: entries) = announcedPrefilled chosenAt entries := by
  simp [announcedIds, announcedPrefilled, h]

theorem foldl_announceTx (chosenAt : ℕ → Bool) {flags : List Bool} {entries : List (Bytes × ℕ)}
    (hflags : ∀ e ∈ entries, flags.getD e.2 false = chosenAt e.2) (cb : CompactBlock) :
    entries.foldl (announceTx flags) cb =
      ⟨cb.headerHash, cb.shortIds ++ announcedIds chosenAt entries,
        cb.prefilled ++ announcedPrefilled chosenAt entries⟩ := by
  induction entries generalizing cb with
  | nil => simp [announcedIds, announcedPrefilled]
  | cons e entries ih =>
      have he := hflags e List.mem_cons_self
      rw [List.foldl_cons, ih fun x hx => hflags x (List.mem_cons_of_mem e hx), announceTx, he]
      cases hc : chosenAt e.2 with
      | true => simp [announced_chosen hc]
      | false => simp [announced_open hc]

theorem length_announced (entries : List (Bytes × ℕ)) :
    (announcedIds chosenAt entries).length + (announcedPrefilled chosenAt entries).length =
      entries.length := by
  induction entries with
  | nil => rfl
  | cons e entries ih =>
      cases hc : chosenAt e.2 with
      | true =>
          rw [(announced_chosen hc entries).1, (announced_chosen hc entries).2, List.length_cons,
            List.length_cons, ← ih, add_assoc]
      | false =>
          rw [(announced_open hc entries).1, (announced_open hc entries).2, List.length_cons,
            List.length_cons, ← ih, add_right_comm]

/-- A position of a block is an index. -/
theorem toNat_position {i : ℕ} (h : i < 2 ^ 32) : (UInt32.ofNat i).toNat = i :=
  UInt32.toNat_ofNat_of_lt' h

/-- The announced positions are ascending. -/
theorem announcedPrefilled_ascending (chosenAt : ℕ → Bool) (txs : List Bytes) {i : ℕ}
    (hlen : i + txs.length < 2 ^ 32) :
    Ascending i (i + txs.length) (announcedPrefilled chosenAt (txs.zipIdx i)) := by
  induction txs generalizing i with
  | nil => exact ⟨List.Pairwise.nil, List.forall_mem_nil _, List.forall_mem_nil _⟩
  | cons tx txs ih =>
      rw [List.length_cons] at hlen
      have hrest := ih (i := i + 1) (by omega)
      have hidx := toNat_position (i := i) (by omega)
      rw [List.zipIdx_cons, List.length_cons,
        show i + (txs.length + 1) = i + 1 + txs.length by omega]
      cases hc : chosenAt i with
      | true =>
          rw [(announced_chosen (e := (tx, i)) hc _).2]
          refine ⟨List.pairwise_cons.mpr ⟨fun p hp => ?_, hrest.sorted⟩,
            List.forall_mem_cons.mpr ⟨hidx.ge, fun p hp => ?_⟩,
            List.forall_mem_cons.mpr ⟨by simp only [hidx]; omega, hrest.high⟩⟩
          · have hlow := hrest.low p hp
            rw [UInt32.lt_iff_toNat_lt, hidx]
            exact hlow
          · have hlow := hrest.low p hp
            omega
      | false =>
          rw [(announced_open (e := (tx, i)) hc _).2]
          refine ⟨hrest.sorted, fun p hp => ?_, hrest.high⟩
          have hlow := hrest.low p hp
          omega

theorem Ascending.nextPrefilled_none {lo hi i : ℕ} {prefilled : List PrefilledTx}
    (h : Ascending lo hi prefilled) (hlt : i < lo) : nextPrefilled i prefilled = none := by
  cases prefilled with
  | nil => rfl
  | cons pf rest =>
      have hlow := h.low pf List.mem_cons_self
      exact if_neg (by omega)

/-- Merging what is announced for a body gives the body back, when the mempool
has the transactions that are not prefilled. -/
theorem merged_announced {pool : MempoolMap} (txs : List Bytes) {i : ℕ}
    (hlen : i + txs.length < 2 ^ 32)
    (hpool : ∀ e ∈ txs.zipIdx i, chosenAt e.2 = false → pool[makeShortTxId e.1]? = some e.1) :
    merged pool txs.length i (announcedIds chosenAt (txs.zipIdx i))
      (announcedPrefilled chosenAt (txs.zipIdx i)) = txs := by
  induction txs generalizing i with
  | nil => rfl
  | cons tx txs ih =>
      rw [List.length_cons] at hlen
      rw [List.zipIdx_cons] at hpool ⊢
      have hrest := ih (i := i + 1) (by omega) fun e he => hpool e (List.mem_cons_of_mem _ he)
      rw [List.length_cons, merged]
      cases hc : chosenAt i with
      | true =>
          obtain ⟨hids, hprefilled⟩ := announced_chosen (e := (tx, i)) hc (txs.zipIdx (i + 1))
          have hnext : nextPrefilled i (⟨UInt32.ofNat i, tx⟩ ::
              announcedPrefilled chosenAt (txs.zipIdx (i + 1))) = some tx :=
            if_pos (toNat_position (by omega))
          rw [hids, hprefilled]
          simp only [hnext, List.tail_cons]
          rw [hrest]
      | false =>
          obtain ⟨hids, hprefilled⟩ := announced_open (e := (tx, i)) hc (txs.zipIdx (i + 1))
          have hnext := (announcedPrefilled_ascending chosenAt txs (i := i + 1)
            (by omega)).nextPrefilled_none (Nat.lt_succ_self i)
          have htx := hpool (tx, i) List.mem_cons_self hc
          rw [hids, hprefilled]
          simp only [hnext, List.head?_cons, Option.bind_some, List.tail_cons]
          rw [hrest, htx, Option.getD_some]

end Announced

/-- The announcement of a body. -/
theorem makeCompactBlock_eq (headerHash : Sha256T) (txs : List Bytes)
    (prefillIndexes : List UInt32) :
    makeCompactBlock headerHash txs prefillIndexes =
      ⟨headerHash, announcedIds (chosen prefillIndexes) txs.zipIdx,
        announcedPrefilled (chosen prefillIndexes) txs.zipIdx⟩ := by
  rw [makeCompactBlock, foldl_announceTx (chosen prefillIndexes)]
  · rfl
  · intro e he
    have hlt := List.snd_lt_of_mem_zipIdx he
    exact prefillFlags_getD (by simpa using hlt) prefillIndexes

theorem shortIds_makeCompactBlock (headerHash : Sha256T) (txs : List Bytes)
    (prefillIndexes : List UInt32) :
    (makeCompactBlock headerHash txs prefillIndexes).shortIds =
      (openTxs txs prefillIndexes).map makeShortTxId := by
  rw [makeCompactBlock_eq, openTxs, List.map_map]
  rfl

theorem txCount_makeCompactBlock (headerHash : Sha256T) (txs : List Bytes)
    (prefillIndexes : List UInt32) :
    (makeCompactBlock headerHash txs prefillIndexes).txCount = txs.length := by
  rw [makeCompactBlock_eq, CompactBlock.txCount, length_announced, List.length_zipIdx]

theorem makeCompactBlock_wellFormed (headerHash : Sha256T) {txs : List Bytes}
    (prefillIndexes : List UInt32) (hlen : txs.length < 2 ^ 32) :
    (makeCompactBlock headerHash txs prefillIndexes).WellFormed := by
  have hasc := announcedPrefilled_ascending (chosen prefillIndexes) txs (i := 0)
    (by omega)
  have hcount := txCount_makeCompactBlock headerHash txs prefillIndexes
  rw [makeCompactBlock_eq] at hcount ⊢
  refine ⟨hasc.sorted, fun p hp => ?_⟩
  have hhigh := hasc.high p hp
  rw [hcount]
  omega

/-- With every transaction that is not prefilled in the mempool, the body comes
back. -/
theorem reconstruct_makeCompactBlock (headerHash : Sha256T) {txs : List Bytes}
    (prefillIndexes : List UInt32) {pool : MempoolMap} (hlen : txs.length < 2 ^ 32)
    (hpool : ∀ tx ∈ openTxs txs prefillIndexes, pool[makeShortTxId tx]? = some tx) :
    reconstruct (makeCompactBlock headerHash txs prefillIndexes) pool = ⟨txs, []⟩ := by
  have habsent : absentIds pool (makeCompactBlock headerHash txs prefillIndexes).shortIds = [] := by
    rw [absentIds_eq_nil, shortIds_makeCompactBlock, List.forall_mem_map]
    exact fun tx htx => OrderedMap.mem_iff_exists.mpr ⟨tx, hpool tx htx⟩
  rw [reconstruct_wellFormed (makeCompactBlock_wellFormed headerHash prefillIndexes hlen),
    if_pos habsent, CompactBlock.body, txCount_makeCompactBlock, makeCompactBlock_eq,
    merged_announced txs (by omega)]
  intro e he hc
  apply hpool
  exact List.mem_map_of_mem (List.mem_filter.mpr ⟨he, by simp [hc]⟩)

/-- A mempool after transactions were added: the last one added under a key, else
what was there. -/
theorem getElem?_addTxs (pool : MempoolMap) (txs : List Bytes) (sid : ShortTxId) :
    ((∀ tx ∈ txs, makeShortTxId tx ≠ sid) ∧ (addTxs pool txs)[sid]? = pool[sid]?) ∨
      ∃ tx ∈ txs, makeShortTxId tx = sid ∧ (addTxs pool txs)[sid]? = some tx := by
  induction txs generalizing pool with
  | nil => exact .inl ⟨List.forall_mem_nil _, rfl⟩
  | cons tx txs ih =>
      cases ih (pool.insert (makeShortTxId tx) tx) with
      | inr h =>
          obtain ⟨t, ht, hid, heq⟩ := h
          exact .inr ⟨t, List.mem_cons_of_mem tx ht, hid, heq⟩
      | inl h =>
          obtain ⟨hne, heq⟩ := h
          by_cases hid : makeShortTxId tx = sid
          · refine .inr ⟨tx, List.mem_cons_self, hid, ?_⟩
            rw [addTxs, List.foldl_cons]
            exact heq.trans (by rw [← hid, ExtTreeMap.getElem?_insert_self])
          · refine .inl ⟨List.forall_mem_cons.mpr ⟨hid, hne⟩, ?_⟩
            rw [addTxs, List.foldl_cons]
            exact heq.trans (OrderedMap.getElem?_insert_ne hid)

/-- The transactions that are not prefilled and that the mempool does not have, in
block order. -/
def absentTxs (pool : MempoolMap) (txs : List Bytes) (prefillIndexes : List UInt32) : List Bytes :=
  (openTxs txs prefillIndexes).filter fun tx => makeShortTxId tx ∉ pool

theorem absentIds_makeCompactBlock (headerHash : Sha256T) (txs : List Bytes)
    (prefillIndexes : List UInt32) (pool : MempoolMap) :
    absentIds pool (makeCompactBlock headerHash txs prefillIndexes).shortIds =
      (absentTxs pool txs prefillIndexes).map makeShortTxId := by
  rw [shortIds_makeCompactBlock, absentIds, absentTxs, List.filter_map]
  rfl

/-- Filling a mempool with the absent transactions completes it. -/
theorem addTxs_absent {pool : MempoolMap} {txs : List Bytes} {prefillIndexes : List UInt32}
    (hids : ∀ tx ∈ openTxs txs prefillIndexes, ∀ tx' ∈ openTxs txs prefillIndexes,
      tx ≠ tx' → makeShortTxId tx ≠ makeShortTxId tx')
    (hpool : ∀ tx ∈ openTxs txs prefillIndexes,
      pool[makeShortTxId tx]? = some tx ∨ pool[makeShortTxId tx]? = none)
    {tx : Bytes} (htx : tx ∈ openTxs txs prefillIndexes) :
    (addTxs pool (absentTxs pool txs prefillIndexes))[makeShortTxId tx]? = some tx := by
  cases getElem?_addTxs pool (absentTxs pool txs prefillIndexes) (makeShortTxId tx) with
  | inl h =>
      obtain ⟨hne, heq⟩ := h
      rw [heq]
      cases hpool tx htx with
      | inl hsome => exact hsome
      | inr hnone =>
          have habsent := OrderedMap.not_mem_iff.mpr hnone
          exact absurd rfl (hne tx (List.mem_filter.mpr ⟨htx, by simpa using habsent⟩))
  | inr h =>
      obtain ⟨t, ht, hid, heq⟩ := h
      have hopen := (List.mem_filter.mp ht).1
      have : t = tx := by_contra fun hne => hids t hopen tx htx hne hid
      rw [heq, this]

/-- An announced body comes back from any mempool that has its transactions or
nothing under their short ids: first the short ids of the absent transactions in
block order, and once these are filled in, the body. -/
theorem compactBlock_round_trip (headerHash : Sha256T) (txs : List Bytes)
    (prefillIndexes : List UInt32) (pool : MempoolMap) (hlen : txs.length < 2 ^ 32)
    (hids : ∀ tx ∈ openTxs txs prefillIndexes, ∀ tx' ∈ openTxs txs prefillIndexes,
      tx ≠ tx' → makeShortTxId tx ≠ makeShortTxId tx')
    (hpool : ∀ tx ∈ openTxs txs prefillIndexes,
      pool[makeShortTxId tx]? = some tx ∨ pool[makeShortTxId tx]? = none) :
    let cb := makeCompactBlock headerHash txs prefillIndexes
    let absent := absentTxs pool txs prefillIndexes
    (reconstruct cb pool).missing = absent.map makeShortTxId ∧
      ((reconstruct cb pool).missing = [] → (reconstruct cb pool).txs = txs) ∧
      (reconstruct cb (addTxs pool absent)).ok ∧
      (reconstruct cb (addTxs pool absent)).fullList = some txs := by
  intro cb absent
  have hmissing : (reconstruct cb pool).missing = absent.map makeShortTxId := by
    rw [reconstruct_wellFormed (makeCompactBlock_wellFormed headerHash prefillIndexes hlen),
      ← absentIds_makeCompactBlock headerHash]
    split
    · next habsent => exact habsent.symm
    · rfl
  have hfilled : reconstruct cb (addTxs pool absent) = ⟨txs, []⟩ :=
    reconstruct_makeCompactBlock headerHash prefillIndexes hlen fun tx htx =>
      addTxs_absent hids hpool htx
  refine ⟨hmissing, fun hnil => ?_, by rw [hfilled]; rfl, by rw [hfilled]; rfl⟩
  have habsent : absent = [] := List.map_eq_nil_iff.mp (hmissing.symm.trans hnil)
  rw [habsent] at hfilled
  exact congrArg ReconstructResult.txs hfilled

/-- A body with a repeated transaction, one prefilled at an index given twice, and a
mempool that has only the repeated one. -/
theorem compactBlock_round_trip_repeated :
    (reconstruct (makeCompactBlock (Vector.replicate 32 0)
      [text "a", text "b", text "c", text "a"] [9, 1, 1])
      (addTxs ∅ [text "a"])).missing = [makeShortTxId (text "c")] := by
  have hne : makeShortTxId (text "a") ≠ makeShortTxId (text "c") := by decide +kernel
  have hopen : openTxs [text "a", text "b", text "c", text "a"] [9, 1, 1] =
      [text "a", text "c", text "a"] := by
    decide +kernel
  have hfound : (addTxs ∅ [text "a"])[makeShortTxId (text "a")]? = some (text "a") :=
    Std.ExtTreeMap.getElem?_insert_self
  have hmem : makeShortTxId (text "a") ∈ addTxs ∅ [text "a"] := by simp [addTxs]
  have hnot : makeShortTxId (text "c") ∉ addTxs ∅ [text "a"] := by simp [addTxs, hne]
  have h := (compactBlock_round_trip (Vector.replicate 32 0)
    [text "a", text "b", text "c", text "a"] [9, 1, 1] (addTxs ∅ [text "a"]) (by decide)
    (by simp [hopen, hne, hne.symm]) (by simp [hopen, hfound, hnot])).1
  rw [h]
  simp [absentTxs, hopen, hmem, hnot]

end HiveNative.Perf
