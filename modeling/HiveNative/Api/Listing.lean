import HiveNative.Api.Pagination
import HiveNative.Chain.WellFormed
import HiveNative.Lib.Selection

/-!
# What the lists show

The loop of the list methods computes a selection: the first `limit` objects that are
wanted and not before `start`, in the order of their ids (`scan_eq`).

`start` is an inclusive bound.  A client that takes it as one and asks for the successor
of the last id it has seen gets every matching object once, in ascending order, from each
of the six methods (`successor_paging_complete`).
-/

namespace HiveNative.Api

open Chain OrderedMap Selection
open Std (ExtTreeMap)

/-! ## The loop as a selection -/

section Scan

variable {V : Type} {skip : V → Bool} {lighten : V → V} {lim : UInt32}

/-- With room on the page, the loop adds the first objects that are not passed over. -/
theorem scan_eq {out xs : List V} (hroom : out.length < lim.toNat) :
    scan skip lighten lim out xs =
      out ++ ((xs.filter fun x => !skip x).take (lim.toNat - out.length)).map lighten := by
  induction xs generalizing out with
  | nil => simp [scan]
  | cons x xs ih =>
      rw [scan]
      cases hskip : skip x with
      | true =>
          rw [if_pos rfl, ih hroom, List.filter_cons_of_neg (by simp [hskip])]
      | false =>
          have hlen : (out ++ [lighten x]).length = out.length + 1 := by simp
          have htake : lim.toNat - out.length = (lim.toNat - (out.length + 1)) + 1 := by omega
          rw [if_neg Bool.false_ne_true, List.filter_cons_of_pos (by simp [hskip]), htake,
            List.take_succ_cons, List.map_cons]
          dsimp only
          split
          · next hfull =>
              have hzero : lim.toNat - (out.length + 1) = 0 := by omega
              rw [hzero, List.take_zero]
              rfl
          · next hmore =>
              rw [ih (by omega), hlen, List.append_assoc]
              rfl

theorem clampLimit_pos (limit : UInt32) : 0 < (clampLimit limit).toNat := by
  unfold clampLimit
  split
  · decide
  · next hne =>
      split
      · decide
      · exact Nat.pos_of_ne_zero fun hz => hne (UInt32.toNat_inj.mp hz)

theorem clampLimit_le (limit : UInt32) : (clampLimit limit).toNat ≤ 100 := by
  unfold clampLimit
  split
  · decide
  · split
    · decide
    · next hle => exact UInt32.le_iff_toNat_le.mp (UInt32.not_lt.mp hle)

/-- A page is the first wanted objects from its start on. -/
theorem scan_page {id : V → UInt64} (wanted : V → Bool) (start : UInt64) (limit : UInt32)
    (hskip : ∀ x, skip x = false ↔ wanted x = true ∧ ¬ id x < start) (xs : List V) :
    scan skip lighten (clampLimit limit) [] xs =
      (((xs.filter wanted).filter fun x => start.toNat ≤ (id x).toNat).take
        (clampLimit limit).toNat).map lighten := by
  have hroom : ([] : List V).length < (clampLimit limit).toNat := clampLimit_pos limit
  have hkept : xs.filter (fun x => !skip x) =
      (xs.filter wanted).filter fun x => start.toNat ≤ (id x).toNat := by
    rw [List.filter_filter]
    refine List.filter_congr fun x _ => ?_
    have hx := hskip x
    rw [UInt64.not_lt, UInt64.le_iff_toNat_le] at hx
    rw [Bool.eq_iff_iff, Bool.not_eq_true', hx, Bool.and_eq_true, decide_eq_true_eq, and_comm]
  rw [scan_eq hroom, List.nil_append, hkept, List.length_nil, Nat.sub_zero]

end Scan

/-! ## Ids in order -/

/-- The objects of a table whose keys are their ids are listed by ascending ids. -/
theorem ascending_values {V : Type} {m : ExtTreeMap UInt64 V} {id : V → UInt64}
    (h : ∀ (k : UInt64) (v : V), m[k]? = some v → id v = k) :
    Ascending (fun v => (id v).toNat) m.values :=
  values_pairwise fun k k' v v' hv hv' hlt => by
    show (id v).toNat < (id v').toNat
    rw [h k v hv, h k' v' hv']
    exact UInt64.lt_iff_toNat_lt.mp (Std.compare_eq_lt.mp hlt)

/-- The ids of a table that its counter has handed out have successors. -/
theorem succ_id {V : Type} {m : ExtTreeMap UInt64 V} {next : UInt64} {n : ℕ} {id : V → UInt64}
    (ha : Allocated next m n) (h : ∀ (k : UInt64) (v : V), m[k]? = some v → id v = k) {v : V}
    (hv : v ∈ m.values) : (id v + 1).toNat = (id v).toNat + 1 := by
  obtain ⟨k, hk⟩ := mem_values.mp hv
  have hlt := UInt64.lt_iff_toNat_lt.mp (ha.below k v hk).2
  have hnext := next.toNat_lt
  rw [h k v hk, UInt64.toNat_add, UInt64.toNat_one, Nat.mod_eq_of_lt (by omega)]

/-! ## Paging by successors -/

/-- A client that goes on with the successor of the last id sees the objects, in order,
at most a hundred a page, and then an empty page. -/
def PagesBySuccessor {V : Type} (page : UInt64 → List V) (id : V → UInt64) (objects : List V) :
    Prop :=
  ∃ fuel pages, walk page (fun x => id x + 1) fuel 0 = some pages ∧ pages.flatten = objects ∧
    ∀ p ∈ pages, p.length ≤ 100

theorem pagesBySuccessor_scan {V : Type} {id : V → UInt64} {lighten : V → V} (wanted : V → Bool)
    (skip : UInt64 → V → Bool) (limit : UInt32) (skipped : Bool) {m : ExtTreeMap UInt64 V}
    {next : UInt64} {n : ℕ} (ha : Allocated next m n)
    (hkeys : ∀ (k : UInt64) (v : V), m[k]? = some v → id v = k)
    (hid : ∀ x, id (lighten x) = id x)
    (hskip : ∀ start x, skip start x = false ↔ wanted x = true ∧ ¬ id x < start) :
    PagesBySuccessor
      (fun start => if skipped then []
        else scan (skip start) lighten (clampLimit limit) [] m.values) id
      (if skipped then [] else matching wanted lighten m.values) := by
  cases skipped with
  | true => exact ⟨1, [], rfl, rfl, List.forall_mem_nil _⟩
  | false =>
      have hpage (start : UInt64) :
          (if false = true then [] else scan (skip start) lighten (clampLimit limit) [] m.values) =
            (((m.values.filter wanted).filter fun x => start.toNat ≤ (id x).toNat).take
              (clampLimit limit).toNat).map lighten :=
        scan_page wanted start limit (hskip start) m.values
      have hnext : ∀ x ∈ m.values.filter wanted, ∀ y ∈ m.values.filter wanted,
          (id (lighten x) + 1).toNat ≤ (id y).toNat ↔ (id x).toNat < (id y).toNat := by
        intro x hx y _
        rw [hid, succ_id ha hkeys (List.mem_filter.mp hx).1]
        exact Nat.succ_le_iff
      have hstart : ∀ x ∈ m.values.filter wanted, UInt64.toNat 0 ≤ (id x).toNat :=
        fun x _ => Nat.zero_le (id x).toNat
      have hcomplete := walk_complete (fun x => id x + 1)
        ((ascending_values hkeys).filter wanted) (clampLimit_pos limit) hpage hnext hstart
      obtain ⟨pages, hwalk, hflat, hshort⟩ := hcomplete
      exact ⟨_, pages, hwalk, hflat, fun p hp => (hshort p hp).trans (clampLimit_le limit)⟩

/-! ## Main result -/

/-- After every run a client that goes on with the successor of the last id pages through
each of the six lists: it sees what matches, once and in order, and comes to an end. -/
theorem successor_paging_complete (config : NodeConfig) (steps : List Step)
    (hcounted : Counted (trace config steps)) (limit : UInt32) (light : Bool) :
    let db := final config steps
    (∀ owner : AccountName,
      PagesBySuccessor (fun start => listNftsByOwner db owner ⟨start, limit, light⟩) NftObject.id
        (if db.config.nftSkipState then []
          else matching (·.owner = owner) (maybeLightNft · light) db.nfts.values)) ∧
    (∀ c : CollectionId,
      PagesBySuccessor (fun start => listNftsByCollection db c ⟨start, limit, light⟩) NftObject.id
        (if db.config.nftSkipState then []
          else matching (·.collection = c) (maybeLightNft · light) db.nfts.values)) ∧
    (∀ source : AccountName,
      PagesBySuccessor (fun start => listHtlcsByFrom db source ⟨start, limit, light⟩)
        HtlcObject.id
        (if db.config.htlcSkipState then []
          else matching (·.from = source) (maybeLightHtlc · light) db.htlcs.values)) ∧
    (∀ dest : AccountName,
      PagesBySuccessor (fun start => listHtlcsByTo db dest ⟨start, limit, light⟩) HtlcObject.id
        (if db.config.htlcSkipState then []
          else matching (·.to = dest) (maybeLightHtlc · light) db.htlcs.values)) ∧
    (∀ minExpiration : TimePointSec,
      PagesBySuccessor
        (fun start => listHtlcsByExpiration db minExpiration ⟨start, limit, light⟩) HtlcObject.id
        (if db.config.htlcSkipState then []
          else matching (fun h => minExpiration ≤ h.expiration ∧ h.status = HtlcStatus.open)
            (maybeLightHtlc · light) db.htlcs.values)) ∧
    ∀ owner : AccountName,
      PagesBySuccessor (fun start => listContractsByOwner db owner ⟨start, limit, light⟩)
        ContractObject.id
        (if db.config.contractsSkip then []
          else matching (·.owner = owner) (maybeLightContract · true) db.contracts.values) := by
  intro db
  have wf : RunWf (trace config steps) db := runWf_run config steps hcounted
  have hnfts (k : UInt64) (n : NftObject) (hn : db.nfts[k]? = some n) : n.id = k :=
    (wf.tokens.nfts k n hn).id_eq
  have hlocks (k : UInt64) (h : HtlcObject) (hh : db.htlcs[k]? = some h) : h.id = k :=
    (wf.locks.locks k h hh).1.id_eq
  have hcontracts (k : UInt64) (c : ContractObject) (hc : db.contracts[k]? = some c) : c.id = k :=
    (wf.contracts.contracts k c hc).id_eq
  refine ⟨fun owner => ?_, fun c => ?_, fun source => ?_, fun dest => ?_, fun least => ?_,
    fun owner => ?_⟩
  · exact pagesBySuccessor_scan (·.owner = owner)
      (fun start n => n.owner ≠ owner ∨ n.id < start) limit db.config.nftSkipState
      wf.counts.nfts_allocated hnfts (maybeLightNft_id light) (by simp)
  · exact pagesBySuccessor_scan (·.collection = c)
      (fun start n => n.collection ≠ c ∨ n.id < start) limit db.config.nftSkipState
      wf.counts.nfts_allocated hnfts (maybeLightNft_id light) (by simp)
  · exact pagesBySuccessor_scan (·.from = source)
      (fun start h => h.from ≠ source ∨ h.id < start) limit db.config.htlcSkipState
      wf.locks.allocated hlocks (maybeLightHtlc_id light) (by simp)
  · exact pagesBySuccessor_scan (·.to = dest)
      (fun start h => h.to ≠ dest ∨ h.id < start) limit db.config.htlcSkipState
      wf.locks.allocated hlocks (maybeLightHtlc_id light) (by simp)
  · have hskip : ∀ (start : UInt64) (h : HtlcObject),
        decide (h.expiration < least ∨ h.id < start ∨ h.status ≠ HtlcStatus.open) = false ↔
          decide (least ≤ h.expiration ∧ h.status = HtlcStatus.open) = true ∧ ¬ h.id < start := by
      intro start h
      simp
      tauto
    exact pagesBySuccessor_scan
      (fun h => least ≤ h.expiration ∧ h.status = HtlcStatus.open)
      (fun start h => h.expiration < least ∨ h.id < start ∨ h.status ≠ HtlcStatus.open)
      limit db.config.htlcSkipState wf.locks.allocated hlocks (maybeLightHtlc_id light) hskip
  · exact pagesBySuccessor_scan (·.owner = owner)
      (fun start c => c.owner ≠ owner ∨ c.id < start) limit db.config.contractsSkip
      wf.contracts.allocated hcontracts (maybeLightContract_id true) (by simp)

/-- After `burnRun` alice pages through her tokens one by one. -/
theorem successor_paging_complete_burnRun :
    let db := final {} burnRun
    (walk (fun start => listNftsByOwner db (text "alice") ⟨start, 1, false⟩)
        (fun n => n.id + 1) 3 0).map (·.map (·.map NftObject.id)) = some [[2], [3]] ∧
      PagesBySuccessor (fun start => listNftsByOwner db (text "alice") ⟨start, 1, false⟩)
        NftObject.id
        (if db.config.nftSkipState then []
          else matching (·.owner = text "alice") (maybeLightNft · false) db.nfts.values) := by
  have hcounted : Counted (trace {} burnRun) :=
    ⟨⟨by decide +kernel, by decide +kernel⟩, by decide +kernel, by decide +kernel⟩
  exact ⟨by decide +kernel,
    (successor_paging_complete {} burnRun hcounted 1 false).1 (text "alice")⟩

end HiveNative.Api
