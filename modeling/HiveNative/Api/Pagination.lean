import HiveNative.Api.DatabaseApi
import HiveNative.Chain.Supply

/-!
# Paging through a list

A client pages through a list method by passing the id of the last object of a page
as the next `start`, until an empty page comes back: `session`.  It should see every
matching object once (`Paginates`).

`start` is documented as an exclusive bound, but the loops pass over `id < start`
only.  So the page after `start = id` begins with the object `id` again, no page is
ever empty, and the session does not end.  Only a list without matches is paged
through as documented (`pagination_iff`).
-/

namespace HiveNative.Api

open Chain

/-! ## Sessions -/

section Session

variable {V : Type} (page : UInt64 → List V) (id : V → UInt64)

/-- The pages from a cursor on, up to the first empty one. -/
def session : ℕ → UInt64 → Option (List (List V))
  | 0, _ => none
  | fuel + 1, start =>
      match (page start).getLast? with
      | none => some []
      | some x => (session fuel (id x)).map (page start :: ·)

/-- The pages show every object once, by ascending id, at most a hundred a page. -/
structure Complete (objects : List V) (pages : List (List V)) : Prop where
  once : pages.flatten.Perm objects
  ascending : pages.flatten.Pairwise fun x y => id x < id y
  short : ∀ p ∈ pages, p.length ≤ 100

/-- The session from the start ends, and its pages are complete. -/
def Paginates (objects : List V) : Prop :=
  ∃ fuel pages, session page id fuel 0 = some pages ∧ Complete id objects pages

variable {page id}

/-- A session that starts with an empty page has no pages. -/
theorem session_of_empty {fuel : ℕ} {start : UInt64} {pages : List (List V)}
    (h : page start = []) (hs : session page id fuel start = some pages) : pages = [] := by
  cases fuel with
  | zero => cases hs
  | succ fuel =>
      simp only [session, h, List.getLast?_nil, Option.some.injEq] at hs
      exact hs.symm

/-- A session does not end when its cursors stay among those with a page. -/
theorem session_none (good : UInt64 → Prop)
    (hgood : ∀ start, good start → ∃ x, (page start).getLast? = some x ∧ good (id x)) :
    ∀ (fuel : ℕ) {start : UInt64}, good start → session page id fuel start = none
  | 0, _, _ => rfl
  | fuel + 1, start, h => by
      obtain ⟨x, hx, hnext⟩ := hgood start h
      simp only [session, hx, session_none good hgood fuel hnext, Option.map_none]

end Session

/-! ## The loop of the list methods -/

section Scan

variable {V : Type} {skip : V → Bool} {lighten : V → V} {lim : UInt32}

theorem scan_of_skipped {out xs : List V} (h : ∀ x ∈ xs, skip x = true) :
    scan skip lighten lim out xs = out := by
  induction xs with
  | nil => rfl
  | cons x xs ih =>
      rw [List.forall_mem_cons] at h
      rw [scan, if_pos h.1]
      exact ih h.2

/-- What a page shows was collected before or is not passed over. -/
theorem mem_scan {out xs : List V} {y : V} (h : y ∈ scan skip lighten lim out xs) :
    y ∈ out ∨ ∃ x ∈ xs, skip x = false ∧ y = lighten x := by
  induction xs generalizing out with
  | nil => exact Or.inl h
  | cons x xs ih =>
      rw [scan] at h
      split at h
      · exact (ih h).imp_right fun hx => by
          obtain ⟨z, hz, hrest⟩ := hx
          exact ⟨z, List.mem_cons_of_mem x hz, hrest⟩
      · next hskip =>
          have hnew : y ∈ out ++ [lighten x] →
              y ∈ out ∨ ∃ z ∈ x :: xs, skip z = false ∧ y = lighten z := by
            intro hy
            cases List.mem_append.mp hy with
            | inl hout => exact Or.inl hout
            | inr hx =>
                exact Or.inr ⟨x, List.mem_cons_self, Bool.not_eq_true _ ▸ hskip,
                  List.mem_singleton.mp hx⟩
          dsimp only at h
          split at h
          · exact hnew h
          · cases ih h with
            | inl hout => exact hnew hout
            | inr hx =>
                obtain ⟨z, hz, hrest⟩ := hx
                exact Or.inr ⟨z, List.mem_cons_of_mem x hz, hrest⟩

theorem scan_ne_nil_of_out {out xs : List V} (h : out ≠ []) :
    scan skip lighten lim out xs ≠ [] := by
  induction xs generalizing out with
  | nil => exact h
  | cons x xs ih =>
      have hgrown : out ++ [lighten x] ≠ [] := List.append_ne_nil_of_right_ne_nil _ (by simp)
      rw [scan]
      dsimp only
      split
      · exact ih h
      · split
        · exact hgrown
        · exact ih hgrown

/-- A page is not empty when an object is not passed over. -/
theorem scan_ne_nil {out xs : List V} {x : V} (hx : x ∈ xs) (hskip : skip x = false) :
    scan skip lighten lim out xs ≠ [] := by
  induction xs generalizing out with
  | nil => cases hx
  | cons y ys ih =>
      have hgrown : out ++ [lighten y] ≠ [] := List.append_ne_nil_of_right_ne_nil _ (by simp)
      rw [scan]
      dsimp only
      split
      · next hy =>
          cases List.mem_cons.mp hx with
          | inl heq =>
              rw [heq, hy] at hskip
              cases hskip
          | inr hmem => exact ih hmem
      · split
        · exact hgrown
        · exact scan_ne_nil_of_out hgrown

end Scan

/-! ## The light mode -/

theorem maybeLightNft_id (light : Bool) (n : NftObject) : (maybeLightNft n light).id = n.id := by
  cases light with
  | true => rfl
  | false => rfl

theorem maybeLightHtlc_id (light : Bool) (h : HtlcObject) :
    (maybeLightHtlc h light).id = h.id := by
  cases light with
  | true => rfl
  | false => rfl

theorem maybeLightContract_id (light : Bool) (c : ContractObject) :
    (maybeLightContract c light).id = c.id := by
  cases light with
  | true => rfl
  | false => rfl

/-! ## Main result -/

/-- What a list method should show. -/
def matching {V : Type} (wanted : V → Bool) (lighten : V → V) (xs : List V) : List V :=
  (xs.filter wanted).map lighten

/-- While a wanted object is at or above the cursor there is a page, and the next
cursor is at or below a wanted object again. -/
theorem scan_cursor {V : Type} {id : V → UInt64} {lighten : V → V} {wanted : V → Bool}
    {skip : UInt64 → V → Bool} {lim : UInt32} {xs : List V} (hid : ∀ x, id (lighten x) = id x)
    (hskip : ∀ start x, skip start x = false ↔ wanted x = true ∧ ¬ id x < start) {start : UInt64}
    (h : ∃ y ∈ xs, wanted y = true ∧ ¬ id y < start) :
    ∃ z, (scan (skip start) lighten lim [] xs).getLast? = some z ∧
      ∃ y ∈ xs, wanted y = true ∧ ¬ id y < id z := by
  obtain ⟨y, hy, hwy, hle⟩ := h
  have hpage : scan (skip start) lighten lim [] xs ≠ [] :=
    scan_ne_nil hy ((hskip start y).mpr ⟨hwy, hle⟩)
  refine ⟨_, List.getLast?_eq_getLast_of_ne_nil hpage, ?_⟩
  cases mem_scan (List.getLast_mem hpage) with
  | inl hnil => cases hnil
  | inr hz =>
      obtain ⟨z, hz, hsz, hlast⟩ := hz
      refine ⟨z, hz, ((hskip start z).mp hsz).1, ?_⟩
      rw [hlast, hid]
      exact UInt64.lt_irrefl _

/-- A list method that passes over what is not wanted and what is before `start` is
paged through exactly when nothing is wanted. -/
theorem paginates_scan_iff {V : Type} {id : V → UInt64} {lighten : V → V} (wanted : V → Bool)
    (skip : UInt64 → V → Bool) (lim : UInt32) (skipped : Bool) (xs : List V)
    (hid : ∀ x, id (lighten x) = id x)
    (hskip : ∀ start x, skip start x = false ↔ wanted x = true ∧ ¬ id x < start) :
    Paginates (fun start => if skipped then [] else scan (skip start) lighten lim [] xs) id
        (matching wanted lighten xs) ↔
      ∀ x ∈ xs, ¬ wanted x = true := by
  constructor
  · intro h x hx hw
    obtain ⟨fuel, pages, hs, hcomplete⟩ := h
    have hmatch : lighten x ∈ matching wanted lighten xs :=
      List.mem_map_of_mem (List.mem_filter.mpr ⟨hx, hw⟩)
    cases skipped with
    | true =>
        have hnil := session_of_empty rfl hs
        rw [hnil] at hcomplete
        exact absurd (hcomplete.once.mem_iff.mpr hmatch) List.not_mem_nil
    | false =>
        have hnone : session (fun start => scan (skip start) lighten lim [] xs) id fuel 0 = none :=
          session_none _ (fun _ => scan_cursor hid hskip) fuel
            ⟨x, hx, hw, UInt64.not_lt.mpr UInt64.zero_le⟩
        have hends : none = some pages := hnone.symm.trans hs
        cases hends
  · intro h
    have hnothing : matching wanted lighten xs = [] := by
      rw [matching, List.filter_eq_nil_iff.mpr h, List.map_nil]
    have hpage : (if skipped then [] else scan (skip 0) lighten lim [] xs) = [] := by
      split
      · rfl
      · refine scan_of_skipped fun x hx => ?_
        by_contra hno
        exact h x hx ((hskip 0 x).mp (Bool.not_eq_true _ ▸ hno)).1
    refine ⟨1, [], ?_, ?_⟩
    · simp only [session, hpage, List.getLast?_nil]
    · rw [hnothing]
      exact ⟨List.Perm.refl _, List.Pairwise.nil, List.forall_mem_nil _⟩

/-- For every list method, a session from the start shows every matching object once
exactly when there is no matching object. -/
theorem pagination_iff (db : Database) (limit : UInt32) (light : Bool) :
    (∀ owner : AccountName,
      Paginates (fun start => listNftsByOwner db owner ⟨start, limit, light⟩) NftObject.id
          (matching (·.owner = owner) (maybeLightNft · light) db.nfts.values) ↔
        ∀ n ∈ db.nfts.values, n.owner ≠ owner) ∧
    (∀ c : CollectionId,
      Paginates (fun start => listNftsByCollection db c ⟨start, limit, light⟩) NftObject.id
          (matching (·.collection = c) (maybeLightNft · light) db.nfts.values) ↔
        ∀ n ∈ db.nfts.values, n.collection ≠ c) ∧
    (∀ source : AccountName,
      Paginates (fun start => listHtlcsByFrom db source ⟨start, limit, light⟩) HtlcObject.id
          (matching (·.from = source) (maybeLightHtlc · light) db.htlcs.values) ↔
        ∀ h ∈ db.htlcs.values, h.from ≠ source) ∧
    (∀ dest : AccountName,
      Paginates (fun start => listHtlcsByTo db dest ⟨start, limit, light⟩) HtlcObject.id
          (matching (·.to = dest) (maybeLightHtlc · light) db.htlcs.values) ↔
        ∀ h ∈ db.htlcs.values, h.to ≠ dest) ∧
    (∀ minExpiration : TimePointSec,
      Paginates (fun start => listHtlcsByExpiration db minExpiration ⟨start, limit, light⟩)
          HtlcObject.id
          (matching (fun h => minExpiration ≤ h.expiration ∧ h.status = HtlcStatus.open)
            (maybeLightHtlc · light) db.htlcs.values) ↔
        ∀ h ∈ db.htlcs.values,
          ¬ (minExpiration ≤ h.expiration ∧ h.status = HtlcStatus.open)) ∧
    ∀ owner : AccountName,
      Paginates (fun start => listContractsByOwner db owner ⟨start, limit, light⟩)
          ContractObject.id
          (matching (·.owner = owner) (maybeLightContract · true) db.contracts.values) ↔
        ∀ c ∈ db.contracts.values, c.owner ≠ owner := by
  refine ⟨fun owner => ?_, fun c => ?_, fun source => ?_, fun dest => ?_, fun least => ?_,
    fun owner => ?_⟩
  · simpa [listNftsByOwner] using paginates_scan_iff (·.owner = owner)
      (fun start n => n.owner ≠ owner ∨ n.id < start) (clampLimit limit) db.config.nftSkipState
      db.nfts.values (maybeLightNft_id light) (by simp)
  · simpa [listNftsByCollection] using paginates_scan_iff (·.collection = c)
      (fun start n => n.collection ≠ c ∨ n.id < start) (clampLimit limit) db.config.nftSkipState
      db.nfts.values (maybeLightNft_id light) (by simp)
  · simpa [listHtlcsByFrom] using paginates_scan_iff (·.from = source)
      (fun start h => h.from ≠ source ∨ h.id < start) (clampLimit limit) db.config.htlcSkipState
      db.htlcs.values (maybeLightHtlc_id light) (by simp)
  · simpa [listHtlcsByTo] using paginates_scan_iff (·.to = dest)
      (fun start h => h.to ≠ dest ∨ h.id < start) (clampLimit limit) db.config.htlcSkipState
      db.htlcs.values (maybeLightHtlc_id light) (by simp)
  · have hskip : ∀ (start : UInt64) (h : HtlcObject),
        decide (h.expiration < least ∨ h.id < start ∨ h.status ≠ HtlcStatus.open) = false ↔
          decide (least ≤ h.expiration ∧ h.status = HtlcStatus.open) = true ∧ ¬ h.id < start := by
      intro start h
      simp
      tauto
    simpa [listHtlcsByExpiration] using paginates_scan_iff
      (fun h => least ≤ h.expiration ∧ h.status = HtlcStatus.open)
      (fun start h => h.expiration < least ∨ h.id < start ∨ h.status ≠ HtlcStatus.open)
      (clampLimit limit) db.config.htlcSkipState db.htlcs.values (maybeLightHtlc_id light) hskip
  · simpa [listContractsByOwner] using paginates_scan_iff (·.owner = owner)
      (fun start c => c.owner ≠ owner ∨ c.id < start) (clampLimit limit) db.config.contractsSkip
      db.contracts.values (maybeLightContract_id true) (by simp)

/-- The first page of alice's tokens after `burnRun` is the page after itself. -/
theorem session_repeats :
    ¬ Paginates (fun start => listNftsByOwner (final {} burnRun) (text "alice") ⟨start, 1, false⟩)
        NftObject.id
        (matching (·.owner = text "alice") (maybeLightNft · false)
          (final {} burnRun).nfts.values) := by
  have hpage : ∀ start, start = 0 ∨ start = 2 →
      ∃ n, (listNftsByOwner (final {} burnRun) (text "alice") ⟨start, 1, false⟩).getLast? =
        some n ∧ (n.id = 0 ∨ n.id = 2) := by
    intro start hstart
    have hid : ((listNftsByOwner (final {} burnRun) (text "alice") ⟨start, 1, false⟩).getLast?).map
        NftObject.id = some 2 := by
      cases hstart with
      | inl h =>
          subst h
          decide +kernel
      | inr h =>
          subst h
          decide +kernel
    obtain ⟨n, hn, h⟩ := Option.map_eq_some_iff.mp hid
    exact ⟨n, hn, Or.inr h⟩
  intro h
  obtain ⟨fuel, pages, hs, -⟩ := h
  have hends : none = some pages := (session_none _ hpage fuel (Or.inl rfl)).symm.trans hs
  cases hends

end HiveNative.Api
