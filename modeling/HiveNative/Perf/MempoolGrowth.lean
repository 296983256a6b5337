import HiveNative.Perf.CompactBlock

/-!
# Reconstruction with another mempool

A node that misses transactions of an announcement asks for them and tries again, and
between the two tries its mempool may have grown.  With the larger mempool fewer short ids
are missing, a body that was accepted stays, and one answer to the request is enough,
unless the announcement is malformed, and then none is (`reconstruct_retry`).

Two nodes that accept the same announcement hold the same body, when their mempools do not
hold different transactions under one short id (`reconstruct_same`).
-/

namespace HiveNative.Perf

open OrderedMap (Included Agree)

variable {cb : CompactBlock} {pool pool' : MempoolMap} {shortIds : List ShortTxId}

/-- The slots read the mempool at the short ids. -/
theorem merged_congr (left : ℕ) {i : ℕ} {prefilled : List PrefilledTx}
    (h : ∀ sid ∈ shortIds, pool[sid]? = pool'[sid]?) :
    merged pool left i shortIds prefilled = merged pool' left i shortIds prefilled := by
  induction left generalizing i shortIds prefilled with
  | zero => rfl
  | succ left ih =>
      rw [merged, merged]
      cases nextPrefilled i prefilled with
      | some tx => exact congrArg (tx :: ·) (ih h)
      | none =>
          cases shortIds with
          | nil => exact congrArg (_ :: ·) (ih h)
          | cons sid shortIds =>
              obtain ⟨hsid, hrest⟩ := List.forall_mem_cons.mp h
              show pool[sid]?.getD [] :: _ = pool'[sid]?.getD [] :: _
              rw [List.tail_cons, hsid, ih hrest]

/-- The short ids that a larger mempool does not have are among those. -/
theorem absentIds_sublist (h : Included pool pool') (shortIds : List ShortTxId) :
    (absentIds pool' shortIds).Sublist (absentIds pool shortIds) := by
  refine List.monotone_filter_right shortIds fun sid hsid => ?_
  rw [decide_eq_true_eq] at hsid ⊢
  exact fun hmem => hsid (h.mem hmem)

/-- A well-formed announcement is accepted when no short id is missing. -/
theorem ok_wellFormed (h : cb.WellFormed) (pool : MempoolMap) :
    (reconstruct cb pool).ok = true ↔ ∀ sid ∈ cb.shortIds, sid ∈ pool := by
  rw [reconstruct_wellFormed h, ← absentIds_eq_nil]
  split
  · next hnil => exact iff_of_true rfl hnil
  · next hne => exact iff_of_false (fun hok => hne (List.isEmpty_iff.mp hok)) hne

theorem missing_wellFormed (h : cb.WellFormed) (pool : MempoolMap) :
    (reconstruct cb pool).missing = absentIds pool cb.shortIds := by
  rw [reconstruct_wellFormed h]
  split
  · next hnil => exact hnil.symm
  · rfl

/-! ## Two mempools -/

/-- Nodes whose mempools agree accept the same body. -/
theorem reconstruct_same (hagree : Agree pool pool') (hok : (reconstruct cb pool).ok)
    (hok' : (reconstruct cb pool').ok) : reconstruct cb pool' = reconstruct cb pool := by
  by_cases hwf : cb.WellFormed
  · have hall := (ok_wellFormed hwf pool).mp hok
    have hall' := (ok_wellFormed hwf pool').mp hok'
    have hbody : cb.body pool = cb.body pool' :=
      merged_congr _ fun sid hsid => hagree.getElem?_eq (hall sid hsid) (hall' sid hsid)
    rw [reconstruct_wellFormed hwf, reconstruct_wellFormed hwf, if_pos (absentIds_eq_nil.mpr hall),
      if_pos (absentIds_eq_nil.mpr hall'), hbody]
  · rw [reconstruct_malformed hwf, reconstruct_malformed hwf]

/-- A larger mempool misses no other short ids, keeps what was accepted, and is enough
when it has what was missing, but for a malformed announcement with short ids. -/
theorem reconstruct_retry (hgrows : Included pool pool') (cb : CompactBlock) :
    (reconstruct cb pool').missing.Sublist (reconstruct cb pool).missing ∧
    ((reconstruct cb pool).ok → reconstruct cb pool' = reconstruct cb pool) ∧
    ((∀ sid ∈ (reconstruct cb pool).missing, sid ∈ pool') →
      ((reconstruct cb pool').ok ↔ cb.shortIds = [] ∨ cb.WellFormed)) := by
  by_cases hwf : cb.WellFormed
  · rw [missing_wellFormed hwf, missing_wellFormed hwf]
    refine ⟨absentIds_sublist hgrows cb.shortIds, fun hok => ?_, fun hfilled => ?_⟩
    · have hall := (ok_wellFormed hwf pool).mp hok
      exact reconstruct_same hgrows.agree hok
        ((ok_wellFormed hwf pool').mpr fun sid hsid => hgrows.mem (hall sid hsid))
    · refine iff_of_true ((ok_wellFormed hwf pool').mpr fun sid hsid => ?_) (.inr hwf)
      by_cases hmem : sid ∈ pool
      · exact hgrows.mem hmem
      · exact hfilled sid (List.mem_filter.mpr ⟨hsid, decide_eq_true hmem⟩)
  · rw [reconstruct_malformed hwf, reconstruct_malformed hwf]
    refine ⟨List.Sublist.refl _, fun _ => rfl, fun _ => ?_⟩
    show cb.shortIds.isEmpty = true ↔ _
    rw [List.isEmpty_iff, or_iff_left hwf]

/-! ## Main result -/

/-- What a node makes of an announcement, from any peer, as its mempool grows, and against
another node. -/
theorem announcement_settled (cb : CompactBlock) :
    (∀ pool pool' : MempoolMap, Included pool pool' →
      (reconstruct cb pool').missing.Sublist (reconstruct cb pool).missing ∧
      ((reconstruct cb pool).ok → reconstruct cb pool' = reconstruct cb pool) ∧
      ((∀ sid ∈ (reconstruct cb pool).missing, sid ∈ pool') →
        ((reconstruct cb pool').ok ↔ cb.shortIds = [] ∨ cb.WellFormed))) ∧
    ∀ pool pool' : MempoolMap, Agree pool pool' → (reconstruct cb pool).ok →
      (reconstruct cb pool').ok → reconstruct cb pool' = reconstruct cb pool :=
  ⟨fun _ _ hgrows => reconstruct_retry hgrows cb, fun _ _ hagree => reconstruct_same hagree⟩

/-- The announcement of two transactions to a node that has one of them. -/
theorem announcement_settled_secondTry :
    let cb := makeCompactBlock (Vector.replicate 32 0) [text "a", text "b"] []
    let pool : MempoolMap := addTxs ∅ [text "a"]
    (reconstruct cb pool).missing = [makeShortTxId (text "b")] ∧
      (reconstruct cb (pool.insert (makeShortTxId (text "b")) (text "b"))).ok := by
  intro cb pool
  have hmissing : (reconstruct cb pool).missing = [makeShortTxId (text "b")] := by decide +kernel
  have hfresh : pool[makeShortTxId (text "b")]? = none := by decide +kernel
  refine ⟨hmissing, ?_⟩
  have hwf : cb.WellFormed := makeCompactBlock_wellFormed _ [] (by decide)
  refine (((announcement_settled cb).1 pool _
    (OrderedMap.included_insert_new hfresh _)).2.2 fun sid hsid => ?_).mpr (.inr hwf)
  rw [hmissing, List.mem_singleton] at hsid
  rw [hsid]
  exact OrderedMap.mem_iff_exists.mpr ⟨text "b", Std.ExtTreeMap.getElem?_insert_self⟩

end HiveNative.Perf
