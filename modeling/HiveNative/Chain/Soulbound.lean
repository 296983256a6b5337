import HiveNative.Chain.WellFormed

/-!
# Soulbound tokens

`NftMove` says what an event does to the token with a given id: it leaves it, changes
it in place, mints it or burns it.  A change in place keeps the soulbound flag and the
collection, and moves a token only when it is not soulbound.

So a soulbound token stays with the account it was minted for until it is burned, and
since the flags of a collection never change, a token of a collection that is not
transferable is soulbound for all its life (`soulbound_tokens_stay`).
-/

namespace HiveNative.Chain

open Std (ExtTreeMap)
open EState OrderedMap

variable {tr : List Event} {e : Event} {db db' : Database} {id : NftId} {n n' : NftObject}

/-- The event mints the token with this id. -/
structure Mints (e : Event) (op : NftMintOperation) (id : NftId) : Prop where
  done : Succeeded e
  label : e.label = .apply (.nftMint op)
  assigned : e.before.nextNftId = id

/-- The event burns the token with this id. -/
def Burns (e : Event) (id : NftId) : Prop :=
  Succeeded e ∧ ∃ op, e.label = .apply (.nftBurn op) ∧ op.nftId = id

/-! ## One token at one event -/

/-- A token changed in place.  It has moved only if it is free to move. -/
structure ChangedInPlace (n n' : NftObject) : Prop where
  soulbound : n'.soulbound = n.soulbound
  collection : n'.collection = n.collection
  owner : n.soulbound = true → n'.owner = n.owner

/-- What an event can do to a token. -/
inductive NftMove (e : Event) (id : NftId) : Prop where
  | kept (not_minted : ∀ op, ¬ Mints e op id) (same : e.after.nfts[id]? = e.before.nfts[id]?)
  | changed {n n' : NftObject} (not_minted : ∀ op, ¬ Mints e op id)
      (before : e.before.nfts[id]? = some n) (after : e.after.nfts[id]? = some n')
      (changed : ChangedInPlace n n')
  | minted {op : NftMintOperation} {col : NftCollectionObject} (mints : Mints e op id)
      (found : e.before.collections[op.collection]? = some col)
      (before : e.before.nfts[id]? = none)
      (after : e.after.nfts[id]? = some (newNft e.before op col))
  | burned (not_minted : ∀ op, ¬ Mints e op id) (burns : Burns e id)
      (after : e.after.nfts[id]? = none)

/-- An operation that is no mint mints nothing. -/
theorem not_mints {s : Step} (label : e.label = s) (h : s.isNftMint = false)
    (op : NftMintOperation) : ¬ Mints e op id := by
  intro hm
  have hkind : s.isNftMint = true := by
    rw [← label, hm.label]
    rfl
  rw [h] at hkind
  cases hkind

/-- A transfer and an approval write one token, in place. -/
theorem nftMove_insert {i : NftId} {x x' : NftObject} (not_minted : ∀ op, ¬ Mints e op id)
    (found : e.before.nfts[i]? = some x) (nfts : e.after.nfts = e.before.nfts.insert i x')
    (changed : ChangedInPlace x x') : NftMove e id := by
  by_cases hid : i = id
  · subst hid
    refine .changed not_minted found ?_ changed
    rw [nfts, ExtTreeMap.getElem?_insert_self]
  · refine .kept not_minted ?_
    rw [nfts, getElem?_insert_ne hid]

theorem nftMove (inv : TokensInv tr db) (s : Step) (id : NftId) :
    NftMove (Machine.event exec db s) id := by
  cases tokenMove db s with
  | idle same quiet =>
      refine .kept (fun op hm => ?_) (congrArg (·[id]?) same.nfts)
      exact not_mints rfl (isNftMint_of_other (quiet hm.done)) op hm
  | createCollection done label _ _ collections _ nfts operators nextCollection nextNft =>
      exact .kept (not_mints label rfl) (congrArg (·[id]?) nfts)
  | setOperator done label guards collections nfts operators nextCollection nextNft =>
      exact .kept (not_mints label rfl) (congrArg (·[id]?) nfts)
  | @mint op col done label guards collections nfts operators nextCollection nextNft =>
      by_cases hid : db.nextNftId = id
      · subst hid
        refine .minted ⟨done, label, rfl⟩ guards.found inv.nfts_allocated.fresh ?_
        rw [nfts]
        exact ExtTreeMap.getElem?_insert_self
      · refine .kept (fun op hm => hid hm.assigned) ?_
        rw [nfts]
        exact getElem?_insert_ne hid
  | transfer done label guards collections nfts operators nextCollection nextNft =>
      refine nftMove_insert (not_mints label rfl) guards.found nfts ⟨rfl, rfl, fun hs => ?_⟩
      rw [guards.free] at hs
      cases hs
  | approve done label guards collections nfts operators nextCollection nextNft =>
      exact nftMove_insert (not_mints label rfl) guards.found nfts ⟨rfl, rfl, fun _ => rfl⟩
  | @burn op m done label guards collections nfts operators nextCollection nextNft =>
      by_cases hid : op.nftId = id
      · refine .burned (not_mints label rfl) ⟨done, op, label, hid⟩ ?_
        rw [nfts, hid]
        exact ExtTreeMap.getElem?_erase_self
      · refine .kept (not_mints label rfl) ?_
        rw [nfts, getElem?_erase_ne hid]

/-! ## Collections keep their terms -/

/-- A collection on the terms it was created with. -/
structure SameSettings (c c' : NftCollectionObject) : Prop where
  creator : c'.creator = c.creator
  symbol : c'.symbol = c.symbol
  maxSupply : c'.maxSupply = c.maxSupply
  transferable : c'.transferable = c.transferable

theorem terms_step (inv : TokensInv tr db) (s : Step) {id : CollectionId}
    {c : NftCollectionObject} (hc : db.collections[id]? = some c) :
    ∃ c', (exec s db).2.collections[id]? = some c' ∧ SameSettings c c' := by
  have supplies : ∀ {m : ExtTreeMap CollectionId NftCollectionObject},
      (exec s db).2.collections = m → SupplyOnly db.collections m →
      ∃ c', (exec s db).2.collections[id]? = some c' ∧ SameSettings c c' := by
    intro m heq hsupply
    subst heq
    obtain ⟨c', hc', hold⟩ := hsupply.symm.back hc
    rw [hold]
    exact ⟨c', hc', rfl, rfl, rfl, rfl⟩
  cases tokenMove db s with
  | idle same quiet => exact supplies same.collections (.of_eq rfl)
  | createCollection done label _ _ collections _ nfts operators nextCollection nextNft =>
      have hne : db.nextCollectionId ≠ id := by
        intro heq
        have hfree := inv.collections_allocated.fresh
        rw [heq, hc] at hfree
        cases hfree
      refine ⟨c, ?_, rfl, rfl, rfl, rfl⟩
      exact (congrArg (·[id]?) collections).trans ((getElem?_insert_ne hne).trans hc)
  | mint done label guards collections nfts operators nextCollection nextNft =>
      exact supplies collections (.insert guards.found _)
  | transfer done label guards collections nfts operators nextCollection nextNft =>
      exact supplies collections (.of_eq rfl)
  | approve done label guards collections nfts operators nextCollection nextNft =>
      exact supplies collections (.of_eq rfl)
  | setOperator done label guards collections nfts operators nextCollection nextNft =>
      exact supplies collections (.of_eq rfl)
  | burn done label guards collections nfts operators nextCollection nextNft =>
      exact supplies collections (.decrement _)

/-! ## Whole runs -/

/-- What the tokens of a run owe to their mints. -/
structure SoulboundInv (tr : List Event) (db : Database) : Prop where
  /-- A token of a collection that is not transferable is soulbound. -/
  bound : ∀ (id : NftId) (n : NftObject), db.nfts[id]? = some n →
    ∃ c, db.collections[n.collection]? = some c ∧ (c.transferable = false → n.soulbound = true)
  minted : ∀ (id : NftId) (n : NftObject), db.nfts[id]? = some n → ∃ e ∈ tr, ∃ op, Mints e op id
  owner : ∀ (id : NftId) (n : NftObject), db.nfts[id]? = some n → n.soulbound = true →
    ∀ e ∈ tr, ∀ op, Mints e op id → n.owner = op.to
  /-- The ids minted so far are behind the counter. -/
  past : ∀ e ∈ tr, ∀ op id, Mints e op id → id < db.nextNftId

/-- The counter of tokens moves on at a mint and never goes back. -/
theorem past_step (inv : TokensInv tr db) (s : Step)
    (inv' : TokensInv (Machine.event exec db s :: tr) (exec s db).2)
    (past : ∀ e ∈ tr, ∀ op id, Mints e op id → id < db.nextNftId) :
    ∀ e ∈ Machine.event exec db s :: tr, ∀ op id, Mints e op id → id < (exec s db).2.nextNftId := by
  have hbefore := inv.nfts_allocated.next_eq
  have hafter := inv'.nfts_allocated.next_eq
  intro e he op id hm
  rw [UInt64.lt_iff_toNat_lt]
  cases List.mem_cons.mp he with
  | inl heq =>
      subst heq
      rw [created_of_kind tr hm.done (by rw [hm.label]; rfl)] at hafter
      rw [← hm.assigned]
      show db.nextNftId.toNat < _
      omega
  | inr hold =>
      have hlt := UInt64.lt_iff_toNat_lt.mp (past e hold op id hm)
      have hle := created_le_cons Step.isNftMint (Machine.event exec db s) tr
      omega

theorem SoulboundInv.bound_step (inv : SoulboundInv tr db) (tokens : TokensInv tr db) (s : Step)
    (hn' : (exec s db).2.nfts[id]? = some n') :
    ∃ c, (exec s db).2.collections[n'.collection]? = some c ∧
      (c.transferable = false → n'.soulbound = true) := by
  have old : ∀ n : NftObject, db.nfts[id]? = some n → n'.collection = n.collection →
      n'.soulbound = n.soulbound → ∃ c, (exec s db).2.collections[n'.collection]? = some c ∧
        (c.transferable = false → n'.soulbound = true) := by
    intro n hn hcol hflag
    obtain ⟨c, hc, hbound⟩ := inv.bound id n hn
    obtain ⟨c', hc', hterms⟩ := terms_step tokens s hc
    rw [hcol, hflag]
    exact ⟨c', hc', fun hfixed => hbound (hterms.transferable ▸ hfixed)⟩
  cases nftMove tokens s id with
  | kept not_minted same => exact old n' (same.symm.trans hn') rfl rfl
  | @changed n m not_minted before after changed =>
      have hm : m = n' := Option.some.inj (after.symm.trans hn')
      subst hm
      exact old n before changed.collection changed.soulbound
  | @minted op col mints found before after =>
      have hn : newNft db op col = n' := Option.some.inj (after.symm.trans hn')
      subst hn
      obtain ⟨c', hc', hterms⟩ := terms_step tokens s found
      refine ⟨c', hc', fun hfixed => ?_⟩
      rw [hterms.transferable] at hfixed
      simp [newNft, hfixed]
  | burned not_minted burns after =>
      have hgone : none = some n' := after.symm.trans hn'
      cases hgone

theorem soulboundInv_step (inv : SoulboundInv tr db) (tokens : TokensInv tr db) (s : Step)
    (tokens' : TokensInv (Machine.event exec db s :: tr) (exec s db).2) :
    SoulboundInv (Machine.event exec db s :: tr) (exec s db).2 := by
  refine ⟨fun id n' hn' => inv.bound_step tokens s hn', fun id n' hn' => ?_,
    fun id n' hn' hs e he op hm => ?_, past_step tokens s tokens' inv.past⟩
  · have old : ∀ n : NftObject, db.nfts[id]? = some n →
        ∃ e ∈ Machine.event exec db s :: tr, ∃ op, Mints e op id := by
      intro n hn
      obtain ⟨e, he, hmints⟩ := inv.minted id n hn
      exact ⟨e, List.mem_cons_of_mem _ he, hmints⟩
    cases nftMove tokens s id with
    | kept not_minted same => exact old n' (same.symm.trans hn')
    | changed not_minted before after changed => exact old _ before
    | minted mints found before after => exact ⟨_, List.mem_cons_self, _, mints⟩
    | burned not_minted burns after =>
        have hgone : none = some n' := after.symm.trans hn'
        cases hgone
  · cases nftMove tokens s id with
    | kept not_minted same =>
        cases List.mem_cons.mp he with
        | inl heq => exact absurd (heq ▸ hm) (not_minted op)
        | inr hold => exact inv.owner id n' (same.symm.trans hn') hs e hold op hm
    | @changed n m not_minted before after changed =>
        have hm' : m = n' := Option.some.inj (after.symm.trans hn')
        subst hm'
        rw [changed.soulbound] at hs
        rw [changed.owner hs]
        cases List.mem_cons.mp he with
        | inl heq => exact absurd (heq ▸ hm) (not_minted op)
        | inr hold => exact inv.owner id n before hs e hold op hm
    | @minted mintOp col mints found before after =>
        have hn : newNft db mintOp col = n' := Option.some.inj (after.symm.trans hn')
        subst hn
        cases List.mem_cons.mp he with
        | inl heq =>
            subst heq
            have hop : mintOp = op := by
              have hlabel := mints.label.symm.trans hm.label
              cases hlabel
              rfl
            rw [← hop]
            rfl
        | inr hold =>
            -- the id is on offer now, so no earlier event can have minted it
            have hlt := inv.past e hold op id hm
            rw [← mints.assigned] at hlt
            exact absurd hlt (UInt64.lt_irrefl _)
    | burned not_minted burns after =>
        have hgone : none = some n' := after.symm.trans hn'
        cases hgone

theorem soulboundInv_run (config : NodeConfig) (steps : List Step)
    (h : Minted (trace config steps)) :
    TokensInv (trace config steps) (final config steps) ∧
      SoulboundInv (trace config steps) (final config steps) := by
  refine Machine.invariant_of Minted (fun tr db => TokensInv tr db ∧ SoulboundInv tr db)
    (fun _ _ => Minted.tail) ⟨tokensInv_empty config, ?_⟩ (fun tr db s hm inv => ?_) steps h
  · refine ⟨fun id n hn => ?_, fun id n hn => ?_, fun id n hn => ?_, List.forall_mem_nil _⟩
    all_goals simp [Database.empty] at hn
  · have tokens' := tokensInv_step db s hm inv.1
    exact ⟨tokens', soulboundInv_step inv.2 inv.1 s tokens'⟩

/-! ## Main result -/

/-- Soulbound tokens stay where they were minted to, whoever is approved and whoever
submits a transfer.  A token is there from its mint to its burn, with one soulbound
flag, and a collection keeps its terms. -/
theorem soulbound_tokens_stay (config : NodeConfig) (steps : List Step)
    (hminted : Minted (trace config steps)) :
    let db := final config steps
    let tr := trace config steps
    (∀ e ∈ tr, ∀ (id : NftId) (n : NftObject), e.before.nfts[id]? = some n →
        (∃ n', e.after.nfts[id]? = some n' ∧ n'.soulbound = n.soulbound) ∨ Burns e id) ∧
      (∀ (id : NftId) (n : NftObject), db.nfts[id]? = some n →
        ∃ c, db.collections[n.collection]? = some c ∧
          (c.transferable = false → n.soulbound = true)) ∧
      (∀ e ∈ tr, ∀ (id : CollectionId) (c : NftCollectionObject),
        e.before.collections[id]? = some c →
        ∃ c', e.after.collections[id]? = some c' ∧ SameSettings c c') ∧
      (∀ e ∈ tr, ∀ op id, Mints e op id → ∃ n, e.after.nfts[id]? = some n ∧ n.owner = op.to) ∧
      ∀ (id : NftId) (n : NftObject), db.nfts[id]? = some n → n.soulbound = true →
        (∃ e ∈ tr, ∃ op, Mints e op id) ∧ ∀ e ∈ tr, ∀ op, Mints e op id → n.owner = op.to := by
  intro db tr
  obtain ⟨-, inv⟩ := soulboundInv_run config steps hminted
  have hbefore : ∀ e ∈ tr,
      ∃ tr', TokensInv tr' e.before ∧ e = Machine.event exec e.before e.label := by
    intro e he
    obtain ⟨tr', htokens, -, heq⟩ := Machine.invariant_before Minted TokensInv
      (fun _ _ => Minted.tail) (tokensInv_empty config)
      (fun _ db s hm inv => tokensInv_step db s hm inv) steps hminted he
    exact ⟨tr', htokens, heq⟩
  refine ⟨fun e he id n hn => ?_, inv.bound, fun e he id c hc => ?_, fun e he op id hm => ?_,
    fun id n hn hs => ⟨inv.minted id n hn, inv.owner id n hn hs⟩⟩
  · obtain ⟨tr', htokens, heq⟩ := hbefore e he
    have hmove := nftMove htokens e.label id
    rw [← heq] at hmove
    cases hmove with
    | kept not_minted same => exact Or.inl ⟨n, same.trans hn, rfl⟩
    | @changed m n' not_minted before after changed =>
        have hm : m = n := Option.some.inj (before.symm.trans hn)
        subst hm
        exact Or.inl ⟨n', after, changed.soulbound⟩
    | minted mints found before after =>
        have hnew : none = some n := before.symm.trans hn
        cases hnew
    | burned not_minted burns after => exact Or.inr burns
  · obtain ⟨tr', htokens, heq⟩ := hbefore e he
    have hterms := terms_step htokens e.label hc
    have hafter : (exec e.label e.before).2 = e.after := congrArg Machine.Event.after heq.symm
    rw [hafter] at hterms
    exact hterms
  · obtain ⟨tr', htokens, heq⟩ := hbefore e he
    have hmove := nftMove htokens e.label id
    rw [← heq] at hmove
    cases hmove with
    | kept not_minted same => exact absurd hm (not_minted op)
    | changed not_minted before after changed => exact absurd hm (not_minted op)
    | @minted mintOp col mints found before after =>
        have hlabel := mints.label.symm.trans hm.label
        cases hlabel
        exact ⟨_, after, rfl⟩
    | burned not_minted burns after => exact absurd hm (not_minted op)

/-- Alice binds a token to Bob, who approves Carol.  Carol cannot move it. -/
def boundRun : List Step :=
  [ .apply (.nftTransfer { «from» := text "carol", «to» := text "carol", nftId := 1 }),
    .apply (.nftApprove { owner := text "bob", nftId := 1, approved := text "carol" }),
    .apply (.nftMint { creator := text "alice", collection := 1, «to» := text "bob" }),
    .apply (.nftCreateCollection
      { creator := text "alice", symbol := text "ART", name := text "Art", transferable := false }),
    .createAccount (text "carol") 0 0,
    .createAccount (text "bob") 0 0,
    .createAccount (text "alice") 0 0 ]

theorem soulbound_tokens_stay_boundRun :
    Minted (trace {} boundRun) ∧ ∃ n : NftObject,
      (final {} boundRun).nfts[(1 : NftId)]? = some n ∧ n.approved = text "carol" ∧
      ∃ e ∈ trace {} boundRun, ∃ op, Mints e op 1 ∧ n.owner = op.to := by
  have hminted : Minted (trace {} boundRun) := ⟨by decide +kernel, by decide +kernel⟩
  have hsome : ((final {} boundRun).nfts[(1 : NftId)]?).map
      (fun n => (n.approved, n.soulbound)) = some (text "carol", true) := by decide +kernel
  obtain ⟨n, hn, hpair⟩ := Option.map_eq_some_iff.mp hsome
  obtain ⟨-, -, -, -, hstays⟩ := soulbound_tokens_stay {} boundRun hminted
  obtain ⟨hmint, howner⟩ := hstays 1 n hn (congrArg Prod.snd hpair)
  obtain ⟨e, he, op, hm⟩ := hmint
  exact ⟨hminted, n, hn, congrArg Prod.fst hpair, e, he, op, hm, howner e he op hm⟩

end HiveNative.Chain
