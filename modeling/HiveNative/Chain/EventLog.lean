import HiveNative.Lib.FlatJson
import HiveNative.Chain.WellFormed

/-!
# The virtual operations as an event log

An observer that sees only the virtual operations can follow the database.  It
decodes the JSON text of each payload (`decode`), keeps a `Replica` of what the
events tell, and `Mirrors` says that the replica shows the database.

Every step that changes what the replica shows writes exactly one event, and the
event says what changed (`Logs`).  A step that fails writes nothing, but for the
call of a contract that the engine let fail, whose event changes nothing.  The
payloads are put together without escaping, and they can be read back because
every name in them has been validated.
-/

namespace HiveNative.Chain

open Std (ExtTreeMap ExtTreeSet)
open EState OrderedMap FlatJson

variable {tr : List Event} {db db' : Database}

/-! ## Events and their texts -/

inductive LogEvent where
  | nftCollectionCreated (id : CollectionId) (symbol : Bytes)
  | nftMinted (nftId : NftId) («to» : AccountName)
  | nftTransferred (nftId : NftId) («from» «to» : AccountName)
  | nftApproved (nftId : NftId) (approved : AccountName)
  | nftBurned (nftId : NftId) (owner : AccountName)
  | nftApprovalForAll (owner operator : AccountName) (collection : CollectionId) (approved : Bool)
  | htlcCreated (htlcId : HtlcId) («from» «to» : AccountName)
  | htlcRedeemed (htlcId : HtlcId) («to» : AccountName)
  | htlcRefunded (htlcId : HtlcId) («from» : AccountName)
  | contractDeployed (contractId : ContractId) (owner : AccountName)
  | contractCalled (contractId : ContractId) (success : Bool) (fuel : UInt64)
deriving Repr, DecidableEq

/-- A number that fits in 64 bits. -/
def idOf (n : ℕ) : Option UInt64 := if n < 2 ^ 64 then some (UInt64.ofNat n) else none

section Decode

variable (key : String) (members : List Member)

/-- The member of a name, as a 64-bit number. -/
def numberAt : Option UInt64 :=
  match members.lookup (text key) with
  | some (.number n) => idOf n
  | _ => none

def stringAt : Option Bytes :=
  match members.lookup (text key) with
  | some (.string s) => some s
  | _ => none

def boolAt : Option Bool :=
  match members.lookup (text key) with
  | some (.bool b) => some b
  | _ => none

end Decode

/-- The event of a virtual operation, from its name and the JSON text of its
payload. -/
def decode (op : VirtualOp) : Option LogEvent := do
  let members ← parse op.payloadJson
  match op.name with
  | "nft_collection_created" => do
      return .nftCollectionCreated (← numberAt "id" members) (← stringAt "symbol" members)
  | "nft_minted" => do
      return .nftMinted (← numberAt "nft_id" members) (← stringAt "to" members)
  | "nft_transferred" => do
      return .nftTransferred (← numberAt "nft_id" members) (← stringAt "from" members)
        (← stringAt "to" members)
  | "nft_approved" => do
      return .nftApproved (← numberAt "nft_id" members) (← stringAt "approved" members)
  | "nft_burned" => do
      return .nftBurned (← numberAt "nft_id" members) (← stringAt "owner" members)
  | "nft_approval_for_all" => do
      return .nftApprovalForAll (← stringAt "owner" members) (← stringAt "operator" members)
        (← numberAt "collection" members) (← boolAt "approved" members)
  | "htlc_created" => do
      return .htlcCreated (← numberAt "htlc_id" members) (← stringAt "from" members)
        (← stringAt "to" members)
  | "htlc_redeemed" => do
      return .htlcRedeemed (← numberAt "htlc_id" members) (← stringAt "to" members)
  | "htlc_refunded" => do
      return .htlcRefunded (← numberAt "htlc_id" members) (← stringAt "from" members)
  | "contract_deployed" => do
      return .contractDeployed (← numberAt "contract_id" members) (← stringAt "owner" members)
  | "contract_called" => do
      return .contractCalled (← numberAt "contract_id" members) (← boolAt "success" members)
        (← numberAt "fuel" members)
  | _ => none

/-! ### What the evaluators write -/

/-- The text of an event, put together as the evaluators do it. -/
def LogEvent.encode : LogEvent → VirtualOp
  | .nftCollectionCreated id symbol =>
      ⟨"nft_collection_created", jsonObject [jsonNat "id" id, jsonStr "symbol" symbol]⟩
  | .nftMinted id dest => ⟨"nft_minted", jsonObject [jsonNat "nft_id" id, jsonStr "to" dest]⟩
  | .nftTransferred id source dest =>
      ⟨"nft_transferred",
        jsonObject [jsonNat "nft_id" id, jsonStr "from" source, jsonStr "to" dest]⟩
  | .nftApproved id approved =>
      ⟨"nft_approved", jsonObject [jsonNat "nft_id" id, jsonStr "approved" approved]⟩
  | .nftBurned id owner => ⟨"nft_burned", jsonObject [jsonNat "nft_id" id, jsonStr "owner" owner]⟩
  | .nftApprovalForAll owner operator collection approved =>
      ⟨"nft_approval_for_all",
        jsonObject [jsonStr "owner" owner, jsonStr "operator" operator,
          jsonNat "collection" collection, jsonBool "approved" approved]⟩
  | .htlcCreated id source dest =>
      ⟨"htlc_created",
        jsonObject [jsonNat "htlc_id" id, jsonStr "from" source, jsonStr "to" dest]⟩
  | .htlcRedeemed id dest => ⟨"htlc_redeemed", jsonObject [jsonNat "htlc_id" id, jsonStr "to" dest]⟩
  | .htlcRefunded id source =>
      ⟨"htlc_refunded", jsonObject [jsonNat "htlc_id" id, jsonStr "from" source]⟩
  | .contractDeployed id owner =>
      ⟨"contract_deployed", jsonObject [jsonNat "contract_id" id, jsonStr "owner" owner]⟩
  | .contractCalled id success fuel =>
      ⟨"contract_called", contractCalledPayload id success fuel⟩

/-- The members of the payload of an event. -/
def LogEvent.members : LogEvent → List Member
  | .nftCollectionCreated id symbol =>
      [(text "id", .number id.toNat), (text "symbol", .string symbol)]
  | .nftMinted id dest => [(text "nft_id", .number id.toNat), (text "to", .string dest)]
  | .nftTransferred id source dest =>
      [(text "nft_id", .number id.toNat), (text "from", .string source), (text "to", .string dest)]
  | .nftApproved id approved =>
      [(text "nft_id", .number id.toNat), (text "approved", .string approved)]
  | .nftBurned id owner => [(text "nft_id", .number id.toNat), (text "owner", .string owner)]
  | .nftApprovalForAll owner operator collection approved =>
      [(text "owner", .string owner), (text "operator", .string operator),
        (text "collection", .number collection.toNat), (text "approved", .bool approved)]
  | .htlcCreated id source dest =>
      [(text "htlc_id", .number id.toNat), (text "from", .string source), (text "to", .string dest)]
  | .htlcRedeemed id dest => [(text "htlc_id", .number id.toNat), (text "to", .string dest)]
  | .htlcRefunded id source => [(text "htlc_id", .number id.toNat), (text "from", .string source)]
  | .contractDeployed id owner =>
      [(text "contract_id", .number id.toNat), (text "owner", .string owner)]
  | .contractCalled id success fuel =>
      [(text "contract_id", .number id.toNat), (text "success", .bool success),
        (text "fuel", .number fuel.toNat)]

theorem text_quoted (key : String) : text ("\"" ++ key ++ "\":") = 34 :: text key ++ [34, 58] := by
  simp [text]

theorem jsonNat_eq (key : String) (n : UInt64) :
    jsonNat key n = renderMember (text key, .number n.toNat) := by
  rw [jsonNat, text_quoted]
  rfl

theorem jsonStr_eq (key : String) (s : Bytes) :
    jsonStr key s = renderMember (text key, .string s) := by
  simp [jsonStr, text, renderMember, renderValue]

theorem jsonBool_eq (key : String) (b : Bool) :
    jsonBool key b = renderMember (text key, .bool b) := by
  rw [jsonBool, text_quoted]
  cases b with
  | true => rfl
  | false => rfl

theorem encode_payload (e : LogEvent) : e.encode.payloadJson = render e.members := by
  have hmembers : e.encode.payloadJson = jsonObject (e.members.map renderMember) := by
    cases e with
    | _ =>
        simp only [LogEvent.encode, LogEvent.members, contractCalledPayload, jsonNat_eq, jsonStr_eq,
          jsonBool_eq, List.map_cons, List.map_nil]
  rw [hmembers]
  rfl

@[simp] theorem idOf_toNat (n : UInt64) : idOf n.toNat = some n := by
  rw [idOf, if_pos n.toNat_lt, UInt64.ofNat_toNat]

/-- The strings of an event can be written as they are. -/
def LogEvent.Writable (e : LogEvent) : Prop :=
  ∀ m ∈ e.members, ∀ s, m.2 = .string s → Plain s

/-- The strings among the members of an object. -/
def strings (members : List Member) : List Bytes :=
  members.filterMap fun m =>
    match m.2 with
    | .string s => some s
    | _ => none

theorem LogEvent.writable_of_strings {e : LogEvent} (h : ∀ s ∈ strings e.members, Plain s) :
    e.Writable := by
  intro m hm s hs
  refine h s (List.mem_filterMap.mpr ⟨m, hm, ?_⟩)
  rw [hs]

/-- An event with one string in it. -/
theorem LogEvent.writable_one {e : LogEvent} {s : Bytes} (h : strings e.members = [s])
    (hs : Plain s) : e.Writable :=
  writable_of_strings (h ▸ List.forall_mem_singleton.mpr hs)

theorem LogEvent.writable_two {e : LogEvent} {s t : Bytes} (h : strings e.members = [s, t])
    (hs : Plain s) (ht : Plain t) : e.Writable :=
  writable_of_strings
    (h ▸ List.forall_mem_cons.mpr ⟨hs, List.forall_mem_singleton.mpr ht⟩)

/-- The text of an event is decoded to the event. -/
theorem decode_encode {e : LogEvent} (h : e.Writable) : decode e.encode = some e := by
  have hplain : ∀ m ∈ e.members, PlainMember m := by
    have hkeys : ∀ m ∈ e.members, Plain m.1 := by
      cases e with
      | _ => simp [LogEvent.members, Plain, text, plainChar]
    exact fun m hm => ⟨hkeys m hm, h m hm⟩
  have hparse : parse e.encode.payloadJson = some e.members := by
    rw [encode_payload]
    exact parse_render hplain
  unfold decode
  rw [hparse]
  cases e with
  | _ =>
      simp [LogEvent.encode, LogEvent.members, numberAt, stringAt, boolAt, List.lookup, text]

/-! ## The replica -/

/-- What the log tells of a token. -/
structure TokenView where
  owner : AccountName
  approved : AccountName
deriving Repr, DecidableEq

/-- What the log tells of a lock. -/
structure HtlcView where
  «from» : AccountName
  «to» : AccountName
  status : HtlcStatus
deriving Repr, DecidableEq

/-- The state of an observer of the log. -/
structure Replica where
  collectionBySymbol : ExtTreeMap Bytes CollectionId := ∅
  nfts : ExtTreeMap NftId TokenView := ∅
  operators : ExtTreeSet OperatorKey := ∅
  htlcs : ExtTreeMap HtlcId HtlcView := ∅
  contracts : ExtTreeMap ContractId AccountName := ∅

/-- What the observer does at an event. -/
def Replica.apply (r : Replica) : LogEvent → Replica
  | .nftCollectionCreated id symbol =>
      { r with collectionBySymbol := r.collectionBySymbol.insert symbol id }
  | .nftMinted id dest => { r with nfts := r.nfts.insert id ⟨dest, []⟩ }
  | .nftTransferred id _ dest => { r with nfts := r.nfts.modify id fun _ => ⟨dest, []⟩ }
  | .nftApproved id approved =>
      { r with nfts := r.nfts.modify id fun n => { n with approved := approved } }
  | .nftBurned id _ => { r with nfts := r.nfts.erase id }
  | .nftApprovalForAll owner operator collection approved =>
      { r with
        operators :=
          if approved then r.operators.insert (owner, operator, collection)
          else r.operators.erase (owner, operator, collection) }
  | .htlcCreated id source dest => { r with htlcs := r.htlcs.insert id ⟨source, dest, .open⟩ }
  | .htlcRedeemed id _ =>
      { r with htlcs := r.htlcs.modify id fun h => { h with status := .redeemed } }
  | .htlcRefunded id _ =>
      { r with htlcs := r.htlcs.modify id fun h => { h with status := .refunded } }
  | .contractDeployed id owner => { r with contracts := r.contracts.insert id owner }
  | .contractCalled _ _ _ => r

/-- Follow one virtual operation. -/
def Replica.follow (r : Replica) (op : VirtualOp) : Option Replica := (decode op).map r.apply

/-- Follow a log from the beginning.  There is no result when an entry cannot be
decoded. -/
def replay (log : List VirtualOp) : Option Replica := log.foldlM Replica.follow {}

def NftObject.view (n : NftObject) : TokenView := ⟨n.owner, n.approved⟩

def HtlcObject.view (h : HtlcObject) : HtlcView := ⟨h.from, h.to, h.status⟩

/-- The replica shows the database. -/
structure Mirrors (r : Replica) (db : Database) : Prop where
  collectionBySymbol : r.collectionBySymbol = db.collectionBySymbol
  nfts : Shown NftObject.view db.nfts r.nfts
  operators : ∀ key : OperatorKey, key ∈ r.operators ↔ key ∈ db.operators
  htlcs : Shown HtlcObject.view db.htlcs r.htlcs
  contracts : Shown ContractObject.owner db.contracts r.contracts

theorem replay_push {log : List VirtualOp} {r : Replica} {e : LogEvent} (h : replay log = some r)
    (he : e.Writable) : replay (log ++ [e.encode]) = some (r.apply e) := by
  unfold replay at *
  rw [List.foldlM_append, h]
  simp [Replica.follow, decode_encode he]

/-! ## Names that can be written -/

theorem plain_of_validName {name : AccountName} (h : ValidName name) : Plain name := by
  intro c hc
  have hchar := h.chars c hc
  simp only [accountNameChar, Bool.or_eq_true, Bool.and_eq_true, decide_eq_true_eq, beq_iff_eq,
    UInt8.le_iff_toNat_le, ← UInt8.toNat_inj] at hchar
  simp only [plainChar, Bool.and_eq_true, bne_iff_ne, decide_eq_true_eq, ne_eq,
    UInt8.le_iff_toNat_le, ← UInt8.toNat_inj]
  simp only [UInt8.reduceToNat] at hchar ⊢
  omega

theorem plain_of_symbol {symbol : Bytes} (h : ∀ c ∈ symbol, symbolChar c = true) :
    Plain symbol := by
  intro c hc
  have hchar := h c hc
  simp only [symbolChar, Bool.or_eq_true, Bool.and_eq_true, decide_eq_true_eq,
    UInt8.le_iff_toNat_le] at hchar
  simp only [plainChar, Bool.and_eq_true, bne_iff_ne, decide_eq_true_eq, ne_eq,
    UInt8.le_iff_toNat_le, ← UInt8.toNat_inj]
  simp only [UInt8.reduceToNat] at hchar ⊢
  omega

/-- Every account has a name that was validated. -/
def AccountsValid (db : Database) : Prop := ∀ name, db.accountExists name = true → ValidName name

theorem accountsValid_step (s : Step) (h : AccountsValid db) : AccountsValid (exec s db).2 := by
  -- a write at the account `account` leaves the others
  have write : ∀ {account : AccountName} {b : AccountBalance},
      (exec s db).2.balances = db.balances.insert account b → ValidName account →
      AccountsValid (exec s db).2 := by
    intro account b hb hvalid name hname
    rw [Database.accountExists, hb, ExtTreeMap.contains_insert] at hname
    by_cases heq : account = name
    · exact heq ▸ hvalid
    · exact h name (by simpa [heq, Database.accountExists] using hname)
  cases fundsMove db s with
  | idle same quiet =>
      intro name hname
      exact h name ((congrArg (·.contains name) same.balances).symm.trans hname)
  | account done label valid balances htlcs next => exact write balances valid
  | lock done label guards balances htlcs next => exact write balances guards.valid.source
  | redeem done label guards balances htlcs next =>
      exact write balances (h _ (accountExists_iff.mpr ⟨_, guards.account⟩))
  | refund done label guards balances htlcs next =>
      exact write balances (h _ (accountExists_iff.mpr ⟨_, guards.account⟩))

theorem accountsValid_run (config : NodeConfig) (steps : List Step) :
    AccountsValid (final config steps) := by
  induction steps with
  | nil =>
      intro name hname
      simp [Database.empty, Database.accountExists] at hname
  | cons s steps ih => exact accountsValid_step s ih

/-! ## One step -/

/-- The event tells what a step changed. -/
structure Logs (e : LogEvent) (db db' : Database) : Prop where
  pushed : db'.pendingVirtualOps = db.pendingVirtualOps ++ [e.encode]
  writable : e.Writable
  mirrors : ∀ r, Mirrors r db → Mirrors (r.apply e) db'

/-- What the log tells of the database is the same. -/
structure SameShown (db db' : Database) : Prop where
  collectionBySymbol : db'.collectionBySymbol = db.collectionBySymbol
  nfts : db'.nfts = db.nfts
  operators : db'.operators = db.operators
  htlcs : db'.htlcs = db.htlcs
  contracts : db'.contracts = db.contracts

theorem Mirrors.of_same {r : Replica} (h : Mirrors r db) (same : SameShown db db') :
    Mirrors r db' := by
  refine ⟨h.collectionBySymbol.trans same.collectionBySymbol.symm, ?_, ?_, ?_, ?_⟩
  · rw [same.nfts]
    exact h.nfts
  · rw [same.operators]
    exact h.operators
  · rw [same.htlcs]
    exact h.htlcs
  · rw [same.contracts]
    exact h.contracts

/-- A grant or a revocation changes one key. -/
theorem mem_setOperator (operators : ExtTreeMap OperatorKey NftOperatorObject)
    (op : NftSetApprovalForAllOperation) (keys : ExtTreeSet OperatorKey)
    (h : ∀ key, key ∈ keys ↔ key ∈ operators) (key : OperatorKey) :
    key ∈ (if op.approved then keys.insert (op.owner, op.operatorAccount, op.collection)
        else keys.erase (op.owner, op.operatorAccount, op.collection)) ↔
      key ∈ setOperator operators op := by
  unfold setOperator
  cases op.approved with
  | true => simp [ExtTreeSet.mem_insert, ExtTreeMap.mem_insert, h key]
  | false => simp [ExtTreeSet.mem_erase, ExtTreeMap.mem_erase, h key]

/-- A successful operation writes the event of what it did. -/
theorem applied_logs {op : Operation} (tokens : TokensWf db) (locks : LocksWf tr db)
    (valid : AccountsValid db) (h : apply op db = .ok () db') : ∃ e, Logs e db db' := by
  cases op with
  | nftCreateCollection op =>
      obtain ⟨⟨-, hvalid, -, -⟩, rfl⟩ := applyNftCreateCollection_ok.mp h
      refine ⟨.nftCollectionCreated db.nextCollectionId op.symbol, rfl, ?_, fun r hr => ?_⟩
      · exact LogEvent.writable_one rfl (plain_of_symbol hvalid.symbol_chars)
      · exact { hr with
          collectionBySymbol := congrArg (·.insert op.symbol db.nextCollectionId)
            hr.collectionBySymbol }
  | nftMint op =>
      obtain ⟨col, hg, rfl⟩ := applyNftMint_ok.mp h
      refine ⟨.nftMinted db.nextNftId op.to, rfl, ?_, fun r hr => ?_⟩
      · exact LogEvent.writable_one rfl (plain_of_validName hg.valid.dest)
      · exact { hr with nfts := hr.nfts.insert db.nextNftId (newNft db op col) }
  | nftTransfer op =>
      obtain ⟨n, hg, rfl⟩ := applyNftTransfer_ok.mp h
      have hok := tokens.nfts op.nftId n hg.found
      refine ⟨.nftTransferred n.id n.owner op.to, rfl, ?_, fun r hr => ?_⟩
      · exact LogEvent.writable_two rfl (plain_of_validName (valid _ hok.owner_exists))
          (plain_of_validName hg.valid.dest)
      · rw [hok.id_eq]
        exact { hr with nfts := hr.nfts.modify hg.found rfl }
  | nftApprove op =>
      obtain ⟨n, hg, rfl⟩ := applyNftApprove_ok.mp h
      refine ⟨.nftApproved op.nftId op.approved, rfl, ?_, fun r hr => ?_⟩
      · have hplain : Plain op.approved := by
          by_cases hempty : op.approved = []
          · rw [hempty]
            exact fun c hc => (by cases hc)
          · exact plain_of_validName (hg.valid.approved hempty)
        exact LogEvent.writable_one rfl hplain
      · exact { hr with nfts := hr.nfts.modify hg.found rfl }
  | nftSetApprovalForAll op =>
      obtain ⟨hg, rfl⟩ := applyNftSetApprovalForAll_ok.mp h
      refine ⟨.nftApprovalForAll op.owner op.operatorAccount op.collection op.approved, rfl, ?_,
        fun r hr => ?_⟩
      · exact LogEvent.writable_two rfl (plain_of_validName hg.valid.owner)
          (plain_of_validName hg.valid.operatorAccount)
      · exact { hr with operators := mem_setOperator db.operators op r.operators hr.operators }
  | nftBurn op =>
      obtain ⟨n, hg, rfl⟩ := applyNftBurn_ok.mp h
      refine ⟨.nftBurned op.nftId op.owner, rfl, ?_, fun r hr => ?_⟩
      · exact LogEvent.writable_one rfl (plain_of_validName hg.valid.owner)
      · exact { hr with nfts := hr.nfts.erase op.nftId }
  | htlcCreate op =>
      obtain ⟨b, hg, rfl⟩ := applyHtlcCreate_ok.mp h
      refine ⟨.htlcCreated db.nextHtlcId op.from op.to, rfl, ?_, fun r hr => ?_⟩
      · exact LogEvent.writable_two rfl (plain_of_validName hg.valid.source)
          (plain_of_validName hg.valid.dest)
      · exact { hr with htlcs := hr.htlcs.insert db.nextHtlcId (newHtlc db op) }
  | htlcRedeem op =>
      obtain ⟨l, b, hg, rfl⟩ := applyHtlcRedeem_ok.mp h
      have hid : l.id = op.htlcId := (locks.locks op.htlcId l hg.found).1.id_eq
      refine ⟨.htlcRedeemed l.id l.to, rfl, ?_, fun r hr => ?_⟩
      · exact LogEvent.writable_one rfl (hg.dest ▸ plain_of_validName hg.valid.dest)
      · rw [hid]
        exact { hr with htlcs := hr.htlcs.modify hg.found rfl }
  | htlcRefund op =>
      obtain ⟨l, b, hg, rfl⟩ := applyHtlcRefund_ok.mp h
      have hid : l.id = op.htlcId := (locks.locks op.htlcId l hg.found).1.id_eq
      refine ⟨.htlcRefunded l.id l.from, rfl, ?_, fun r hr => ?_⟩
      · exact LogEvent.writable_one rfl (hg.source ▸ plain_of_validName hg.valid.source)
      · rw [hid]
        exact { hr with htlcs := hr.htlcs.modify hg.found rfl }
  | contractDeploy op =>
      obtain ⟨hg, rfl⟩ := applyContractDeploy_ok.mp h
      refine ⟨.contractDeployed db.nextContractId op.owner, rfl, ?_, fun r hr => ?_⟩
      · exact LogEvent.writable_one rfl (plain_of_validName hg.valid.owner)
      · exact { hr with contracts := hr.contracts.insert db.nextContractId (newContract db op) }
  | contractCall op =>
      obtain ⟨c, res, hg, -, -, rfl⟩ := applyContractCall_ok.mp h
      refine ⟨.contractCalled op.contractId true res.fuelUsed, rfl, ?_, fun r hr => ?_⟩
      · exact LogEvent.writable_of_strings fun s hs => by cases hs
      · exact hr.of_same ⟨rfl, rfl, rfl, rfl, rfl⟩

theorem SameConsensus.shown (h : SameConsensus db db') : SameShown db db' :=
  ⟨h.tokens.collectionBySymbol, h.tokens.nfts, h.tokens.operators, h.funds.htlcs,
    h.contracts.contracts⟩

/-- A failed step writes no event, or one that changes nothing. -/
theorem failed_logs {s : Step} {x : Stop} (hs : HasStorage db) (h : s.program db = .error x db') :
    (SamePending db db' ∧ SameShown db db') ∨ ∃ e, Logs e db db' := by
  have same := (program_error_same hs h).shown
  cases s with
  | createAccount name hive hbd =>
      exact Or.inl ⟨(lax_samePending.still.createAccount name hive hbd _ _ _ h).1, same⟩
  | setHeadTime t => exact (modify_error.mp h).elim
  | apply op =>
      cases apply_error_pending h with
      | inl hpending => exact Or.inl ⟨hpending, same⟩
      | inr hcall =>
          obtain ⟨call, -, hcall⟩ := hcall
          cases hcall with
          | inl hpending => exact Or.inl ⟨hpending, same⟩
          | inr hpushed =>
              obtain ⟨fuel, hpushed⟩ := hpushed
              refine Or.inr ⟨.contractCalled call.contractId false fuel, hpushed, ?_, ?_⟩
              · exact LogEvent.writable_of_strings fun s hs => by cases hs
              · exact fun r hr => hr.of_same same

/-- A step writes no event and changes nothing that the log tells, or writes the
event of what it changed. -/
theorem step_logs (s : Step) (wf : RunWf tr db) (valid : AccountsValid db) :
    (SamePending db (exec s db).2 ∧ SameShown db (exec s db).2) ∨
      ∃ e, Logs e db (exec s db).2 := by
  cases event_cases db s with
  | inr hfail =>
      obtain ⟨x, -, hfail⟩ := hfail
      exact failed_logs wf.contracts.hasStorage hfail
  | inl hok =>
      obtain ⟨-, hok⟩ := hok
      cases s with
      | createAccount name hive hbd =>
          obtain ⟨-, hdb⟩ := createAccount_ok.mp hok
          have hdb : (exec (.createAccount name hive hbd) db).2 = _ := hdb
          rw [hdb]
          exact Or.inl ⟨rfl, rfl, rfl, rfl, rfl, rfl⟩
      | setHeadTime t => exact Or.inl ⟨rfl, rfl, rfl, rfl, rfl, rfl⟩
      | apply op => exact Or.inr (applied_logs wf.tokens wf.locks valid hok)

/-! ## Main result -/

/-- The observer of the log can follow the database. -/
structure Followed (tr : List Event) (db : Database) : Prop where
  wf : RunWf tr db
  valid : AccountsValid db
  followed : ∃ r, replay db.pendingVirtualOps = some r ∧ Mirrors r db

theorem followed_empty (config : NodeConfig) : Followed [] (.empty config) := by
  refine ⟨runWf_empty config, fun name hname => ?_, {}, rfl, rfl, ?_, ?_, ?_, ?_⟩
  · simp [Database.empty, Database.accountExists] at hname
  · exact fun id => by simp [Database.empty]
  · exact fun key => by simp [Database.empty]
  · exact fun id => by simp [Database.empty]
  · exact fun id => by simp [Database.empty]

theorem followed_step (db : Database) (s : Step) (hc : Counted (Machine.event exec db s :: tr))
    (h : Followed tr db) : Followed (Machine.event exec db s :: tr) (exec s db).2 := by
  obtain ⟨r, hreplay, hmirrors⟩ := h.followed
  refine ⟨runWf_step db s hc h.wf, accountsValid_step s h.valid, ?_⟩
  cases step_logs s h.wf h.valid with
  | inl hquiet =>
      obtain ⟨hpending, same⟩ := hquiet
      exact ⟨r, by rw [hpending]; exact hreplay, hmirrors.of_same same⟩
  | inr hlogs =>
      obtain ⟨e, hlogs⟩ := hlogs
      refine ⟨r.apply e, ?_, hlogs.mirrors r hmirrors⟩
      rw [hlogs.pushed]
      exact replay_push hreplay hlogs.writable

/-- Replaying the virtual operations of a run reproduces the symbols, the owner
and the approval of every token, the keys of the operators, the parties and the
status of every lock and the owner of every contract. -/
theorem replay_reproduces (config : NodeConfig) (steps : List Step)
    (hcounted : Counted (trace config steps)) :
    ∃ r, replay (final config steps).pendingVirtualOps = some r ∧
      Mirrors r (final config steps) :=
  (Machine.invariant_of Counted Followed (fun _ _ => Counted.tail) (followed_empty config)
    (fun _ db s hc h => followed_step db s hc h) steps hcounted).followed

/-- Bob sends a token of Alice's to Carol, as her operator, and fails to burn it. -/
def operatorRun : List Step :=
  [ .apply (.nftBurn { owner := text "bob", nftId := 1 }),
    .apply (.nftTransfer { «from» := text "bob", «to» := text "carol", nftId := 1 }),
    .apply (.nftSetApprovalForAll { owner := text "alice", operatorAccount := text "bob" }),
    .apply (.nftMint { creator := text "alice", collection := 1, «to» := text "alice" }),
    .apply (.nftCreateCollection
      { creator := text "alice", symbol := text "ART", name := text "Art" }),
    .createAccount (text "carol") 0 0,
    .createAccount (text "bob") 0 0,
    .createAccount (text "alice") 0 0 ]

/-- The log shows Carol as the owner. -/
theorem replay_reproduces_operatorRun :
    ∃ r, replay (final {} operatorRun).pendingVirtualOps = some r ∧
      r.nfts[(1 : NftId)]? = some ⟨text "carol", []⟩ ∧ Mirrors r (final {} operatorRun) := by
  have hcounted : Counted (trace {} operatorRun) :=
    ⟨⟨by decide +kernel, by decide +kernel⟩, by decide +kernel, by decide +kernel⟩
  obtain ⟨r, hreplay, hmirrors⟩ := replay_reproduces {} operatorRun hcounted
  have hview : (final {} operatorRun).nfts[(1 : NftId)]?.map NftObject.view =
      some ⟨text "carol", []⟩ := by decide +kernel
  exact ⟨r, hreplay, (hmirrors.nfts 1).trans hview, hmirrors⟩

end HiveNative.Chain
