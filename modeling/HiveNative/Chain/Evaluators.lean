import HiveNative.Chain.Database

/-!
# The evaluators

The eleven `chain::apply` overloads of `evaluators_nft.cpp`,
`evaluators_htlc.cpp` and `evaluators_contracts.cpp`.  Each is the sequence of
checks and writes of the source, in its order: guards, `validate`, lookups, the
RC charge, the writes, one virtual operation.

`Operation` is the sum of the eleven operation types and `apply` the overload
set.
-/

namespace HiveNative.Chain

open Std

/-! ## Payloads

The payload of a virtual operation is a JSON text put together by an output
stream. -/

/-- A member with a number. -/
def jsonNat (key : String) (n : UInt64) : Bytes := text ("\"" ++ key ++ "\":") ++ decimal n

/-- A member with a string, which is not escaped. -/
def jsonStr (key : String) (s : Bytes) : Bytes := text ("\"" ++ key ++ "\":\"") ++ s ++ text "\""

/-- A member with a truth value. -/
def jsonBool (key : String) (b : Bool) : Bytes :=
  text ("\"" ++ key ++ "\":") ++ text (if b then "true" else "false")

/-- An object with the given members. -/
def jsonObject (members : List Bytes) : Bytes :=
  text "\x7b" ++ (members.intersperse (text ",")).flatten ++ text "\x7d"

/-! ## NFT evaluators -/

/-- The collection object `nft_create_collection` builds. -/
def newCollection (db : Database) (op : NftCreateCollectionOperation) : NftCollectionObject :=
  { id := db.nextCollectionId
    creator := op.creator
    symbol := op.symbol
    name := op.name
    maxSupply := op.maxSupply
    supply := 0
    transferable := op.transferable
    created := db.headTime }

def applyNftCreateCollection (op : NftCreateCollectionOperation) : Eval Unit := do
  requireHardfork hiveHardforkNft
  requireFullNftState
  Eval.lift op.validate
  let db ← get
  Eval.throwIf (¬ db.accountExists op.creator) "creator account missing"
  Eval.throwIf (db.collectionBySymbol.contains op.symbol) "symbol taken"
  charge (Rc.costNftCreateCollection op)
  let c := newCollection db op
  modify fun db =>
    { db with
      nextCollectionId := db.nextCollectionId + 1
      collections := db.collections.insert c.id c
      collectionBySymbol := db.collectionBySymbol.insert c.symbol c.id }
  pushVirtual "nft_collection_created" (jsonObject [jsonNat "id" c.id, jsonStr "symbol" c.symbol])

/-- The token `nft_mint` builds in the collection `col`. -/
def newNft (db : Database) (op : NftMintOperation) (col : NftCollectionObject) : NftObject :=
  { id := db.nextNftId
    collection := op.collection
    tokenSerial := col.supply + 1
    owner := op.to
    metadataHash := op.metadataHash
    uri := op.uri
    soulbound := op.soulbound || !col.transferable
    minted := db.headTime }

def applyNftMint (op : NftMintOperation) : Eval Unit := do
  requireHardfork hiveHardforkNft
  requireFullNftState
  Eval.lift op.validate
  let db ← get
  Eval.throwIf (¬ db.accountExists op.creator ∨ ¬ db.accountExists op.to) "account missing"
  let col ← Eval.find db.collections[op.collection]? "unknown collection"
  Eval.throwIf (col.creator ≠ op.creator) "not collection creator"
  Eval.throwIf (col.maxSupply ≠ 0 ∧ col.supply ≥ col.maxSupply) "max supply reached"
  charge (Rc.costNftMint op)
  let n := newNft db op col
  modify fun db =>
    { db with
      nextNftId := db.nextNftId + 1
      nfts := db.nfts.insert n.id n
      collections := db.collections.insert op.collection { col with supply := col.supply + 1 } }
  pushVirtual "nft_minted" (jsonObject [jsonNat "nft_id" n.id, jsonStr "to" n.owner])

def applyNftTransfer (op : NftTransferOperation) : Eval Unit := do
  requireHardfork hiveHardforkNft
  requireFullNftState
  Eval.lift op.validate
  let db ← get
  Eval.throwIf (¬ db.accountExists op.to) "to missing"
  let n ← Eval.find db.nfts[op.nftId]? "unknown nft"
  let isOwner : Prop := n.owner = op.from
  let isTokenApproved : Prop := n.approved = op.from
  let isOpAll : Bool := db.isOperatorApproved n.owner op.from n.collection
  Eval.throwIf (¬ isOwner ∧ ¬ isTokenApproved ∧ ¬ isOpAll) "not authorized to transfer"
  Eval.throwIf n.soulbound "soulbound"
  charge (Rc.costNftTransfer op)
  modify fun db =>
    { db with nfts := db.nfts.insert op.nftId { n with owner := op.to, approved := [] } }
  pushVirtual "nft_transferred"
    (jsonObject [jsonNat "nft_id" n.id, jsonStr "from" n.owner, jsonStr "to" op.to])

def applyNftApprove (op : NftApproveOperation) : Eval Unit := do
  requireHardfork hiveHardforkNft
  requireFullNftState
  Eval.lift op.validate
  let db ← get
  let n ← Eval.find db.nfts[op.nftId]? "unknown nft"
  Eval.throwIf (n.owner ≠ op.owner) "not owner"
  Eval.throwIf (¬ op.approved.isEmpty ∧ ¬ db.accountExists op.approved)
    "approved account missing"
  charge (Rc.costNftApprove op)
  modify fun db =>
    { db with nfts := db.nfts.insert op.nftId { n with approved := op.approved } }
  pushVirtual "nft_approved"
    (jsonObject [jsonNat "nft_id" op.nftId, jsonStr "approved" op.approved])

/-- The operator table after a grant or a revocation. -/
def setOperator (operators : ExtTreeMap OperatorKey NftOperatorObject)
    (op : NftSetApprovalForAllOperation) : ExtTreeMap OperatorKey NftOperatorObject :=
  let key : OperatorKey := (op.owner, op.operatorAccount, op.collection)
  if ¬ op.approved then operators.erase key
  else
    operators.insert key
      { owner := op.owner
        operatorAccount := op.operatorAccount
        collection := op.collection
        approved := true }

def applyNftSetApprovalForAll (op : NftSetApprovalForAllOperation) : Eval Unit := do
  requireHardfork hiveHardforkNft
  requireFullNftState
  Eval.lift op.validate
  let db ← get
  Eval.throwIf (¬ db.accountExists op.owner ∨ ¬ db.accountExists op.operatorAccount)
    "account missing"
  Eval.throwIf (op.collection ≠ 0 ∧ ¬ db.collections.contains op.collection) "unknown collection"
  charge (Rc.costNftSetApprovalForAll op)
  modify fun db => { db with operators := setOperator db.operators op }
  pushVirtual "nft_approval_for_all"
    (jsonObject [jsonStr "owner" op.owner, jsonStr "operator" op.operatorAccount,
      jsonNat "collection" op.collection, jsonBool "approved" op.approved])

/-- The supply of a collection after one of its tokens is burned.  A collection
that is missing or counts no token is left as it is. -/
def decrementSupply (collections : ExtTreeMap CollectionId NftCollectionObject)
    (id : CollectionId) : ExtTreeMap CollectionId NftCollectionObject :=
  match collections[id]? with
  | none => collections
  | some c =>
      if c.supply > 0 then collections.insert id { c with supply := c.supply - 1 }
      else collections

def applyNftBurn (op : NftBurnOperation) : Eval Unit := do
  requireHardfork hiveHardforkNft
  requireFullNftState
  Eval.lift op.validate
  let db ← get
  let n ← Eval.find db.nfts[op.nftId]? "unknown nft"
  Eval.throwIf (n.owner ≠ op.owner) "not owner"
  charge (Rc.costNftBurn op)
  modify fun db =>
    { db with
      nfts := db.nfts.erase op.nftId
      collections := decrementSupply db.collections n.collection }
  pushVirtual "nft_burned" (jsonObject [jsonNat "nft_id" op.nftId, jsonStr "owner" op.owner])

/-! ## HTLC evaluators -/

/-- The lock `htlc_create` builds. -/
def newHtlc (db : Database) (op : HtlcCreateOperation) : HtlcObject :=
  { id := db.nextHtlcId
    «from» := op.from
    «to» := op.to
    amount := op.amount
    preimageHash := op.preimageHash
    preimageSize := op.preimageSize
    expiration := op.expiration
    created := db.headTime
    memo := op.memo
    status := HtlcStatus.open }

def applyHtlcCreate (op : HtlcCreateOperation) : Eval Unit := do
  requireHardfork hiveHardforkHtlc
  requireFullHtlcState
  let db ← get
  Eval.lift (op.validate db.headTime)
  Eval.throwIf (¬ db.accountExists op.from ∨ ¬ db.accountExists op.to) "account missing"
  Eval.throwIf (db.openHtlcCount op.from ≥ htlcMaxOpenPerAccount) "too many open htlcs"
  charge (Rc.costHtlcCreate op)
  let debit ← negate op.amount.amount
  adjustBalance op.from { amount := debit, symbol := op.amount.symbol }
  let h := newHtlc db op
  modify fun db =>
    { db with nextHtlcId := db.nextHtlcId + 1, htlcs := db.htlcs.insert h.id h }
  pushVirtual "htlc_created"
    (jsonObject [jsonNat "htlc_id" h.id, jsonStr "from" h.from, jsonStr "to" h.to])

def applyHtlcRedeem (op : HtlcRedeemOperation) : Eval Unit := do
  requireHardfork hiveHardforkHtlc
  requireFullHtlcState
  Eval.lift op.validate
  let db ← get
  let h ← Eval.find db.htlcs[op.htlcId]? "unknown htlc"
  Eval.throwIf (h.status ≠ HtlcStatus.open) "htlc not open"
  Eval.throwIf (h.to ≠ op.to) "redeem requires to authority"
  Eval.throwIf (db.headTime ≥ h.expiration) "htlc expired"
  Eval.throwIf (op.preimage.length ≠ h.preimageSize.toNat) "preimage size mismatch"
  let dig := digestOf h.preimageHash.algo op.preimage
  Eval.throwIf (¬ constantTimeEqual dig.bytes h.preimageHash.bytes) "preimage hash mismatch"
  charge (Rc.costHtlcRedeem op)
  adjustBalance h.to h.amount
  modify fun db =>
    { db with htlcs := db.htlcs.insert op.htlcId { h with status := .redeemed } }
  pushVirtual "htlc_redeemed" (jsonObject [jsonNat "htlc_id" h.id, jsonStr "to" h.to])

def applyHtlcRefund (op : HtlcRefundOperation) : Eval Unit := do
  requireHardfork hiveHardforkHtlc
  requireFullHtlcState
  Eval.lift op.validate
  let db ← get
  let h ← Eval.find db.htlcs[op.htlcId]? "unknown htlc"
  Eval.throwIf (h.status ≠ HtlcStatus.open) "htlc not open"
  Eval.throwIf (h.from ≠ op.from) "refund requires from authority"
  Eval.throwIf (db.headTime < h.expiration) "htlc not yet expired"
  charge (Rc.costHtlcRefund op)
  adjustBalance h.from h.amount
  modify fun db =>
    { db with htlcs := db.htlcs.insert op.htlcId { h with status := .refunded } }
  pushVirtual "htlc_refunded" (jsonObject [jsonNat "htlc_id" h.id, jsonStr "from" h.from])

/-! ## Contract evaluators -/

/-- The text of a failed engine run. -/
def errorOr (error fallback : String) : String := if error = "" then fallback else error

/-- The contract `contract_deploy` stores. -/
def newContract (db : Database) (op : ContractDeployOperation) : ContractObject :=
  { id := db.nextContractId
    owner := op.owner
    code := op.code
    codeHash := sha256 op.code
    created := db.headTime }

def applyContractDeploy (op : ContractDeployOperation) : Eval Unit := do
  requireHardfork hiveHardforkContracts
  requireContracts
  Eval.lift op.validate
  let db ← get
  Eval.throwIf (¬ db.accountExists op.owner) "account missing"
  let res := Contracts.deployAndInit op.code op.initArgs { fuel := op.fuelLimit }
  Eval.throwIf (¬ res.success) (errorOr res.error "deploy failed")
  charge (Rc.costContractDeploy op)
  let c := newContract db op
  modify fun db =>
    { db with
      nextContractId := db.nextContractId + 1
      contracts := db.contracts.insert c.id c
      contractStorage := db.contractStorage.insert c.id ∅ }
  pushVirtual "contract_deployed"
    (jsonObject [jsonNat "contract_id" c.id, jsonStr "owner" c.owner])

/-- The storage after the staged writes are committed. -/
def commitWrites (storage writes : Contracts.Storage) : Contracts.Storage :=
  writes.foldl (fun s k v => s.insert k v) storage

/-- The payload of a finished call. -/
def contractCalledPayload (id : ContractId) (success : Bool) (fuel : UInt64) : Bytes :=
  jsonObject [jsonNat "contract_id" id, jsonBool "success" success, jsonNat "fuel" fuel]

/-- What `contract_call` does once the engine has returned `res`. -/
def settleCall (op : ContractCallOperation) (storage : Contracts.Storage)
    (res : Contracts.CallResult) : Eval Unit := do
  charge (Rc.costContractCall op res.fuelUsed)
  if ¬ res.success then do
    pushVirtual "contract_called" (contractCalledPayload op.contractId false res.fuelUsed)
    throw (.threw (.protocolError (errorOr res.error "call failed")))
  else do
    modify fun db =>
      { db with
        contractStorage :=
          db.contractStorage.insert op.contractId (commitWrites storage res.storageWrites) }
    pushVirtual "contract_called" (contractCalledPayload op.contractId true res.fuelUsed)

def applyContractCall (op : ContractCallOperation) : Eval Unit := do
  requireHardfork hiveHardforkContracts
  requireContracts
  Eval.lift op.validate
  let db ← get
  Eval.throwIf (¬ db.accountExists op.caller) "account missing"
  let c ← Eval.find db.contracts[op.contractId]? "unknown contract"
  let storage := db.contractStorage.getD op.contractId ∅
  -- `contract_storage[id]` makes an empty entry when there is none.
  modify fun db =>
    { db with contractStorage := db.contractStorage.insert op.contractId storage }
  let res ← Eval.lift
    (Contracts.call c.code op.exportName op.args storage { fuel := op.fuelLimit } op.caller)
  settleCall op storage res

/-! ## The overload set -/

/-- An operation of one of the eleven types. -/
inductive Operation where
  | nftCreateCollection (op : NftCreateCollectionOperation)
  | nftMint (op : NftMintOperation)
  | nftTransfer (op : NftTransferOperation)
  | nftApprove (op : NftApproveOperation)
  | nftSetApprovalForAll (op : NftSetApprovalForAllOperation)
  | nftBurn (op : NftBurnOperation)
  | htlcCreate (op : HtlcCreateOperation)
  | htlcRedeem (op : HtlcRedeemOperation)
  | htlcRefund (op : HtlcRefundOperation)
  | contractDeploy (op : ContractDeployOperation)
  | contractCall (op : ContractCallOperation)
deriving Repr, DecidableEq

/-- `chain::apply`. -/
def apply : Operation → Eval Unit
  | .nftCreateCollection op => applyNftCreateCollection op
  | .nftMint op => applyNftMint op
  | .nftTransfer op => applyNftTransfer op
  | .nftApprove op => applyNftApprove op
  | .nftSetApprovalForAll op => applyNftSetApprovalForAll op
  | .nftBurn op => applyNftBurn op
  | .htlcCreate op => applyHtlcCreate op
  | .htlcRedeem op => applyHtlcRedeem op
  | .htlcRefund op => applyHtlcRefund op
  | .contractDeploy op => applyContractDeploy op
  | .contractCall op => applyContractCall op

end HiveNative.Chain
