import HiveNative.Sdk.Ops
import HiveNative.Chain.Consent

/-!
# From the SDK to the chain

An operation of the SDK goes to a node as the text of `["custom_json", body]`, and the
`json` of the body is itself a text, of the payload.  A reader of both texts gets the body
and the payload that were sent, whatever their strings hold, and the account that signs by
default is the one whose signature the operation needs on the chain
(`custom_json_delivers`).

How a node turns the fields of a payload into those of an operation the repository does not
say.  A `Reading` is any way to do it.
-/

namespace HiveNative.Sdk

open JsonText

/-! ## Operations in JSON -/

namespace Json

open Record (field empty)

def customJsonOpBody : Record CustomJsonOpBody :=
  (field (units "required_auths") Codec.string.array <|
    field (units "required_posting_auths") Codec.string.array <|
    field (units "id") .string <| field (units "json") .string <| empty).map
    (fun (requiredAuths, requiredPostingAuths, id, json, _) =>
      { requiredAuths, requiredPostingAuths, id, json })
    (fun body => (body.requiredAuths, body.requiredPostingAuths, body.id, body.json, ()))
    fun _ => rfl

def customJsonOp : Codec CustomJsonOpTuple := Codec.string.pair customJsonOpBody.codec

end Json

/-! ## Payloads as operations of the chain -/

/-- What a node takes the fields of a payload for. -/
structure Reading where
  name : AccountName → HiveNative.AccountName
  text : Text → HiveNative.Bytes
  id : Id → UInt64
  count : SafeInteger → UInt64
  size : SafeInteger → UInt16
  time : TimePointSec → HiveNative.TimePointSec
  share : ShareType → HiveNative.ShareType
  symbol : AssetSymbol → HiveNative.AssetSymbol
  sha256 : Sha256 → Sha256T
  algo : HashAlgo → HiveNative.HashAlgo
  bytes : Bytes → HiveNative.Bytes

/-- The operation of the chain with the fields of a payload. -/
def NativePayload.operation (r : Reading) : NativePayload → Chain.Operation
  | nftCreateCollection op => .nftCreateCollection
      { creator := r.name op.creator, symbol := r.text op.symbol, name := r.text op.name
        maxSupply := r.count op.maxSupply, transferable := op.transferable }
  | nftMint op => .nftMint
      { creator := r.name op.creator, collection := r.id op.collection, «to» := r.name op.to
        metadataHash := r.sha256 op.metadataHash, uri := r.text op.uri, soulbound := op.soulbound }
  | nftTransfer op => .nftTransfer
      { «from» := r.name op.from, «to» := r.name op.to, nftId := r.id op.nftId
        memo := r.text op.memo }
  | nftApprove op => .nftApprove
      { owner := r.name op.owner, nftId := r.id op.nftId, approved := r.name op.approved }
  | nftSetApprovalForAll op => .nftSetApprovalForAll
      { owner := r.name op.owner, operatorAccount := r.name op.operatorAccount
        collection := r.id op.collection, approved := op.approved }
  | nftBurn op => .nftBurn { owner := r.name op.owner, nftId := r.id op.nftId }
  | htlcCreate op => .htlcCreate
      { «from» := r.name op.from, «to» := r.name op.to
        amount := ⟨r.share op.amount.amount, r.symbol op.amount.symbol⟩
        preimageHash := ⟨r.algo op.preimageHash.algo, r.bytes op.preimageHash.bytes⟩
        preimageSize := r.size op.preimageSize, expiration := r.time op.expiration
        memo := r.text op.memo }
  | htlcRedeem op => .htlcRedeem
      { «to» := r.name op.to, htlcId := r.id op.htlcId, preimage := r.bytes op.preimage }
  | htlcRefund op => .htlcRefund { «from» := r.name op.from, htlcId := r.id op.htlcId }
  | contractDeploy op => .contractDeploy
      { owner := r.name op.owner, code := r.bytes op.code, codeHash := r.sha256 op.codeHash
        fuelLimit := r.count op.fuelLimit, initArgs := r.bytes op.initArgs }
  | contractCall op => .contractCall
      { caller := r.name op.caller, contractId := r.id op.contractId
        exportName := r.text op.exportName, args := r.bytes op.args
        fuelLimit := r.count op.fuelLimit }

/-- The fee payer of the SDK is that of the operation. -/
theorem feePayer_operation (r : Reading) (p : NativePayload) :
    (p.operation r).feePayer = r.name (feePayerFromPayload p) := by
  cases p <;> rfl

/-! ## What is left out -/

/-- What stands for nothing is taken for nothing. -/
structure Reading.Plain (r : Reading) : Prop where
  count : r.count 0 = 0
  size : r.size 0 = 0
  bytes : r.bytes (.numbers []) = []

section LeftOut

variable {r : Reading} {db db' : Chain.Database}

/-- A deployment is refused without code and without a fuel limit. -/
theorem deploy_refused (h : r.Plain) (fields : ContractDeployFields)
    (hout : fields.code = none ∨ fields.fuelLimit = none) :
    Chain.apply ((NativePayload.contractDeploy (contractDeploy fields)).operation r) db ≠
      .ok () db' := by
  intro hok
  have hvalid := (Chain.applyContractDeploy_ok.mp hok).1.valid
  cases hout with
  | inl hcode =>
      refine hvalid.code_nonempty ?_
      show r.bytes (fields.code.getD (.numbers [])) = []
      rw [hcode]
      exact h.bytes
  | inr hfuel =>
      refine hvalid.fuel_ne ?_
      show r.count (fields.fuelLimit.getD 0) = 0
      rw [hfuel]
      exact h.count

/-- A call is refused without a fuel limit. -/
theorem call_refused (h : r.Plain) (fields : ContractCallFields)
    (hout : fields.fuelLimit = none) :
    Chain.apply ((NativePayload.contractCall (contractCall fields)).operation r) db ≠
      .ok () db' := by
  intro hok
  obtain ⟨c, res, hcallable, -⟩ := Chain.applyContractCall_ok.mp hok
  refine hcallable.valid.fuel_ne ?_
  show r.count (fields.fuelLimit.getD 0) = 0
  rw [hout]
  exact h.count

/-- A lock is refused without the size of its preimage. -/
theorem lock_refused (h : r.Plain) (fields : HtlcCreateFields)
    (hout : fields.preimageSize = none) :
    Chain.apply ((NativePayload.htlcCreate (htlcCreate fields)).operation r) db ≠
      .ok () db' := by
  intro hok
  obtain ⟨b, hlockable, -⟩ := Chain.applyHtlcCreate_ok.mp hok
  refine hlockable.valid.size_ne ?_
  show r.size (fields.preimageSize.getD 0) = 0
  rw [hout]
  exact h.size

end LeftOut

/-! ## Builders -/

/-- The fields that one of the builders of operations is given. -/
inductive BuilderFields where
  | nftCreateCollection (fields : NftCreateCollectionFields)
  | nftMint (fields : NftMintFields)
  | nftTransfer (fields : NftTransferFields)
  | nftApprove (fields : NftApproveFields)
  | nftSetApprovalForAll (fields : NftSetApprovalForAllFields)
  | nftBurn (fields : NftBurnOperation)
  | htlcCreate (fields : HtlcCreateFields)
  | htlcRedeem (fields : HtlcRedeemOperation)
  | htlcRefund (fields : HtlcRefundOperation)
  | contractDeploy (fields : ContractDeployFields)
  | contractCall (fields : ContractCallFields)

/-- What the builder makes of the fields. -/
def BuilderFields.op (options : CustomJsonOptions) : BuilderFields → CustomJsonOpTuple
  | nftCreateCollection fields => buildNftCreateCollectionOp fields options
  | nftMint fields => buildNftMintOp fields options
  | nftTransfer fields => buildNftTransferOp fields options
  | nftApprove fields => buildNftApproveOp fields options
  | nftSetApprovalForAll fields => buildNftSetApprovalForAllOp fields options
  | nftBurn fields => buildNftBurnOp fields options
  | htlcCreate fields => buildHtlcCreateOp fields options
  | htlcRedeem fields => buildHtlcRedeemOp fields options
  | htlcRefund fields => buildHtlcRefundOp fields options
  | contractDeploy fields => buildContractDeployOp fields options
  | contractCall fields => buildContractCallOp fields options

/-- The payload that the fields stand for. -/
def BuilderFields.payload : BuilderFields → NativePayload
  | nftCreateCollection fields => .nftCreateCollection (Sdk.nftCreateCollection fields)
  | nftMint fields => .nftMint (Sdk.nftMint fields)
  | nftTransfer fields => .nftTransfer (Sdk.nftTransfer fields)
  | nftApprove fields => .nftApprove (Sdk.nftApprove fields)
  | nftSetApprovalForAll fields => .nftSetApprovalForAll (Sdk.nftSetApprovalForAll fields)
  | nftBurn fields => .nftBurn (Sdk.nftBurn fields)
  | htlcCreate fields => .htlcCreate (Sdk.htlcCreate fields)
  | htlcRedeem fields => .htlcRedeem (Sdk.htlcRedeem fields)
  | htlcRefund fields => .htlcRefund (Sdk.htlcRefund fields)
  | contractDeploy fields => .contractDeploy (Sdk.contractDeploy fields)
  | contractCall fields => .contractCall (Sdk.contractCall fields)

theorem BuilderFields.op_eq (options : CustomJsonOptions) (fields : BuilderFields) :
    fields.op options = toCustomJsonOp fields.payload options := by
  cases fields with
  | _ => rfl

/-! ## Main result -/

/-- The `id` under which the operations of a part are sent. -/
def customJsonId : Chain.Part → Text
  | .tokens => units "hive_nft"
  | .locks => units "hive_htlc"
  | .contracts => units "hive_contracts"

theorem customJsonIdFor_eq (r : Reading) (p : NativePayload) :
    customJsonIdFor p = customJsonId (p.operation r).part := by
  cases p with
  | _ => rfl

/-- An operation of the SDK brings a payload to the node, under the given options. -/
structure Delivers (op : CustomJsonOpTuple) (p : NativePayload) (options : CustomJsonOptions) :
    Prop where
  wellFormed : WellFormed (Json.customJsonOp.write op)
  read_back : Json.customJsonOp.read (Json.customJsonOp.write op) = some op
  json_wellFormed : WellFormed op.2.json
  payload_back : Json.payload.read op.2.json = some p
  /-- Signers that are named are kept, and else the operation of the chain has the signature
  that it needs, however its fields are taken. -/
  named_signers : ∀ auths, options.requiredAuths = some auths → op.2.requiredAuths = auths
  default_signers : options.requiredAuths = none → ∀ r : Reading,
    op.2.requiredAuths.map r.name = (p.operation r).getRequiredActiveAuthorities
  posting_signers : op.2.requiredPostingAuths = options.requiredPostingAuths.getD []
  named_id : ∀ id, options.id = some id → op.2.id = id
  default_id : options.id = none → ∀ r : Reading, op.2.id = customJsonId (p.operation r).part

theorem delivers_toCustomJsonOp (p : NativePayload) (options : CustomJsonOptions) :
    Delivers (toCustomJsonOp p options) p options where
  wellFormed := wellFormed_stringify _
  read_back := Json.customJsonOp.read_write _
  json_wellFormed := wellFormed_stringify _
  payload_back := Json.payload.read_write p
  named_signers auths h := by simp [toCustomJsonOp, toCustomJsonBody, h]
  default_signers h r := by
    rw [Chain.requiredAuthorities_eq, feePayer_operation]
    simp [toCustomJsonOp, toCustomJsonBody, h]
  posting_signers := rfl
  named_id id h := by simp [toCustomJsonOp, toCustomJsonBody, h]
  default_id h r := by
    rw [← customJsonIdFor_eq r p]
    simp [toCustomJsonOp, toCustomJsonBody, h]

/-- What an operation of the SDK is sent as is read back as it, and its json as the payload,
whatever the strings hold, and both texts are well-formed UTF-16.  Where the options name no
signers the operation asks for the one signature that it needs on the chain.  So it is with
what each builder makes of its fields, and the native form gives back the payload too. -/
theorem custom_json_delivers (options : CustomJsonOptions) :
    (∀ p : NativePayload, Delivers (toCustomJsonOp p options) p options) ∧
      (∀ fields : BuilderFields, Delivers (fields.op options) fields.payload options) ∧
      ∀ p : NativePayload,
        (parse (stringify (toNativeOp p))).bind Json.nativeOp.decode = some p := by
  refine ⟨fun p => delivers_toCustomJsonOp p options, fun fields => ?_, Json.nativeOp.read_write⟩
  rw [fields.op_eq]
  exact delivers_toCustomJsonOp fields.payload options

example :
    (buildNftTransferOp ⟨units "alice", units "bob", .number ⟨1, by decide⟩, none⟩ {}).2.json =
      units ("\x7b\"action\":\"nft_transfer\",\"from\":\"alice\",\"to\":\"bob\"," ++
        "\"nft_id\":1,\"memo\":\"\"\x7d") := by
  decide +kernel

end HiveNative.Sdk
