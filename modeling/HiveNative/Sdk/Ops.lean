import HiveNative.Sdk.Types

/-!
# Builders of the SDK

The functions of `sdk/typescript/src/ops.ts`: payload builders, which fill in the fields
that the caller leaves out, and the `custom_json` operations around a payload.
-/

namespace HiveNative.Sdk

open JsonText

/-! ## Payload builders -/

/-- The argument of `nftCreateCollection`; a field that may be left out is an `Option`. -/
structure NftCreateCollectionFields where
  creator : AccountName
  symbol : Text
  name : Text
  maxSupply : Option SafeInteger := none
  transferable : Option Bool := none

def nftCreateCollection (fields : NftCreateCollectionFields) : NftCreateCollectionOperation where
  creator := fields.creator
  symbol := fields.symbol
  name := fields.name
  maxSupply := fields.maxSupply.getD 0
  transferable := fields.transferable.getD true

structure NftMintFields where
  creator : AccountName
  collection : CollectionId
  «to» : AccountName
  metadataHash : Sha256
  uri : Option Text := none
  soulbound : Option Bool := none

def nftMint (fields : NftMintFields) : NftMintOperation where
  creator := fields.creator
  collection := fields.collection
  «to» := fields.to
  metadataHash := fields.metadataHash
  uri := fields.uri.getD []
  soulbound := fields.soulbound.getD false

structure NftTransferFields where
  «from» : AccountName
  «to» : AccountName
  nftId : NftId
  memo : Option Text := none

def nftTransfer (fields : NftTransferFields) : NftTransferOperation where
  «from» := fields.from
  «to» := fields.to
  nftId := fields.nftId
  memo := fields.memo.getD []

structure NftApproveFields where
  owner : AccountName
  nftId : NftId
  approved : Option AccountName := none

def nftApprove (fields : NftApproveFields) : NftApproveOperation where
  owner := fields.owner
  nftId := fields.nftId
  approved := fields.approved.getD []

structure NftSetApprovalForAllFields where
  owner : AccountName
  operatorAccount : AccountName
  collection : Option CollectionId := none
  approved : Option Bool := none

def nftSetApprovalForAll (fields : NftSetApprovalForAllFields) :
    NftSetApprovalForAllOperation where
  owner := fields.owner
  operatorAccount := fields.operatorAccount
  collection := fields.collection.getD (.number 0)
  approved := fields.approved.getD true

def nftBurn (fields : NftBurnOperation) : NftBurnOperation where
  owner := fields.owner
  nftId := fields.nftId

structure HtlcCreateFields where
  «from» : AccountName
  «to» : AccountName
  amount : Asset
  preimageHash : HashDigest
  preimageSize : Option SafeInteger := none
  expiration : TimePointSec
  memo : Option Text := none

def htlcCreate (fields : HtlcCreateFields) : HtlcCreateOperation where
  «from» := fields.from
  «to» := fields.to
  amount := fields.amount
  preimageHash := fields.preimageHash
  preimageSize := fields.preimageSize.getD 0
  expiration := fields.expiration
  memo := fields.memo.getD []

def htlcRedeem (fields : HtlcRedeemOperation) : HtlcRedeemOperation where
  «to» := fields.to
  htlcId := fields.htlcId
  preimage := fields.preimage

def htlcRefund (fields : HtlcRefundOperation) : HtlcRefundOperation where
  «from» := fields.from
  htlcId := fields.htlcId

structure ContractDeployFields where
  owner : AccountName
  codeHash : Sha256
  code : Option Bytes := none
  fuelLimit : Option SafeInteger := none
  initArgs : Option Bytes := none

def contractDeploy (fields : ContractDeployFields) : ContractDeployOperation where
  owner := fields.owner
  code := fields.code.getD (.numbers [])
  codeHash := fields.codeHash
  fuelLimit := fields.fuelLimit.getD 0
  initArgs := fields.initArgs.getD (.numbers [])

structure ContractCallFields where
  caller : AccountName
  contractId : ContractId
  exportName : Text
  args : Option Bytes := none
  fuelLimit : Option SafeInteger := none

def contractCall (fields : ContractCallFields) : ContractCallOperation where
  caller := fields.caller
  contractId := fields.contractId
  exportName := fields.exportName
  args := fields.args.getD (.numbers [])
  fuelLimit := fields.fuelLimit.getD 0

/-! ## Operations around a payload -/

structure CustomJsonOptions where
  requiredAuths : Option (List AccountName) := none
  requiredPostingAuths : Option (List AccountName) := none
  id : Option Text := none

structure CustomJsonOpBody where
  requiredAuths : List AccountName
  requiredPostingAuths : List AccountName
  id : Text
  json : Text
deriving Repr, DecidableEq

def feePayerFromPayload : NativePayload → AccountName
  | .nftCreateCollection op => op.creator
  | .nftMint op => op.creator
  | .nftTransfer op => op.from
  | .nftApprove op => op.owner
  | .nftSetApprovalForAll op => op.owner
  | .nftBurn op => op.owner
  | .htlcCreate op => op.from
  | .htlcRefund op => op.from
  | .htlcRedeem op => op.to
  | .contractDeploy op => op.owner
  | .contractCall op => op.caller

def customJsonIdFor (payload : NativePayload) : Text :=
  if units "nft_" <+: payload.action then units "hive_nft"
  else if units "htlc_" <+: payload.action then units "hive_htlc"
  else units "hive_contracts"

def toCustomJsonBody (payload : NativePayload) (options : CustomJsonOptions) :
    CustomJsonOpBody where
  requiredAuths := options.requiredAuths.getD [feePayerFromPayload payload]
  requiredPostingAuths := options.requiredPostingAuths.getD []
  id := options.id.getD (customJsonIdFor payload)
  json := Json.payload.write payload

/-- A name and a body. -/
abbrev CustomJsonOpTuple := Text × CustomJsonOpBody

def toCustomJsonOp (payload : NativePayload) (options : CustomJsonOptions) : CustomJsonOpTuple :=
  (units "custom_json", toCustomJsonBody payload options)

/-- The array of the action and the other members of the payload. -/
def toNativeOp (payload : NativePayload) : Value := Json.nativeOp.encode payload

/-! ## Both in one call -/

def buildNftCreateCollectionOp (fields : NftCreateCollectionFields) (options : CustomJsonOptions) :
    CustomJsonOpTuple :=
  toCustomJsonOp (.nftCreateCollection (nftCreateCollection fields)) options

def buildNftMintOp (fields : NftMintFields) (options : CustomJsonOptions) :
    CustomJsonOpTuple :=
  toCustomJsonOp (.nftMint (nftMint fields)) options

def buildNftTransferOp (fields : NftTransferFields) (options : CustomJsonOptions) :
    CustomJsonOpTuple :=
  toCustomJsonOp (.nftTransfer (nftTransfer fields)) options

def buildNftApproveOp (fields : NftApproveFields) (options : CustomJsonOptions) :
    CustomJsonOpTuple :=
  toCustomJsonOp (.nftApprove (nftApprove fields)) options

def buildNftSetApprovalForAllOp (fields : NftSetApprovalForAllFields)
    (options : CustomJsonOptions) : CustomJsonOpTuple :=
  toCustomJsonOp (.nftSetApprovalForAll (nftSetApprovalForAll fields)) options

def buildNftBurnOp (fields : NftBurnOperation) (options : CustomJsonOptions) :
    CustomJsonOpTuple :=
  toCustomJsonOp (.nftBurn (nftBurn fields)) options

def buildHtlcCreateOp (fields : HtlcCreateFields) (options : CustomJsonOptions) :
    CustomJsonOpTuple :=
  toCustomJsonOp (.htlcCreate (htlcCreate fields)) options

def buildHtlcRedeemOp (fields : HtlcRedeemOperation) (options : CustomJsonOptions) :
    CustomJsonOpTuple :=
  toCustomJsonOp (.htlcRedeem (htlcRedeem fields)) options

def buildHtlcRefundOp (fields : HtlcRefundOperation) (options : CustomJsonOptions) :
    CustomJsonOpTuple :=
  toCustomJsonOp (.htlcRefund (htlcRefund fields)) options

def buildContractDeployOp (fields : ContractDeployFields) (options : CustomJsonOptions) :
    CustomJsonOpTuple :=
  toCustomJsonOp (.contractDeploy (contractDeploy fields)) options

def buildContractCallOp (fields : ContractCallFields) (options : CustomJsonOptions) :
    CustomJsonOpTuple :=
  toCustomJsonOp (.contractCall (contractCall fields)) options

end HiveNative.Sdk
