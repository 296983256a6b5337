import HiveNative.Util.Types

/-!
# Protocol operations

The eleven operations of `protocol/*.hpp` with their fields and defaults, and
their `validate` functions from `protocol/validate.cpp`.

Each `validate` is the list of checks of the source in its order, with its
texts.  Beside it stands the predicate that says which operations pass, and the
lemma that the two agree.  Later files use the predicate only.

Each operation also says who pays for it and whose signature it needs (`feePayer`,
`getRequiredActiveAuthorities`); no evaluator asks, as the signatures are checked
before.  The record types of the virtual operations are read by nothing in the
portable library and are left out.
-/

namespace HiveNative

/-! ## NFT operations -/

structure NftCreateCollectionOperation where
  creator : AccountName
  symbol : Bytes
  name : Bytes
  maxSupply : UInt64 := 0
  transferable : Bool := true
deriving Repr, DecidableEq

structure NftMintOperation where
  creator : AccountName
  collection : CollectionId := 0
  «to» : AccountName
  metadataHash : Sha256T := Vector.replicate 32 0
  uri : Bytes := []
  soulbound : Bool := false
deriving Repr, DecidableEq

structure NftTransferOperation where
  «from» : AccountName
  «to» : AccountName
  nftId : NftId := 0
  memo : Bytes := []
deriving Repr, DecidableEq

structure NftApproveOperation where
  owner : AccountName
  nftId : NftId := 0
  /-- The empty name clears the approval. -/
  approved : AccountName
deriving Repr, DecidableEq

structure NftSetApprovalForAllOperation where
  owner : AccountName
  operatorAccount : AccountName
  /-- `0` stands for all collections of the owner. -/
  collection : CollectionId := 0
  approved : Bool := true
deriving Repr, DecidableEq

structure NftBurnOperation where
  owner : AccountName
  nftId : NftId := 0
deriving Repr, DecidableEq

/-! ## HTLC operations -/

structure HtlcCreateOperation where
  «from» : AccountName
  «to» : AccountName
  amount : Asset
  preimageHash : HashDigest
  preimageSize : UInt16 := 0
  expiration : TimePointSec := 0
  memo : Bytes := []
deriving Repr, DecidableEq

structure HtlcRedeemOperation where
  «to» : AccountName
  htlcId : HtlcId := 0
  preimage : Bytes
deriving Repr, DecidableEq

structure HtlcRefundOperation where
  «from» : AccountName
  htlcId : HtlcId := 0
deriving Repr, DecidableEq

/-! ## Contract operations -/

structure ContractDeployOperation where
  owner : AccountName
  code : Bytes
  codeHash : Sha256T := Vector.replicate 32 0
  fuelLimit : UInt64 := 0
  initArgs : Bytes := []
deriving Repr, DecidableEq

structure ContractCallOperation where
  caller : AccountName
  contractId : ContractId := 0
  exportName : Bytes
  args : Bytes
  fuelLimit : UInt64 := 0
deriving Repr, DecidableEq

/-! ## Fees and signatures -/

def NftCreateCollectionOperation.feePayer (op : NftCreateCollectionOperation) :
    AccountName := op.creator

def NftMintOperation.feePayer (op : NftMintOperation) : AccountName := op.creator

def NftTransferOperation.feePayer (op : NftTransferOperation) : AccountName := op.from

def NftApproveOperation.feePayer (op : NftApproveOperation) : AccountName := op.owner

def NftSetApprovalForAllOperation.feePayer (op : NftSetApprovalForAllOperation) :
    AccountName := op.owner

def NftBurnOperation.feePayer (op : NftBurnOperation) : AccountName := op.owner

def HtlcCreateOperation.feePayer (op : HtlcCreateOperation) : AccountName := op.from

def HtlcRedeemOperation.feePayer (op : HtlcRedeemOperation) : AccountName := op.to

def HtlcRefundOperation.feePayer (op : HtlcRefundOperation) : AccountName := op.from

def ContractDeployOperation.feePayer (op : ContractDeployOperation) : AccountName := op.owner

def ContractCallOperation.feePayer (op : ContractCallOperation) : AccountName := op.caller

def NftCreateCollectionOperation.getRequiredActiveAuthorities
    (op : NftCreateCollectionOperation) : List AccountName := [op.creator]

def NftMintOperation.getRequiredActiveAuthorities
    (op : NftMintOperation) : List AccountName := [op.creator]

/-- Who may move the token is resolved when the transfer is applied. -/
def NftTransferOperation.getRequiredActiveAuthorities
    (op : NftTransferOperation) : List AccountName := [op.from]

def NftApproveOperation.getRequiredActiveAuthorities
    (op : NftApproveOperation) : List AccountName := [op.owner]

def NftSetApprovalForAllOperation.getRequiredActiveAuthorities
    (op : NftSetApprovalForAllOperation) : List AccountName := [op.owner]

def NftBurnOperation.getRequiredActiveAuthorities
    (op : NftBurnOperation) : List AccountName := [op.owner]

def HtlcCreateOperation.getRequiredActiveAuthorities
    (op : HtlcCreateOperation) : List AccountName := [op.from]

def HtlcRedeemOperation.getRequiredActiveAuthorities
    (op : HtlcRedeemOperation) : List AccountName := [op.to]

def HtlcRefundOperation.getRequiredActiveAuthorities
    (op : HtlcRefundOperation) : List AccountName := [op.from]

def ContractDeployOperation.getRequiredActiveAuthorities
    (op : ContractDeployOperation) : List AccountName := [op.owner]

def ContractCallOperation.getRequiredActiveAuthorities
    (op : ContractCallOperation) : List AccountName := [op.caller]

/-! ## Validation of NFT operations -/

/-- The characters of a collection symbol. -/
def symbolChar (c : UInt8) : Bool := (65 ≤ c && c ≤ 90) || (48 ≤ c && c ≤ 57)

def NftCreateCollectionOperation.validate (op : NftCreateCollectionOperation) :
    Except Exception Unit := do
  assertAccountName op.creator
  assertLen op.symbol maxNftSymbolLen "symbol"
  assertLen op.name maxNftNameLen "name"
  throwIf op.symbol.isEmpty "symbol required"
  throwIf (¬ op.symbol.all symbolChar) "symbol must be A-Z0-9"

structure NftCreateCollectionOperation.Valid (op : NftCreateCollectionOperation) : Prop where
  creator : ValidName op.creator
  symbol_short : op.symbol.length ≤ maxNftSymbolLen
  name_short : op.name.length ≤ maxNftNameLen
  symbol_nonempty : op.symbol ≠ []
  symbol_chars : ∀ c ∈ op.symbol, symbolChar c

def NftMintOperation.validate (op : NftMintOperation) : Except Exception Unit := do
  assertAccountName op.creator
  assertAccountName op.to
  assertLen op.uri maxNftUriLen "uri"
  throwIf (op.collection = 0) "collection required"

structure NftMintOperation.Valid (op : NftMintOperation) : Prop where
  creator : ValidName op.creator
  dest : ValidName op.to
  uri_short : op.uri.length ≤ maxNftUriLen
  collection_ne : op.collection ≠ 0

def NftTransferOperation.validate (op : NftTransferOperation) : Except Exception Unit := do
  assertAccountName op.from
  assertAccountName op.to
  assertLen op.memo maxMemoLen "memo"
  throwIf (op.nftId = 0) "nft_id required"
  throwIf (op.from = op.to) "cannot transfer to self"

structure NftTransferOperation.Valid (op : NftTransferOperation) : Prop where
  source : ValidName op.from
  dest : ValidName op.to
  memo_short : op.memo.length ≤ maxMemoLen
  id_ne : op.nftId ≠ 0
  not_self : op.from ≠ op.to

def NftApproveOperation.validate (op : NftApproveOperation) : Except Exception Unit := do
  assertAccountName op.owner
  throwIf (op.nftId = 0) "nft_id required"
  if op.approved.isEmpty then pure () else assertAccountName op.approved

structure NftApproveOperation.Valid (op : NftApproveOperation) : Prop where
  owner : ValidName op.owner
  id_ne : op.nftId ≠ 0
  approved : op.approved ≠ [] → ValidName op.approved

def NftSetApprovalForAllOperation.validate (op : NftSetApprovalForAllOperation) :
    Except Exception Unit := do
  assertAccountName op.owner
  assertAccountName op.operatorAccount
  throwIf (op.owner = op.operatorAccount) "cannot approve self as operator"

structure NftSetApprovalForAllOperation.Valid (op : NftSetApprovalForAllOperation) : Prop where
  owner : ValidName op.owner
  operatorAccount : ValidName op.operatorAccount
  not_self : op.owner ≠ op.operatorAccount

def NftBurnOperation.validate (op : NftBurnOperation) : Except Exception Unit := do
  assertAccountName op.owner
  throwIf (op.nftId = 0) "nft_id required"

structure NftBurnOperation.Valid (op : NftBurnOperation) : Prop where
  owner : ValidName op.owner
  id_ne : op.nftId ≠ 0

/-! ## Validation of HTLC operations -/

/-- The digest length `validate` expects of an algorithm. -/
def expectedDigestLen (algo : HashAlgo) : Nat := if algo = .sha256 then 32 else 20

/-- The times are `uint32_t` and the durations `int64_t`, so the sums are taken
in 64 bits and cannot wrap. -/
def HtlcCreateOperation.validate (op : HtlcCreateOperation) (now : TimePointSec) :
    Except Exception Unit := do
  assertAccountName op.from
  assertAccountName op.to
  assertLen op.memo maxMemoLen "memo"
  throwIf (¬ op.amount.isPositive) "amount must be positive"
  throwIf (op.amount.symbol ≠ .hive ∧ op.amount.symbol ≠ .hbd) "only HIVE/HBD in MVP"
  throwIf (op.preimageSize = 0 ∨ op.preimageSize.toNat > maxHtlcPreimageLen)
    "invalid preimage_size"
  throwIf (op.preimageHash.bytes.length ≠ expectedDigestLen op.preimageHash.algo)
    "preimage_hash length mismatch"
  throwIf ((op.expiration.toNat : Int) < now.toNat + htlcMinDurationSec) "expiration too soon"
  throwIf ((op.expiration.toNat : Int) > now.toNat + htlcMaxDurationSec) "expiration too far"

structure HtlcCreateOperation.Valid (op : HtlcCreateOperation) (now : TimePointSec) : Prop where
  source : ValidName op.from
  dest : ValidName op.to
  memo_short : op.memo.length ≤ maxMemoLen
  amount_pos : 0 < op.amount.amount
  symbol_named : op.amount.symbol = .hive ∨ op.amount.symbol = .hbd
  size_ne : op.preimageSize ≠ 0
  size_le : op.preimageSize.toNat ≤ maxHtlcPreimageLen
  digest_len : op.preimageHash.bytes.length = expectedDigestLen op.preimageHash.algo
  not_soon : now.toNat + htlcMinDurationSec ≤ op.expiration.toNat
  not_far : (op.expiration.toNat : Int) ≤ now.toNat + htlcMaxDurationSec

def HtlcRedeemOperation.validate (op : HtlcRedeemOperation) : Except Exception Unit := do
  assertAccountName op.to
  throwIf (op.htlcId = 0) "htlc_id required"
  throwIf (op.preimage.isEmpty ∨ op.preimage.length > maxHtlcPreimageLen) "invalid preimage"

structure HtlcRedeemOperation.Valid (op : HtlcRedeemOperation) : Prop where
  dest : ValidName op.to
  id_ne : op.htlcId ≠ 0
  preimage_nonempty : op.preimage ≠ []
  preimage_short : op.preimage.length ≤ maxHtlcPreimageLen

def HtlcRefundOperation.validate (op : HtlcRefundOperation) : Except Exception Unit := do
  assertAccountName op.from
  throwIf (op.htlcId = 0) "htlc_id required"

structure HtlcRefundOperation.Valid (op : HtlcRefundOperation) : Prop where
  source : ValidName op.from
  id_ne : op.htlcId ≠ 0

/-! ## Validation of contract operations -/

def ContractDeployOperation.validate (op : ContractDeployOperation) :
    Except Exception Unit := do
  assertAccountName op.owner
  throwIf (op.fuelLimit = 0) "fuel_limit required"
  throwIf (op.code.length > maxCodeBytes) "code too large"
  throwIf op.code.isEmpty "code required in portable deploy"
  throwIf (op.initArgs.length > maxContractArgs) "init_args too large"
  throwIf (op.codeHash.any (· ≠ 0) ∧ sha256 op.code ≠ op.codeHash) "code_hash mismatch"

structure ContractDeployOperation.Valid (op : ContractDeployOperation) : Prop where
  owner : ValidName op.owner
  fuel_ne : op.fuelLimit ≠ 0
  code_short : op.code.length ≤ maxCodeBytes
  code_nonempty : op.code ≠ []
  initArgs_short : op.initArgs.length ≤ maxContractArgs
  hash_ok : op.codeHash.any (· ≠ 0) → sha256 op.code = op.codeHash

def ContractCallOperation.validate (op : ContractCallOperation) : Except Exception Unit := do
  assertAccountName op.caller
  throwIf (op.contractId = 0) "contract_id required"
  throwIf (op.fuelLimit = 0) "fuel_limit required"
  assertLen op.exportName maxContractExport "export_name"
  throwIf op.exportName.isEmpty "export_name required"
  throwIf (op.args.length > maxContractArgs) "args too large"

structure ContractCallOperation.Valid (op : ContractCallOperation) : Prop where
  caller : ValidName op.caller
  id_ne : op.contractId ≠ 0
  fuel_ne : op.fuelLimit ≠ 0
  export_short : op.exportName.length ≤ maxContractExport
  export_nonempty : op.exportName ≠ []
  args_short : op.args.length ≤ maxContractArgs

/-! ## What passes validation -/

section ValidateIff

variable {u : Unit}

theorem NftCreateCollectionOperation.validate_iff {op : NftCreateCollectionOperation} :
    op.validate = .ok u ↔ op.Valid := by
  simp only [validate, check_bind_eq_ok, assertAccountName_eq_ok, assertLen_eq_ok, throwIf_eq_ok,
    List.isEmpty_iff, not_not, List.all_eq_true]
  constructor
  · rintro ⟨h1, h2, h3, h4, h5⟩
    exact ⟨h1, h2, h3, h4, h5⟩
  · rintro ⟨h1, h2, h3, h4, h5⟩
    exact ⟨h1, h2, h3, h4, h5⟩

theorem NftMintOperation.validate_iff {op : NftMintOperation} :
    op.validate = .ok u ↔ op.Valid := by
  simp only [validate, check_bind_eq_ok, assertAccountName_eq_ok, assertLen_eq_ok, throwIf_eq_ok]
  constructor
  · rintro ⟨h1, h2, h3, h4⟩
    exact ⟨h1, h2, h3, h4⟩
  · rintro ⟨h1, h2, h3, h4⟩
    exact ⟨h1, h2, h3, h4⟩

theorem NftTransferOperation.validate_iff {op : NftTransferOperation} :
    op.validate = .ok u ↔ op.Valid := by
  simp only [validate, check_bind_eq_ok, assertAccountName_eq_ok, assertLen_eq_ok, throwIf_eq_ok]
  constructor
  · rintro ⟨h1, h2, h3, h4, h5⟩
    exact ⟨h1, h2, h3, h4, h5⟩
  · rintro ⟨h1, h2, h3, h4, h5⟩
    exact ⟨h1, h2, h3, h4, h5⟩

theorem NftApproveOperation.validate_iff {op : NftApproveOperation} :
    op.validate = .ok u ↔ op.Valid := by
  have hlast : (if op.approved.isEmpty then pure () else assertAccountName op.approved) = .ok u ↔
      (op.approved ≠ [] → ValidName op.approved) := by
    cases hb : op.approved with
    | nil => simp [pure, Except.pure]
    | cons c cs => simp
  simp only [validate, check_bind_eq_ok, assertAccountName_eq_ok, throwIf_eq_ok, hlast]
  constructor
  · rintro ⟨h1, h2, h3⟩
    exact ⟨h1, h2, h3⟩
  · rintro ⟨h1, h2, h3⟩
    exact ⟨h1, h2, h3⟩

theorem NftSetApprovalForAllOperation.validate_iff {op : NftSetApprovalForAllOperation} :
    op.validate = .ok u ↔ op.Valid := by
  simp only [validate, check_bind_eq_ok, assertAccountName_eq_ok, throwIf_eq_ok]
  constructor
  · rintro ⟨h1, h2, h3⟩
    exact ⟨h1, h2, h3⟩
  · rintro ⟨h1, h2, h3⟩
    exact ⟨h1, h2, h3⟩

theorem NftBurnOperation.validate_iff {op : NftBurnOperation} :
    op.validate = .ok u ↔ op.Valid := by
  simp only [validate, check_bind_eq_ok, assertAccountName_eq_ok, throwIf_eq_ok]
  constructor
  · rintro ⟨h1, h2⟩
    exact ⟨h1, h2⟩
  · rintro ⟨h1, h2⟩
    exact ⟨h1, h2⟩

theorem HtlcCreateOperation.validate_iff {op : HtlcCreateOperation} {now : TimePointSec} :
    op.validate now = .ok u ↔ op.Valid now := by
  simp only [validate, check_bind_eq_ok, assertAccountName_eq_ok, assertLen_eq_ok, throwIf_eq_ok,
    Asset.isPositive, decide_eq_true_eq, not_not, not_or, not_lt, ← or_iff_not_and_not]
  constructor
  · rintro ⟨h1, h2, h3, h4, h5, ⟨h6, h7⟩, h8, h9, h10⟩
    exact ⟨h1, h2, h3, h4, h5, h6, h7, h8, h9, h10⟩
  · rintro ⟨h1, h2, h3, h4, h5, h6, h7, h8, h9, h10⟩
    exact ⟨h1, h2, h3, h4, h5, ⟨h6, h7⟩, h8, h9, h10⟩

theorem HtlcRedeemOperation.validate_iff {op : HtlcRedeemOperation} :
    op.validate = .ok u ↔ op.Valid := by
  simp only [validate, check_bind_eq_ok, assertAccountName_eq_ok, throwIf_eq_ok, not_or, not_lt,
    List.isEmpty_iff]
  constructor
  · rintro ⟨h1, h2, h3, h4⟩
    exact ⟨h1, h2, h3, h4⟩
  · rintro ⟨h1, h2, h3, h4⟩
    exact ⟨h1, h2, h3, h4⟩

theorem HtlcRefundOperation.validate_iff {op : HtlcRefundOperation} :
    op.validate = .ok u ↔ op.Valid := by
  simp only [validate, check_bind_eq_ok, assertAccountName_eq_ok, throwIf_eq_ok]
  constructor
  · rintro ⟨h1, h2⟩
    exact ⟨h1, h2⟩
  · rintro ⟨h1, h2⟩
    exact ⟨h1, h2⟩

theorem ContractDeployOperation.validate_iff {op : ContractDeployOperation} :
    op.validate = .ok u ↔ op.Valid := by
  simp only [validate, check_bind_eq_ok, assertAccountName_eq_ok, throwIf_eq_ok, not_and, not_not,
    not_lt, List.isEmpty_iff]
  constructor
  · rintro ⟨h1, h2, h3, h4, h5, h6⟩
    exact ⟨h1, h2, h3, h4, h5, h6⟩
  · rintro ⟨h1, h2, h3, h4, h5, h6⟩
    exact ⟨h1, h2, h3, h4, h5, h6⟩

theorem ContractCallOperation.validate_iff {op : ContractCallOperation} :
    op.validate = .ok u ↔ op.Valid := by
  simp only [validate, check_bind_eq_ok, assertAccountName_eq_ok, assertLen_eq_ok, throwIf_eq_ok,
    not_lt, List.isEmpty_iff]
  constructor
  · rintro ⟨h1, h2, h3, h4, h5, h6⟩
    exact ⟨h1, h2, h3, h4, h5, h6⟩
  · rintro ⟨h1, h2, h3, h4, h5, h6⟩
    exact ⟨h1, h2, h3, h4, h5, h6⟩

end ValidateIff

end HiveNative
