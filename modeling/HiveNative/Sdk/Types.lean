import HiveNative.Lib.JsonRecord

/-!
# Types of the SDK

The field types and operation payloads of `sdk/typescript/src/types.ts`, and how
`JSON.stringify` writes them.

A TypeScript string is a sequence of UTF-16 code units.  A `number` is an IEEE double, but
all fields of this type stand for integers, and here they are safe ones: the payloads with
a fraction, a larger number, `-0`, `NaN` or an infinity in them are left out.
`JSON.stringify` would write `-0` as `0` and the last two as `null`, and nothing in the SDK
checks for them.  A union of literals or of field types is an inductive type with one
constructor for each member.
-/

namespace HiveNative.Sdk

open JsonText

/-! ## Field types -/

/-- The `number`s that are integers between `Number.MIN_SAFE_INTEGER` and
`Number.MAX_SAFE_INTEGER`, with one zero. -/
abbrev SafeInteger := { n : ℤ // n.natAbs ≤ 2 ^ 53 - 1 }

instance : Zero SafeInteger := ⟨⟨0, Nat.zero_le _⟩⟩

abbrev AccountName := Text
abbrev TimePointSec := SafeInteger
abbrev ShareType := SafeInteger

/-- `number | string`. -/
inductive Id where
  | number (n : SafeInteger)
  | string (s : Text)
deriving Repr, DecidableEq

abbrev CollectionId := Id
abbrev NftId := Id
abbrev HtlcId := Id
abbrev ContractId := Id

/-- `string | Uint8Array`. -/
inductive Digest where
  | string (s : Text)
  | uint8Array (bytes : List UInt8)
deriving Repr, DecidableEq

abbrev Sha256 := Digest

/-- `string | Uint8Array | number[]`. -/
inductive Bytes where
  | string (s : Text)
  | uint8Array (bytes : List UInt8)
  | numbers (ns : List SafeInteger)
deriving Repr, DecidableEq

/-- `"HIVE" | "HBD" | 0 | 1`. -/
inductive AssetSymbol where
  | hive
  | hbd
  | zero
  | one
deriving Repr, DecidableEq

structure Asset where
  amount : ShareType
  symbol : AssetSymbol
deriving Repr, DecidableEq

/-- `"sha256" | "ripemd160" | 0 | 1`. -/
inductive HashAlgo where
  | sha256
  | ripemd160
  | zero
  | one
deriving Repr, DecidableEq

structure HashDigest where
  algo : HashAlgo
  bytes : Bytes
deriving Repr, DecidableEq

/-! ## Operations -/

structure NftCreateCollectionOperation where
  creator : AccountName
  symbol : Text
  name : Text
  maxSupply : SafeInteger
  transferable : Bool
deriving Repr, DecidableEq

structure NftMintOperation where
  creator : AccountName
  collection : CollectionId
  «to» : AccountName
  metadataHash : Sha256
  uri : Text
  soulbound : Bool
deriving Repr, DecidableEq

structure NftTransferOperation where
  «from» : AccountName
  «to» : AccountName
  nftId : NftId
  memo : Text
deriving Repr, DecidableEq

structure NftApproveOperation where
  owner : AccountName
  nftId : NftId
  approved : AccountName
deriving Repr, DecidableEq

structure NftSetApprovalForAllOperation where
  owner : AccountName
  operatorAccount : AccountName
  collection : CollectionId
  approved : Bool
deriving Repr, DecidableEq

structure NftBurnOperation where
  owner : AccountName
  nftId : NftId
deriving Repr, DecidableEq

structure HtlcCreateOperation where
  «from» : AccountName
  «to» : AccountName
  amount : Asset
  preimageHash : HashDigest
  preimageSize : SafeInteger
  expiration : TimePointSec
  memo : Text
deriving Repr, DecidableEq

structure HtlcRedeemOperation where
  «to» : AccountName
  htlcId : HtlcId
  preimage : Bytes
deriving Repr, DecidableEq

structure HtlcRefundOperation where
  «from» : AccountName
  htlcId : HtlcId
deriving Repr, DecidableEq

structure ContractDeployOperation where
  owner : AccountName
  code : Bytes
  codeHash : Sha256
  fuelLimit : SafeInteger
  initArgs : Bytes
deriving Repr, DecidableEq

structure ContractCallOperation where
  caller : AccountName
  contractId : ContractId
  exportName : Text
  args : Bytes
  fuelLimit : SafeInteger
deriving Repr, DecidableEq

/-- `NativePayload`: the constructor is the `action`. -/
inductive NativePayload where
  | nftCreateCollection (op : NftCreateCollectionOperation)
  | nftMint (op : NftMintOperation)
  | nftTransfer (op : NftTransferOperation)
  | nftApprove (op : NftApproveOperation)
  | nftSetApprovalForAll (op : NftSetApprovalForAllOperation)
  | nftBurn (op : NftBurnOperation)
  | htlcCreate (op : HtlcCreateOperation)
  | htlcRedeem (op : HtlcRedeemOperation)
  | htlcRefund (op : HtlcRefundOperation)
  | contractDeploy (op : ContractDeployOperation)
  | contractCall (op : ContractCallOperation)
deriving Repr, DecidableEq

/-- The `action` of a payload. -/
def NativePayload.action : NativePayload → Text
  | nftCreateCollection _ => units "nft_create_collection"
  | nftMint _ => units "nft_mint"
  | nftTransfer _ => units "nft_transfer"
  | nftApprove _ => units "nft_approve"
  | nftSetApprovalForAll _ => units "nft_set_approval_for_all"
  | nftBurn _ => units "nft_burn"
  | htlcCreate _ => units "htlc_create"
  | htlcRedeem _ => units "htlc_redeem"
  | htlcRefund _ => units "htlc_refund"
  | contractDeploy _ => units "contract_deploy"
  | contractCall _ => units "contract_call"

/-! ## Field types in JSON -/

namespace Json

def safeInteger : Codec SafeInteger := Codec.number.guarded fun n => n.natAbs ≤ 2 ^ 53 - 1

def id : Codec Id where
  encode
    | .number n => safeInteger.encode n
    | .string s => Codec.string.encode s
  decode
    | .atom (.string s) => some (.string s)
    | v => (safeInteger.decode v).map .number
  decode_encode a := by
    cases a with
    | string s => rfl
    | number n => exact congrArg (Option.map Id.number) (safeInteger.decode_encode n)

def byte : Codec UInt8 where
  encode b := .atom (.number b.toNat)
  decode v := (Codec.number.decode v).bind fun n =>
    if n = n.toNat % 256 then some (UInt8.ofNat n.toNat) else none
  decode_encode b := by
    have hb : (b.toNat : ℤ) = ((b.toNat : ℤ).toNat % 256 : ℕ) := by
      rw [Int.toNat_natCast, Nat.mod_eq_of_lt b.toNat_lt]
    refine (if_pos hb).trans ?_
    rw [Int.toNat_natCast, UInt8.ofNat_toNat]

/-- The members of a typed array from an index on, each under its index. -/
def byteMembers (index : ℕ) : List UInt8 → List Member
  | [] => []
  | b :: bs => (decimal index, byte.encode b) :: byteMembers (index + 1) bs

def readBytes (index : ℕ) : List Member → Option (List UInt8)
  | [] => some []
  | (name, v) :: ms =>
      if name = decimal index then
        (byte.decode v).bind fun b => (readBytes (index + 1) ms).map fun bs => b :: bs
      else none

theorem readBytes_byteMembers (index : ℕ) (bs : List UInt8) :
    readBytes index (byteMembers index bs) = some bs := by
  induction bs generalizing index with
  | nil => rfl
  | cons b bs ih =>
      rw [byteMembers, readBytes, if_pos rfl, byte.decode_encode, Option.bind_some, ih,
        Option.map_some]

/-- A `Uint8Array`, which is written as an object from indices to numbers. -/
def uint8Array : Codec (List UInt8) where
  encode bs := .object (byteMembers 0 bs)
  decode
    | .object ms => readBytes 0 ms
    | _ => none
  decode_encode bs := readBytes_byteMembers 0 bs

def digest : Codec Digest where
  encode
    | .string s => Codec.string.encode s
    | .uint8Array bs => uint8Array.encode bs
  decode
    | .atom (.string s) => some (.string s)
    | v => (uint8Array.decode v).map .uint8Array
  decode_encode a := by
    cases a with
    | string s => rfl
    | uint8Array bs => exact congrArg (Option.map Digest.uint8Array) (uint8Array.decode_encode bs)

def bytes : Codec Bytes where
  encode
    | .string s => Codec.string.encode s
    | .uint8Array bs => uint8Array.encode bs
    | .numbers ns => safeInteger.array.encode ns
  decode
    | .atom (.string s) => some (.string s)
    | .object ms => (uint8Array.decode (.object ms)).map .uint8Array
    | v => (safeInteger.array.decode v).map .numbers
  decode_encode a := by
    cases a with
    | string s => rfl
    | uint8Array bs => exact congrArg (Option.map Bytes.uint8Array) (uint8Array.decode_encode bs)
    | numbers ns => exact congrArg (Option.map Bytes.numbers) (safeInteger.array.decode_encode ns)

/-- One of the values of a union of literals. -/
def literal {α : Type} (values : List (α × Atom)) (encode : α → Atom)
    (h : ∀ a, (values.find? fun p => p.2 = encode a).map Prod.fst = some a) : Codec α where
  encode a := .atom (encode a)
  decode
    | .atom x => (values.find? fun p => p.2 = x).map Prod.fst
    | _ => none
  decode_encode a := h a

def assetSymbolAtom : AssetSymbol → Atom
  | .hive => .string (units "HIVE")
  | .hbd => .string (units "HBD")
  | .zero => .number 0
  | .one => .number 1

def assetSymbol : Codec AssetSymbol :=
  literal ([.hive, .hbd, .zero, .one].map fun a => (a, assetSymbolAtom a)) assetSymbolAtom
    fun a => by cases a <;> decide

def hashAlgoAtom : HashAlgo → Atom
  | .sha256 => .string (units "sha256")
  | .ripemd160 => .string (units "ripemd160")
  | .zero => .number 0
  | .one => .number 1

def hashAlgo : Codec HashAlgo :=
  literal ([.sha256, .ripemd160, .zero, .one].map fun a => (a, hashAlgoAtom a)) hashAlgoAtom
    fun a => by cases a <;> decide

/-! ## Records -/

open Record (field empty)

def asset : Record Asset :=
  ((field (units "amount") safeInteger <| field (units "symbol") assetSymbol <| empty)).map
    (fun p => ⟨p.1, p.2.1⟩) (fun a => (a.amount, a.symbol, ())) fun _ => rfl

def hashDigest : Record HashDigest :=
  ((field (units "algo") hashAlgo <| field (units "bytes") bytes <| empty)).map
    (fun p => ⟨p.1, p.2.1⟩) (fun d => (d.algo, d.bytes, ())) fun _ => rfl

def nftCreateCollection : Record NftCreateCollectionOperation :=
  (field (units "creator") .string <| field (units "symbol") .string <|
    field (units "name") .string <| field (units "max_supply") safeInteger <|
    field (units "transferable") .bool <| empty).map
    (fun (creator, symbol, name, maxSupply, transferable, _) =>
      { creator, symbol, name, maxSupply, transferable })
    (fun op => (op.creator, op.symbol, op.name, op.maxSupply, op.transferable, ()))
    fun _ => rfl

def nftMint : Record NftMintOperation :=
  (field (units "creator") .string <| field (units "collection") id <|
    field (units "to") .string <| field (units "metadata_hash") digest <|
    field (units "uri") .string <| field (units "soulbound") .bool <| empty).map
    (fun (creator, collection, «to», metadataHash, uri, soulbound, _) =>
      { creator, collection, «to», metadataHash, uri, soulbound })
    (fun op => (op.creator, op.collection, op.to, op.metadataHash, op.uri, op.soulbound, ()))
    fun _ => rfl

def nftTransfer : Record NftTransferOperation :=
  (field (units "from") .string <| field (units "to") .string <| field (units "nft_id") id <|
    field (units "memo") .string <| empty).map
    (fun («from», «to», nftId, memo, _) => { «from», «to», nftId, memo })
    (fun op => (op.from, op.to, op.nftId, op.memo, ()))
    fun _ => rfl

def nftApprove : Record NftApproveOperation :=
  (field (units "owner") .string <| field (units "nft_id") id <|
    field (units "approved") .string <| empty).map
    (fun (owner, nftId, approved, _) => { owner, nftId, approved })
    (fun op => (op.owner, op.nftId, op.approved, ()))
    fun _ => rfl

def nftSetApprovalForAll : Record NftSetApprovalForAllOperation :=
  (field (units "owner") .string <| field (units "operator_account") .string <|
    field (units "collection") id <| field (units "approved") .bool <| empty).map
    (fun (owner, operatorAccount, collection, approved, _) =>
      { owner, operatorAccount, collection, approved })
    (fun op => (op.owner, op.operatorAccount, op.collection, op.approved, ()))
    fun _ => rfl

def nftBurn : Record NftBurnOperation :=
  (field (units "owner") .string <| field (units "nft_id") id <| empty).map
    (fun (owner, nftId, _) => { owner, nftId })
    (fun op => (op.owner, op.nftId, ()))
    fun _ => rfl

def htlcCreate : Record HtlcCreateOperation :=
  (field (units "from") .string <| field (units "to") .string <|
    field (units "amount") asset.codec <| field (units "preimage_hash") hashDigest.codec <|
    field (units "preimage_size") safeInteger <| field (units "expiration") safeInteger <|
    field (units "memo") .string <| empty).map
    (fun («from», «to», amount, preimageHash, preimageSize, expiration, memo, _) =>
      { «from», «to», amount, preimageHash, preimageSize, expiration, memo })
    (fun op => (op.from, op.to, op.amount, op.preimageHash, op.preimageSize, op.expiration,
      op.memo, ()))
    fun _ => rfl

def htlcRedeem : Record HtlcRedeemOperation :=
  (field (units "to") .string <| field (units "htlc_id") id <|
    field (units "preimage") bytes <| empty).map
    (fun («to», htlcId, preimage, _) => { «to», htlcId, preimage })
    (fun op => (op.to, op.htlcId, op.preimage, ()))
    fun _ => rfl

def htlcRefund : Record HtlcRefundOperation :=
  (field (units "from") .string <| field (units "htlc_id") id <| empty).map
    (fun («from», htlcId, _) => { «from», htlcId })
    (fun op => (op.from, op.htlcId, ()))
    fun _ => rfl

def contractDeploy : Record ContractDeployOperation :=
  (field (units "owner") .string <| field (units "code") bytes <|
    field (units "code_hash") digest <| field (units "fuel_limit") safeInteger <|
    field (units "init_args") bytes <| empty).map
    (fun (owner, code, codeHash, fuelLimit, initArgs, _) =>
      { owner, code, codeHash, fuelLimit, initArgs })
    (fun op => (op.owner, op.code, op.codeHash, op.fuelLimit, op.initArgs, ()))
    fun _ => rfl

def contractCall : Record ContractCallOperation :=
  (field (units "caller") .string <| field (units "contract_id") id <|
    field (units "export_name") .string <| field (units "args") bytes <|
    field (units "fuel_limit") safeInteger <| empty).map
    (fun (caller, contractId, exportName, args, fuelLimit, _) =>
      { caller, contractId, exportName, args, fuelLimit })
    (fun op => (op.caller, op.contractId, op.exportName, op.args, op.fuelLimit, ()))
    fun _ => rfl

/-! ## Payloads -/

/-- The members after the `action`. -/
def fields : NativePayload → List Member
  | .nftCreateCollection op => nftCreateCollection.write op
  | .nftMint op => nftMint.write op
  | .nftTransfer op => nftTransfer.write op
  | .nftApprove op => nftApprove.write op
  | .nftSetApprovalForAll op => nftSetApprovalForAll.write op
  | .nftBurn op => nftBurn.write op
  | .htlcCreate op => htlcCreate.write op
  | .htlcRedeem op => htlcRedeem.write op
  | .htlcRefund op => htlcRefund.write op
  | .contractDeploy op => contractDeploy.write op
  | .contractCall op => contractCall.write op

/-- How the fields are read for each action. -/
def readers : List (Text × (List Member → Option NativePayload)) :=
  [(units "nft_create_collection",
      fun ms => (nftCreateCollection.read ms).map .nftCreateCollection),
    (units "nft_mint", fun ms => (nftMint.read ms).map .nftMint),
    (units "nft_transfer", fun ms => (nftTransfer.read ms).map .nftTransfer),
    (units "nft_approve", fun ms => (nftApprove.read ms).map .nftApprove),
    (units "nft_set_approval_for_all",
      fun ms => (nftSetApprovalForAll.read ms).map .nftSetApprovalForAll),
    (units "nft_burn", fun ms => (nftBurn.read ms).map .nftBurn),
    (units "htlc_create", fun ms => (htlcCreate.read ms).map .htlcCreate),
    (units "htlc_redeem", fun ms => (htlcRedeem.read ms).map .htlcRedeem),
    (units "htlc_refund", fun ms => (htlcRefund.read ms).map .htlcRefund),
    (units "contract_deploy", fun ms => (contractDeploy.read ms).map .contractDeploy),
    (units "contract_call", fun ms => (contractCall.read ms).map .contractCall)]

/-- The operation of an action, from members among which its fields are. -/
def readFields (action : Text) (ms : List Member) : Option NativePayload :=
  (readers.find? fun r => r.1 = action).bind fun r => r.2 ms

theorem readFields_write {α : Type} {r : Record α} {make : α → NativePayload} {action : Text}
    (h : readers.find? (fun r => r.1 = action) = some (action, fun ms => (r.read ms).map make))
    (op : α) (before : List Member) :
    readFields action (before ++ r.write op) = some (make op) := by
  rw [readFields, h, Option.bind_some]
  simp only [r.read_write, Option.map_some]

/-- The fields of a payload are read by the reader of its action. -/
theorem readFields_fields (p : NativePayload) (before : List Member) :
    readFields p.action (before ++ fields p) = some p := by
  cases p with
  | nftCreateCollection op => exact readFields_write rfl op before
  | nftMint op => exact readFields_write rfl op before
  | nftTransfer op => exact readFields_write rfl op before
  | nftApprove op => exact readFields_write rfl op before
  | nftSetApprovalForAll op => exact readFields_write rfl op before
  | nftBurn op => exact readFields_write rfl op before
  | htlcCreate op => exact readFields_write rfl op before
  | htlcRedeem op => exact readFields_write rfl op before
  | htlcRefund op => exact readFields_write rfl op before
  | contractDeploy op => exact readFields_write rfl op before
  | contractCall op => exact readFields_write rfl op before

/-- No field is named as the action is. -/
theorem action_not_mem (p : NativePayload) : units "action" ∉ (fields p).map Prod.fst := by
  have hfresh : ∀ {α : Type} (r : Record α) (op : α), units "action" ∉ r.names →
      units "action" ∉ (r.write op).map Prod.fst := by
    intro α r op h
    rwa [r.names_write]
  cases p with
  | nftCreateCollection op => exact hfresh nftCreateCollection op (by decide)
  | nftMint op => exact hfresh nftMint op (by decide)
  | nftTransfer op => exact hfresh nftTransfer op (by decide)
  | nftApprove op => exact hfresh nftApprove op (by decide)
  | nftSetApprovalForAll op => exact hfresh nftSetApprovalForAll op (by decide)
  | nftBurn op => exact hfresh nftBurn op (by decide)
  | htlcCreate op => exact hfresh htlcCreate op (by decide)
  | htlcRedeem op => exact hfresh htlcRedeem op (by decide)
  | htlcRefund op => exact hfresh htlcRefund op (by decide)
  | contractDeploy op => exact hfresh contractDeploy op (by decide)
  | contractCall op => exact hfresh contractCall op (by decide)

/-- `{ action, ...fields }`. -/
def payload : Codec NativePayload where
  encode p := .object ((units "action", Codec.string.encode p.action) :: fields p)
  decode
    | .object ms =>
        (lookup (units "action") ms).bind fun v =>
          (Codec.string.decode v).bind fun action => readFields action ms
    | _ => none
  decode_encode p := by
    have hlookup : lookup (units "action")
        ((units "action", Codec.string.encode p.action) :: fields p) =
        some (Codec.string.encode p.action) := by
      rw [lookup, lookup_absent (action_not_mem p), if_pos rfl]
      rfl
    simp only [hlookup, Option.bind_some, Codec.string.decode_encode]
    exact readFields_fields p [_]

/-- `[action, fields]`. -/
def nativeOp : Codec NativePayload where
  encode p := .array [Codec.string.encode p.action, .object (fields p)]
  decode
    | .array [v, .object ms] => (Codec.string.decode v).bind fun action => readFields action ms
    | _ => none
  decode_encode p := readFields_fields p []

end Json

end HiveNative.Sdk
