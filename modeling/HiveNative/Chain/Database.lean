import HiveNative.Lib.OrderedMap
import HiveNative.Lib.EState
import HiveNative.Contracts.Engine
import HiveNative.Rc.Costs

/-!
# The in-memory database

The state of `chain/database.hpp` and the member functions of
`chain/database.cpp`.  A `std::map` is an `ExtTreeMap`, with the same keys in the
same order.

A member function that can fail is a program in `Eval`.  Such a program keeps
what it wrote when it fails, as a C++ function that throws does.

`adjust_balance` negates and adds signed 64-bit numbers.  Where the mathematical
result does not fit, the source has no defined behaviour, and the model stops
with `Stop.undefined`.
-/

namespace HiveNative.Chain

open Std

/-! ## Objects -/

structure AccountBalance where
  hive : ShareType := 0
  hbd : ShareType := 0
deriving Repr, DecidableEq

structure NftCollectionObject where
  id : CollectionId
  creator : AccountName
  symbol : Bytes
  name : Bytes
  maxSupply : UInt64
  supply : UInt64
  transferable : Bool
  created : TimePointSec
deriving Repr, DecidableEq

structure NftObject where
  id : NftId
  collection : CollectionId
  tokenSerial : UInt64
  owner : AccountName
  /-- The account approved for this token, empty for none. -/
  approved : AccountName := []
  metadataHash : Sha256T
  uri : Bytes
  soulbound : Bool
  minted : TimePointSec
deriving Repr, DecidableEq

structure NftOperatorObject where
  owner : AccountName
  operatorAccount : AccountName
  collection : CollectionId
  approved : Bool
deriving Repr, DecidableEq

inductive HtlcStatus where
  | «open»
  | redeemed
  | refunded
deriving Repr, DecidableEq

structure HtlcObject where
  id : HtlcId
  «from» : AccountName
  «to» : AccountName
  amount : Asset
  preimageHash : HashDigest
  preimageSize : UInt16
  expiration : TimePointSec
  created : TimePointSec
  memo : Bytes
  status : HtlcStatus
deriving Repr, DecidableEq

structure ContractObject where
  id : ContractId
  owner : AccountName
  codeHash : Sha256T
  code : Bytes
  created : TimePointSec
deriving Repr, DecidableEq

structure VirtualOp where
  name : String
  payloadJson : Bytes
deriving Repr, DecidableEq

structure NodeConfig where
  nftSkipState : Bool := false
  htlcSkipState : Bool := false
  contractsSkip : Bool := false
  isConsensusNode : Bool := true
  hardfork : UInt32 := hiveHardforkContracts
deriving Repr, DecidableEq

/-- The key of an operator entry: owner, operator, collection. -/
abbrev OperatorKey := AccountName × AccountName × CollectionId

instance : Ord (AccountName × CollectionId) := lexOrd
instance : Ord OperatorKey := lexOrd
instance : Std.TransOrd OperatorKey := Std.instTransOrdProd

structure Database where
  headTime : TimePointSec := 0
  config : NodeConfig := {}
  nextCollectionId : UInt64 := 1
  nextNftId : UInt64 := 1
  nextHtlcId : UInt64 := 1
  nextContractId : UInt64 := 1
  balances : ExtTreeMap AccountName AccountBalance := ∅
  collections : ExtTreeMap CollectionId NftCollectionObject := ∅
  collectionBySymbol : ExtTreeMap Bytes CollectionId := ∅
  nfts : ExtTreeMap NftId NftObject := ∅
  operators : ExtTreeMap OperatorKey NftOperatorObject := ∅
  htlcs : ExtTreeMap HtlcId HtlcObject := ∅
  contracts : ExtTreeMap ContractId ContractObject := ∅
  contractStorage : ExtTreeMap ContractId Contracts.Storage := ∅
  pendingVirtualOps : List VirtualOp := []
  lastRcCharged : UInt64 := 0

/-- A program over the database that may stop early. -/
abbrev Eval := EStateM Stop Database

/-- A computation that does not touch the database. -/
def Eval.lift {α : Type} (x : Except Exception α) : Eval α :=
  match x with
  | .ok a => pure a
  | .error e => throw (.threw e)

/-- `if(c) throw protocol_error(what);` -/
def Eval.throwIf (c : Prop) [Decidable c] (what : String) : Eval Unit :=
  EState.failIf c (.threw (.protocolError what))

/-- `if(it == map.end()) throw protocol_error(what);` for the result of a lookup. -/
def Eval.find {α : Type} (it : Option α) (what : String) : Eval α :=
  match it with
  | some a => pure a
  | none => throw (.threw (.protocolError what))

/-! ## Signed arithmetic -/

/-- Unary minus on `int64_t`. -/
def negate (x : ShareType) : Eval ShareType :=
  if x = Int64.minValue then throw .undefined else pure (-x)

/-- A sum of two `int64_t`. -/
def add (x y : ShareType) : Eval ShareType :=
  if x.toInt + y.toInt < -2 ^ 63 ∨ 2 ^ 63 ≤ x.toInt + y.toInt then throw .undefined
  else pure (x + y)

/-! ## Accounts -/

/-- The balance field of a symbol.  Every symbol that is not HIVE reads HBD. -/
def AccountBalance.field (b : AccountBalance) (sym : AssetSymbol) : ShareType :=
  if sym = .hive then b.hive else b.hbd

def AccountBalance.setField (b : AccountBalance) (sym : AssetSymbol) (x : ShareType) :
    AccountBalance :=
  if sym = .hive then { b with hive := x } else { b with hbd := x }

def Database.accountExists (db : Database) (name : AccountName) : Bool :=
  db.balances.contains name

/-- `get_balance` -/
def Database.getBalance (db : Database) (name : AccountName) (sym : AssetSymbol) :
    Except Exception ShareType :=
  match db.balances[name]? with
  | none => throw (.protocolError "account missing")
  | some b => pure (b.field sym)

def createAccount (name : AccountName) (hive hbd : ShareType) : Eval Unit := do
  Eval.lift (assertAccountName name)
  modify fun db => { db with balances := db.balances.insert name ⟨hive, hbd⟩ }

/-- `if(delta.amount < 0 && field < -delta.amount) throw ...`.  The negation is
only reached for a debit. -/
def requireFunds (field amount : ShareType) : Eval Unit :=
  if amount < 0 then do
    let needed ← negate amount
    Eval.throwIf (field < needed) "insufficient balance"
  else pure ()

def adjustBalance (name : AccountName) (delta : Asset) : Eval Unit := do
  let db ← get
  Eval.throwIf (¬ db.accountExists name) "account missing"
  let b := db.balances.getD name {}
  let field := b.field delta.symbol
  requireFunds field delta.amount
  let sum ← add field delta.amount
  modify fun db =>
    { db with balances := db.balances.insert name (b.setField delta.symbol sum) }

/-! ## NFT and HTLC queries -/

/-- One entry of the operator table grants. -/
def Database.grants (db : Database) (key : OperatorKey) : Bool :=
  match db.operators[key]? with
  | some o => o.approved
  | none => false

def Database.isOperatorApproved (db : Database) (owner op : AccountName)
    (collection : CollectionId) : Bool :=
  db.grants (owner, op, collection) || db.grants (owner, op, 0)

def Database.openHtlcCount (db : Database) («from» : AccountName) : UInt32 :=
  db.htlcs.foldl (fun n _ h => if h.from = «from» ∧ h.status = HtlcStatus.open then n + 1 else n) 0

/-! ## Virtual operations and guards -/

def pushVirtual (name : String) (payload : Bytes) : Eval Unit :=
  modify fun db => { db with pendingVirtualOps := db.pendingVirtualOps ++ [⟨name, payload⟩] }

/-- `clear_virtual` -/
def clearVirtual : Eval Unit := modify fun db => { db with pendingVirtualOps := [] }

def charge (cost : UInt64) : Eval Unit := modify fun db => { db with lastRcCharged := cost }

def requireHardfork (hf : UInt32) : Eval Unit := do
  let db ← get
  Eval.throwIf (db.config.hardfork < hf) "hardfork not active"

def requireFullNftState : Eval Unit := do
  let db ← get
  Eval.throwIf (db.config.isConsensusNode ∧ db.config.nftSkipState)
    "consensus node cannot skip NFT state"
  Eval.throwIf db.config.nftSkipState "NFT state skipped on this node"

def requireFullHtlcState : Eval Unit := do
  let db ← get
  Eval.throwIf (db.config.isConsensusNode ∧ db.config.htlcSkipState)
    "consensus node cannot skip HTLC state"
  Eval.throwIf db.config.htlcSkipState "HTLC state skipped on this node"

/-- The guard both contract evaluators open with. -/
def requireContracts : Eval Unit := do
  let db ← get
  Eval.throwIf (db.config.contractsSkip ∧ ¬ db.config.isConsensusNode) "contracts skipped"

end HiveNative.Chain
