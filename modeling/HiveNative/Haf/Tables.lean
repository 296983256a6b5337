import HiveNative.Chain.Database

/-!
# The HAF tables

The tables and views of `haf/sql/*.sql` that mirror the current state, and the rows that
stand for a database in them.  The tables of past operations are left out.

A `BIGINT`, `INT` or `SMALLINT` column holds an integer, and its range is one of the
constraints.  A `VARCHAR(n)` or `TEXT` column holds bytes, each of which counts as one
character.  A nullable column is `NULL` where the object has nothing to say.

The constraints of a row (`NftRow.Ok`) are the types and the `CHECK`s of its columns.  Those
of a table are in `Conforms`: its primary key, its `UNIQUE` columns and its references.
-/

namespace HiveNative.Haf

open Chain

/-! ## Columns -/

/-- The range of a `BIGINT`. -/
def Bigint (x : ℤ) : Prop := -2 ^ 63 ≤ x ∧ x < 2 ^ 63

/-- The range of an `INT`. -/
def Integer (x : ℤ) : Prop := -2 ^ 31 ≤ x ∧ x < 2 ^ 31

/-- A `VARCHAR(n)` -/
def Varchar (n : ℕ) (s : Bytes) : Prop := s.length ≤ n

/-- The value of an optional text column. -/
def nullable (s : Bytes) : Option Bytes := if s = [] then none else some s

/-- No two rows have one key. -/
def Distinct {R K : Type} (key : R → K) (rows : List R) : Prop :=
  rows.Pairwise fun r r' => key r ≠ key r'

/-! ## NFTs -/

/-- `hive.nft_collections` -/
structure NftCollectionRow where
  id : ℤ
  creator : Bytes
  symbol : Bytes
  name : Bytes
  /-- `0` for no limit. -/
  maxSupply : ℤ
  supply : ℤ
  transferable : Bool
  createdAt : TimePointSec
deriving DecidableEq

structure NftCollectionRow.Ok (r : NftCollectionRow) : Prop where
  id : Bigint r.id
  creator : Varchar 16 r.creator
  symbol : Varchar 16 r.symbol
  name : Varchar 64 r.name
  maxSupply : Bigint r.maxSupply
  supply : Bigint r.supply
  supply_nonneg : 0 ≤ r.supply
  supply_le_max : r.maxSupply = 0 ∨ r.supply ≤ r.maxSupply

def nftCollectionRow (c : NftCollectionObject) : NftCollectionRow where
  id := c.id.toNat
  creator := c.creator
  symbol := c.symbol
  name := c.name
  maxSupply := c.maxSupply.toNat
  supply := c.supply.toNat
  transferable := c.transferable
  createdAt := c.created

/-- `hive.nfts` -/
structure NftRow where
  id : ℤ
  collectionId : ℤ
  tokenSerial : ℤ
  owner : Bytes
  approved : Option Bytes
  metadataHash : Bytes
  uri : Option Bytes
  soulbound : Bool
  mintedAt : TimePointSec
deriving DecidableEq

structure NftRow.Ok (r : NftRow) : Prop where
  id : Bigint r.id
  collectionId : Bigint r.collectionId
  tokenSerial : Bigint r.tokenSerial
  owner : Varchar 16 r.owner
  approved : ∀ name ∈ r.approved, Varchar 16 name
  metadataHash : r.metadataHash.length = 32
  uri : ∀ uri ∈ r.uri, uri.length ≤ 256

def nftRow (n : NftObject) : NftRow where
  id := n.id.toNat
  collectionId := n.collection.toNat
  tokenSerial := n.tokenSerial.toNat
  owner := n.owner
  approved := nullable n.approved
  metadataHash := n.metadataHash.toList
  uri := nullable n.uri
  soulbound := n.soulbound
  mintedAt := n.minted

/-- `hive.nfts_light`, without the uri. -/
structure NftLightRow where
  id : ℤ
  collectionId : ℤ
  tokenSerial : ℤ
  owner : Bytes
  approved : Option Bytes
  metadataHash : Bytes
  soulbound : Bool
  mintedAt : TimePointSec
deriving DecidableEq

def NftRow.light (r : NftRow) : NftLightRow where
  id := r.id
  collectionId := r.collectionId
  tokenSerial := r.tokenSerial
  owner := r.owner
  approved := r.approved
  metadataHash := r.metadataHash
  soulbound := r.soulbound
  mintedAt := r.mintedAt

/-- The full row that says what the light one does and has no uri. -/
def NftLightRow.withoutUri (r : NftLightRow) : NftRow where
  id := r.id
  collectionId := r.collectionId
  tokenSerial := r.tokenSerial
  owner := r.owner
  approved := r.approved
  metadataHash := r.metadataHash
  uri := none
  soulbound := r.soulbound
  mintedAt := r.mintedAt

/-- `hive.nft_operators` -/
structure NftOperatorRow where
  owner : Bytes
  operatorAccount : Bytes
  collectionId : ℤ
  approved : Bool
deriving DecidableEq

def NftOperatorRow.key (r : NftOperatorRow) : Bytes × Bytes × ℤ :=
  (r.owner, r.operatorAccount, r.collectionId)

structure NftOperatorRow.Ok (r : NftOperatorRow) : Prop where
  owner : Varchar 16 r.owner
  operatorAccount : Varchar 16 r.operatorAccount
  collectionId : Bigint r.collectionId

def nftOperatorRow (o : NftOperatorObject) : NftOperatorRow where
  owner := o.owner
  operatorAccount := o.operatorAccount
  collectionId := o.collection.toNat
  approved := o.approved

/-! ## HTLCs -/

/-- The byte of an `asset_symbol`: 0 for HIVE, 1 for HBD. -/
def symbolCode : AssetSymbol → ℤ
  | .hive => 0
  | .hbd => 1
  | .unknown raw _ => raw.toNat

/-- The byte of a `hash_algo`: 0 for sha256, 1 for ripemd160. -/
def algoCode : HashAlgo → ℤ
  | .sha256 => 0
  | .ripemd160 => 1
  | .unknown raw _ => raw.toNat

/-- 0 for an open lock, 1 for a redeemed and 2 for a refunded one. -/
def statusCode : HtlcStatus → ℤ
  | .open => 0
  | .redeemed => 1
  | .refunded => 2

/-- `hive.htlcs` -/
structure HtlcRow where
  id : ℤ
  fromAccount : Bytes
  toAccount : Bytes
  amount : ℤ
  symbol : ℤ
  preimageHash : Bytes
  hashAlgo : ℤ
  preimageSize : ℤ
  expiration : TimePointSec
  createdAt : TimePointSec
  memo : Option Bytes
  status : ℤ
deriving DecidableEq

structure HtlcRow.Ok (r : HtlcRow) : Prop where
  id : Bigint r.id
  fromAccount : Varchar 16 r.fromAccount
  toAccount : Varchar 16 r.toAccount
  amount : Bigint r.amount
  amount_pos : 0 < r.amount
  symbol : r.symbol = 0 ∨ r.symbol = 1
  hashAlgo : r.hashAlgo = 0 ∨ r.hashAlgo = 1
  preimageSize : Integer r.preimageSize
  preimageSize_pos : 0 < r.preimageSize
  preimageSize_le : r.preimageSize ≤ 1024
  status : r.status = 0 ∨ r.status = 1 ∨ r.status = 2
  hash_len : (r.hashAlgo = 0 ∧ r.preimageHash.length = 32) ∨
    (r.hashAlgo = 1 ∧ r.preimageHash.length = 20)
  memo_len : ∀ memo ∈ r.memo, memo.length ≤ 2048
  expiration_after_created : r.createdAt ≤ r.expiration

def htlcRow (h : HtlcObject) : HtlcRow where
  id := h.id.toNat
  fromAccount := h.from
  toAccount := h.to
  amount := h.amount.amount.toInt
  symbol := symbolCode h.amount.symbol
  preimageHash := h.preimageHash.bytes
  hashAlgo := algoCode h.preimageHash.algo
  preimageSize := h.preimageSize.toNat
  expiration := h.expiration
  createdAt := h.created
  memo := nullable h.memo
  status := statusCode h.status

/-- `hive.htlcs_light`, without the memo. -/
structure HtlcLightRow where
  id : ℤ
  fromAccount : Bytes
  toAccount : Bytes
  amount : ℤ
  symbol : ℤ
  preimageHash : Bytes
  hashAlgo : ℤ
  preimageSize : ℤ
  expiration : TimePointSec
  createdAt : TimePointSec
  status : ℤ
deriving DecidableEq

def HtlcRow.light (r : HtlcRow) : HtlcLightRow where
  id := r.id
  fromAccount := r.fromAccount
  toAccount := r.toAccount
  amount := r.amount
  symbol := r.symbol
  preimageHash := r.preimageHash
  hashAlgo := r.hashAlgo
  preimageSize := r.preimageSize
  expiration := r.expiration
  createdAt := r.createdAt
  status := r.status

/-- The full row that says what the light one does and has no memo. -/
def HtlcLightRow.withoutMemo (r : HtlcLightRow) : HtlcRow where
  id := r.id
  fromAccount := r.fromAccount
  toAccount := r.toAccount
  amount := r.amount
  symbol := r.symbol
  preimageHash := r.preimageHash
  hashAlgo := r.hashAlgo
  preimageSize := r.preimageSize
  expiration := r.expiration
  createdAt := r.createdAt
  memo := none
  status := r.status

/-! ## Contracts -/

/-- `hive.contracts`, with the hash of the code only. -/
structure ContractRow where
  id : ℤ
  owner : Bytes
  codeHash : Bytes
  createdAt : TimePointSec
  codeAvailable : Bool
deriving DecidableEq

structure ContractRow.Ok (r : ContractRow) : Prop where
  id : Bigint r.id
  owner : Varchar 16 r.owner
  codeHash : r.codeHash.length = 32

/-- `hive.contracts_light`, which selects every column. -/
def ContractRow.light (r : ContractRow) : ContractRow where
  id := r.id
  owner := r.owner
  codeHash := r.codeHash
  createdAt := r.createdAt
  codeAvailable := r.codeAvailable

/-- The host says whether it keeps the code elsewhere. -/
def contractRow (codeAvailable : Bool) (c : ContractObject) : ContractRow where
  id := c.id.toNat
  owner := c.owner
  codeHash := c.codeHash.toList
  createdAt := c.created
  codeAvailable := codeAvailable

/-! ## All tables -/

/-- The tables of the current state, each with its rows in some order. -/
structure Tables where
  nftCollections : List NftCollectionRow
  nfts : List NftRow
  nftOperators : List NftOperatorRow
  htlcs : List HtlcRow
  contracts : List ContractRow

/-- The tables hold the rows of the objects of a database. -/
structure Mirrors (codeAvailable : Bool) (db : Database) (t : Tables) : Prop where
  nftCollections : t.nftCollections.Perm (db.collections.values.map nftCollectionRow)
  nfts : t.nfts.Perm (db.nfts.values.map nftRow)
  nftOperators : t.nftOperators.Perm (db.operators.values.map nftOperatorRow)
  htlcs : t.htlcs.Perm (db.htlcs.values.map htlcRow)
  contracts : t.contracts.Perm (db.contracts.values.map (contractRow codeAvailable))

/-- The tables with the newest row first. -/
def newestFirst (codeAvailable : Bool) (db : Database) : Tables where
  nftCollections := (db.collections.values.map nftCollectionRow).reverse
  nfts := (db.nfts.values.map nftRow).reverse
  nftOperators := (db.operators.values.map nftOperatorRow).reverse
  htlcs := (db.htlcs.values.map htlcRow).reverse
  contracts := (db.contracts.values.map (contractRow codeAvailable)).reverse

theorem mirrors_newestFirst (codeAvailable : Bool) (db : Database) :
    Mirrors codeAvailable db (newestFirst codeAvailable db) :=
  ⟨List.reverse_perm _, List.reverse_perm _, List.reverse_perm _, List.reverse_perm _,
    List.reverse_perm _⟩

/-- The tables satisfy the constraints that are declared for them. -/
structure Conforms (t : Tables) : Prop where
  nftCollections : ∀ r ∈ t.nftCollections, r.Ok
  nftCollections_pkey : Distinct NftCollectionRow.id t.nftCollections
  nftCollections_symbol_unique : Distinct NftCollectionRow.symbol t.nftCollections
  nfts : ∀ r ∈ t.nfts, r.Ok
  nfts_pkey : Distinct NftRow.id t.nfts
  /-- `REFERENCES hive.nft_collections (id)` -/
  nfts_collection : ∀ r ∈ t.nfts, ∃ c ∈ t.nftCollections, c.id = r.collectionId
  nfts_collection_serial_unique : Distinct (fun r => (r.collectionId, r.tokenSerial)) t.nfts
  nftOperators : ∀ r ∈ t.nftOperators, r.Ok
  nftOperators_pkey : Distinct NftOperatorRow.key t.nftOperators
  htlcs : ∀ r ∈ t.htlcs, r.Ok
  htlcs_pkey : Distinct HtlcRow.id t.htlcs
  contracts : ∀ r ∈ t.contracts, r.Ok
  contracts_pkey : Distinct ContractRow.id t.contracts

end HiveNative.Haf
