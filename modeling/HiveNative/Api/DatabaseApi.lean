import HiveNative.Chain.Database

/-!
# Database queries

The read-only queries of `api/database_api_stubs.cpp`.  A node that skips a part of
the state answers the queries about that part as if it were empty.

The list methods run one loop, `scan`, over a table in the order of its keys.  They
differ in the objects they pass over and in what the light mode omits.
-/

namespace HiveNative.Api

open Std (ExtTreeMap)
open Chain

/-! ## Light mode -/

def maybeLightNft (n : NftObject) (light : Bool) : NftObject :=
  if light then { n with uri := [] } else n

def maybeLightHtlc (h : HtlcObject) (light : Bool) : HtlcObject :=
  if light then { h with memo := [] } else h

def maybeLightContract (c : ContractObject) (light : Bool) : ContractObject :=
  if light then { c with code := [] } else c

/-! ## Single objects -/

def getNft (db : Database) (id : NftId) (light : Bool := false) : Option NftObject :=
  if db.config.nftSkipState then none else db.nfts[id]?.map (maybeLightNft · light)

def getNftCollection (db : Database) (id : CollectionId) : Option NftCollectionObject :=
  if db.config.nftSkipState then none else db.collections[id]?

def getNftCollectionBySymbol (db : Database) (symbol : Bytes) : Option NftCollectionObject :=
  if db.config.nftSkipState then none
  else
    match db.collectionBySymbol[symbol]? with
    | none => none
    | some id => db.collections[id]?

def getHtlc (db : Database) (id : HtlcId) (light : Bool := false) : Option HtlcObject :=
  if db.config.htlcSkipState then none else db.htlcs[id]?.map (maybeLightHtlc · light)

/-- A single contract is light unless the caller asks for its code. -/
def getContract (db : Database) (id : ContractId) (light : Bool := true) :
    Option ContractObject :=
  if db.config.contractsSkip then none else db.contracts[id]?.map (maybeLightContract · light)

def getStorageKey (db : Database) (id : ContractId) (key : Bytes) : Option Bytes :=
  if db.config.contractsSkip then none
  else
    match db.contractStorage[id]? with
    | none => none
    | some storage => storage[key]?

/-! ## Lists -/

/-- The arguments of a list method.  The source documents `start` as an exclusive
lower bound on the primary id. -/
structure ListArgs where
  start : UInt64 := 0
  limit : UInt32 := 100
  light : Bool := false
deriving Repr, DecidableEq

def clampLimit (limit : UInt32) : UInt32 :=
  if limit = 0 then 1 else if limit > 100 then 100 else limit

/-- The loop of a list method, with the page collected so far.  An object is passed
over by `continue`, and a full page ends the loop by `break`. -/
def scan {V : Type} (skip : V → Bool) (lighten : V → V) (lim : UInt32) : List V → List V → List V
  | out, [] => out
  | out, x :: rest =>
      if skip x then scan skip lighten lim out rest
      else
        let out := out ++ [lighten x]
        if out.length ≥ lim.toNat then out else scan skip lighten lim out rest

def listNftsByOwner (db : Database) (owner : AccountName) (args : ListArgs) : List NftObject :=
  if db.config.nftSkipState then []
  else
    scan (fun n => n.owner ≠ owner ∨ n.id < args.start) (maybeLightNft · args.light)
      (clampLimit args.limit) [] db.nfts.values

def listNftsByCollection (db : Database) (c : CollectionId) (args : ListArgs) : List NftObject :=
  if db.config.nftSkipState then []
  else
    scan (fun n => n.collection ≠ c ∨ n.id < args.start) (maybeLightNft · args.light)
      (clampLimit args.limit) [] db.nfts.values

def listHtlcsByFrom (db : Database) («from» : AccountName) (args : ListArgs) : List HtlcObject :=
  if db.config.htlcSkipState then []
  else
    scan (fun h => h.from ≠ «from» ∨ h.id < args.start) (maybeLightHtlc · args.light)
      (clampLimit args.limit) [] db.htlcs.values

def listHtlcsByTo (db : Database) («to» : AccountName) (args : ListArgs) : List HtlcObject :=
  if db.config.htlcSkipState then []
  else
    scan (fun h => h.to ≠ «to» ∨ h.id < args.start) (maybeLightHtlc · args.light)
      (clampLimit args.limit) [] db.htlcs.values

/-- Only open locks are listed here. -/
def listHtlcsByExpiration (db : Database) (minExpiration : TimePointSec) (args : ListArgs) :
    List HtlcObject :=
  if db.config.htlcSkipState then []
  else
    scan (fun h => h.expiration < minExpiration ∨ h.id < args.start ∨ h.status ≠ HtlcStatus.open)
      (maybeLightHtlc · args.light) (clampLimit args.limit) [] db.htlcs.values

/-- A listed contract is always light. -/
def listContractsByOwner (db : Database) (owner : AccountName) (args : ListArgs) :
    List ContractObject :=
  if db.config.contractsSkip then []
  else
    scan (fun c => c.owner ≠ owner ∨ c.id < args.start) (maybeLightContract · true)
      (clampLimit args.limit) [] db.contracts.values

end HiveNative.Api
