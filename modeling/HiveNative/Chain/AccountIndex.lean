import HiveNative.Lib.EState
import HiveNative.Lib.Machine
import HiveNative.Perf.AccountCache

/-!
# The account index

`account_index` of `chain/account_index.hpp`: lookups of accounts by name, with a
cache in front of the database.  A lookup that misses fills the cache, `create`
seeds it and `adjust_balance` drops the entry it changes.  The hash function of
the cache is a parameter, as it is for the table under it.

`find` and what is built on it are `const` in the source with a `mutable` cache;
here they are programs over the index like the others.
-/

namespace HiveNative.Chain

open EState Perf

/-! ## The index -/

structure AccountIndex where
  db : Database
  cacheEnabled : Bool := true
  cache : AccountCache := .new

abbrev IndexM := EStateM Stop AccountIndex

/-- A program of the database. -/
def onDb {α : Type} (x : Eval α) : IndexM α := fun idx =>
  match x idx.db with
  | .ok a db => .ok a { idx with db := db }
  | .error e db => .error e { idx with db := db }

def setCacheEnabled (on : Bool) : IndexM Unit := do
  modify fun idx => { idx with cacheEnabled := on }
  if ¬ on then modify fun idx => { idx with cache := idx.cache.clear }

def clearCache : IndexM Unit := modify fun idx => { idx with cache := idx.cache.clear }

section Hash

variable (hash : Bytes → UInt64)

/-- `cache_.put(name, bal)`.  A loop that does not end is undefined. -/
def cachePut (name : AccountName) (bal : AccountBalance) : IndexM Unit := do
  match (← get).cache.put hash name bal with
  | some cache => modify fun idx => { idx with cache := cache }
  | none => throw .undefined

/-- `cache_.find(name)` -/
def cacheFind (name : AccountName) : IndexM (Option AccountBalance) := do
  let (hit, cache) := (← get).cache.find hash name
  modify fun idx => { idx with cache := cache }
  return hit

namespace AccountIndex

def create (name : AccountName) (hive hbd : ShareType) : IndexM Unit := do
  onDb (createAccount name hive hbd)
  if (← get).cacheEnabled then cachePut hash name ⟨hive, hbd⟩

/-- The part of `find` after a miss: read the database and fill the cache. -/
def load (name : AccountName) : IndexM (Option AccountBalance) := do
  match (← get).db.balances[name]? with
  | none => return none
  | some b => do
      if (← get).cacheEnabled then cachePut hash name b
      return some b

def find (name : AccountName) : IndexM (Option AccountBalance) := do
  let hit ← if (← get).cacheEnabled then cacheFind hash name else pure none
  match hit with
  | some b => return some b
  | none => load hash name

def «exists» (name : AccountName) : IndexM Bool := do
  return (← find hash name).isSome

def getBalance (name : AccountName) (sym : AssetSymbol) : IndexM ShareType := do
  match ← find hash name with
  | none => throw (.threw (.protocolError "account missing"))
  | some b => return b.field sym

def adjustBalance (name : AccountName) (delta : Asset) : IndexM Unit := do
  onDb (Chain.adjustBalance name delta)
  if (← get).cacheEnabled then
    modify fun idx => { idx with cache := (idx.cache.invalidate hash name).2 }

end AccountIndex

/-! ## Runs -/

inductive IndexOp where
  | create (name : AccountName) (hive hbd : ShareType)
  | find (name : AccountName)
  | «exists» (name : AccountName)
  | getBalance (name : AccountName) (sym : AssetSymbol)
  | adjustBalance (name : AccountName) (delta : Asset)
  | setCacheEnabled (on : Bool)
  | clearCache
deriving Repr, DecidableEq

/-- What an operation answers. -/
inductive IndexAnswer where
  | done
  | found (b : Option AccountBalance)
  | present (b : Bool)
  | balance (amount : ShareType)
deriving Repr, DecidableEq

/-- The program of an operation. -/
def IndexOp.program : IndexOp → IndexM IndexAnswer
  | .create name hive hbd => do
      AccountIndex.create hash name hive hbd
      return .done
  | .find name => return .found (← AccountIndex.find hash name)
  | .exists name => return .present (← AccountIndex.exists hash name)
  | .getBalance name sym => return .balance (← AccountIndex.getBalance hash name sym)
  | .adjustBalance name delta => do
      AccountIndex.adjustBalance hash name delta
      return .done
  | .setCacheEnabled on => do
      Chain.setCacheEnabled on
      return .done
  | .clearCache => do
      Chain.clearCache
      return .done

/-- Execute one operation.  A failed one leaves what it wrote. -/
def execIndex (op : IndexOp) (idx : AccountIndex) : Except Stop IndexAnswer × AccountIndex :=
  match op.program hash idx with
  | .ok a idx' => (.ok a, idx')
  | .error e idx' => (.error e, idx')

end Hash

end HiveNative.Chain
