import HiveNative.Chain.Database
import HiveNative.Perf.FlatHashMap

/-!
# The account cache

`account_cache` of `perf/account_cache.hpp`: a flat hash map from account names
to balances with four counters.  As for the map, the hash function is a
parameter, and an insertion that does not return has no result.

`hit_rate` is a floating-point quotient of the counters that nothing reads and is
left out.
-/

namespace HiveNative.Perf

open Chain (AccountBalance)

structure AccountCache where
  map : FlatHashMap AccountBalance
  hits : UInt64 := 0
  misses : UInt64 := 0
  inserts : UInt64 := 0
  invalidations : UInt64 := 0
deriving Repr, DecidableEq

namespace AccountCache

/-- The constructor with its default capacity. -/
def new : AccountCache := { map := .new 64 }

def clear (c : AccountCache) : AccountCache := { map := c.map.clear }

section Hash

variable (hash : Bytes → UInt64)

def put (c : AccountCache) (name : AccountName) (bal : AccountBalance) : Option AccountCache :=
  match c.map.insert hash name bal with
  | none => none
  | some (_, map) => some { c with map := map, inserts := c.inserts + 1 }

def find (c : AccountCache) (name : AccountName) : Option AccountBalance × AccountCache :=
  match c.map.find hash name with
  | some b => (some b, { c with hits := c.hits + 1 })
  | none => (none, { c with misses := c.misses + 1 })

def invalidate (c : AccountCache) (name : AccountName) : Bool × AccountCache :=
  match c.map.erase hash name with
  | (true, map) => (true, { c with map := map, invalidations := c.invalidations + 1 })
  | (false, map) => (false, { c with map := map })

end Hash

end AccountCache

end HiveNative.Perf
