import Apfs.ObjectMap.Basic
import Std.Data.HashMap

namespace Apfs

/-!
# Resolvers

A resolver looks objects up in an object map and may remember the mappings it found.  Mappings
never change once they are written, so what was found for an object and a transaction stays right.
What was not found is not remembered.

* `AddressCache` — the mappings remembered.
* `Resolver` — an object map, and whether mappings are remembered; `Resolver.ofAddress` opens one.
* `Resolver.lookup` — looks a mapping up, with the cache beside the state of the reader.
* `Resolver.resolve` — the block where an object is.
-/

/-- The mappings remembered, by the object and the transaction that were asked for. -/
abbrev AddressCache := Std.HashMap ObjectMapKey (ObjectMapKey × ObjectMapValue)

/-- Looks objects up in an object map. -/
structure Resolver where
  /-- The object map. -/
  map : ObjectMap
  /-- Whether the mappings that are found are remembered. -/
  remembers : Bool

namespace Resolver

variable {σ : Type}

/-- Opens the object map at a block. -/
def ofAddress (reader : BlockReader σ) (address : BlockAddress) (remembers : Bool) :
    EStateM Error σ Resolver := do
  let block ← reader.readBlock address
  return ⟨← ObjectMap.ofBlock reader block, remembers⟩

/-- Looks up a mapping, in the cache first. -/
def lookup (r : Resolver) (reader : BlockReader σ) : ObjectLookup (σ × AddressCache) :=
  fun object transaction => do
    let key : ObjectMapKey := ⟨object, transaction⟩
    if r.remembers then
      let (_, cache) ← get
      if let some mapping := cache[key]? then return some mapping
    let found ← onFirst (r.map.latest? reader object transaction)
    if let some mapping := found then
      if r.remembers then modify fun (s, cache) => (s, cache.insert key mapping)
    return found

/-- The block where `object` is, as `transaction` sees it; none if there is no live version. -/
def resolve (r : Resolver) (reader : BlockReader σ) (object : VirtualId)
    (transaction : TransactionId) : EStateM Error (σ × AddressCache) (Option BlockAddress) := do
  let found ← r.lookup reader object transaction
  return found.map fun (_, value) => value.address

end Resolver

end Apfs
