import Apfs.Directory.Key
import Apfs.Name.Hash
import Apfs.Tree.Search

namespace Apfs

/-!
# Looking up directory entries

* `EntryQuery.ofName` — what is searched for, given the format of the keys.
* `EntryQuery.order` — compares the stored keys of a tree with it.
* `Tree.lookupEntry` — finds an entry of a directory by its name.
-/

namespace EntryQuery

/-- The query for an entry of the directory `parent`, with the hash of the name where keys hold
    hashes. -/
def ofName (format : EntryFormat) (sensitivity : CaseSensitivity) (parent : UInt64)
    (name : EncodedName) : Except Error EntryQuery := do
  match format with
  | .plain => return { parent, hash := none, name, sensitivity }
  | .hashed => return { parent, hash := some (← name.hash sensitivity), name, sensitivity }

/-- Compares stored keys with the entry. -/
def order (query : EntryQuery) (format : EntryFormat) : KeyOrder := fun key => do
  (← DirectoryKey.ofBytes format key).compareWith query

end EntryQuery

/-- Finds the entry of the directory `parent` that is called `name`, and gives its key and the
    bytes of its value. -/
def Tree.lookupEntry {σ : Type} (t : Tree) (reader : BlockReader σ) (lookup : ObjectLookup σ)
    (format : EntryFormat) (sensitivity : CaseSensitivity) (parent : UInt64)
    (name : EncodedName) : EStateM Error σ (Option (DirectoryKey × ByteArray)) := do
  let query ← lift (EntryQuery.ofName format sensitivity parent name)
  match ← t.search reader lookup (query.order format) .exact with
  | none => return none
  | some entry => return some (← lift (DirectoryKey.ofBytes format entry.key), entry.value)

end Apfs
