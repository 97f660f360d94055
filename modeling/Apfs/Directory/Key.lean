import Apfs.Directory.Layout
import Apfs.Name.Compare

namespace Apfs

/-!
# Keys of directory entries

* `EntryFormat` — whether the keys of a tree hold hashes.
* `DirectoryKey` — a key taken apart; `DirectoryKey.ofBytes` does so.
* `EntryQuery` — an entry that is searched for; `DirectoryKey.compareWith` compares a key with it.
-/

/-- The format of the keys of directory entries in a tree. -/
inductive EntryFormat where
  /-- Keys hold the length of the name. -/
  | plain
  /-- Keys hold the length and the hash of the name, and are sorted by hash. -/
  | hashed
deriving DecidableEq

/-- The key of a directory entry, or of another record of a file system tree. -/
structure DirectoryKey where
  /-- The directory, and the type of the record. -/
  record : RecordKey
  /-- The hash of the name, if the key holds it. -/
  hash : Option UInt32
  /-- The bytes of the name, with any NUL at its end. -/
  nameBytes : ByteArray

/-- A directory entry that is searched for. -/
structure EntryQuery where
  /-- The directory. -/
  parent : UInt64
  /-- The hash of the name, if keys hold hashes. -/
  hash : Option UInt32
  /-- The name. -/
  name : EncodedName
  /-- Whether case makes a difference. -/
  sensitivity : CaseSensitivity

namespace DirectoryKey

/-- The key whose name of `length` bytes starts at offset `start` of `key`. -/
def withName (key : ByteArray) (record : RecordKey) (hash : Option UInt32)
    (start length : Nat) : Except Error DirectoryKey :=
  match Bytes.slice? key start length with
  | some nameBytes => .ok { record, hash, nameBytes }
  | none => .error (.node .entryName)

/-- Takes a key apart.  What follows the name is ignored, and so is what follows the first word in
    the keys of records that are no directory entries; those have no name. -/
def ofBytes (format : EntryFormat) (key : ByteArray) : Except Error DirectoryKey := do
  let record : RecordKey ← decode key
  if record.type ≠ .directoryRecord then return { record, hash := none, nameBytes := .empty }
  match format with
  | .plain =>
    let header : PlainEntryHeader ← decode key
    withName key record none (Layout.size PlainEntryHeader) header.nameLength.toNat
  | .hashed =>
    let header : HashedEntryHeader ← decode key
    withName key record (some header.name.hash) (Layout.size HashedEntryHeader)
      header.name.length.toNat

/-- The directory that holds the entry. -/
def parent (k : DirectoryKey) : UInt64 := k.record.object

/-- The name, without one NUL at its end. -/
def name (k : DirectoryKey) : Except Error String :=
  let last := k.nameBytes.size - 1
  let bytes := if Bytes.get k.nameBytes last = 0 then k.nameBytes.extract 0 last else k.nameBytes
  match String.fromUTF8? bytes with
  | some name => .ok name
  | none => .error .invalidUtf8

/-- Compares a key with an entry that is searched for: by directory and type of record, then by
    hash if both have one, and then by name. -/
def compareWith (k : DirectoryKey) (query : EntryQuery) : Except Error Ordering :=
  let record := RecordKey.ofParts query.parent .directoryRecord
  let hashes := match k.hash, query.hash with
    | some stored, some wanted => compare stored wanted
    | _, _ => .eq
  match (compare k.record record).then hashes with
  | .eq => compareNames query.sensitivity k.nameBytes query.name
  | ordering => .ok ordering

end DirectoryKey

end Apfs
