import Apfs.Record.Key

namespace Apfs

/-!
# Structures of directory entries

The key of a directory entry names the directory and ends with the name of the entry.  Before the
name comes its length; on volumes that ignore case or form, its hash as well.

* `PlainEntryHeader`, `HashedEntryHeader` — what comes before the name.
* `LengthAndHash` — a length and a hash in one word.
* `EntryTarget` — the value: what the entry stands for.
-/

/-- What comes before the name in the key of an entry without a hash. -/
structure PlainEntryHeader where
  /-- The directory, and the type of the record. -/
  record : RecordKey
  /-- The number of bytes of the name, with a NUL at its end. -/
  nameLength : UInt16
deriving DecidableEq, Inhabited

instance : Layout PlainEntryHeader :=
  .record (.andColumn "header" RecordKey <| .column "name_length" UInt16)
    (fun (record, nameLength) => { record, nameLength }) (fun h => (h.record, h.nameLength))

/-- The length of a name in the low 10 bits of a word, and its hash in the 22 bits above. -/
structure LengthAndHash where
  /-- The number on disk. -/
  packed : UInt32
deriving DecidableEq, Inhabited

instance : Layout LengthAndHash :=
  .record (.column "0" UInt32) LengthAndHash.mk LengthAndHash.packed

namespace LengthAndHash

/-- The bits that hold the length. -/
def lengthMask : UInt32 := 0x000003ff

/-- The number of bits below the hash. -/
def hashShift : UInt32 := 10

/-- The word for a length and a hash, of which only the bits count for which there is room. -/
def ofParts (hash length : UInt32) : LengthAndHash :=
  ⟨(hash <<< hashShift) ||| (length &&& lengthMask)⟩

/-- The number of bytes of the name, with a NUL at its end. -/
def length (w : LengthAndHash) : UInt32 := w.packed &&& lengthMask

/-- The hash of the name. -/
def hash (w : LengthAndHash) : UInt32 := w.packed >>> hashShift

/-- The word as it is shown to people. -/
def text (w : LengthAndHash) : String :=
  s!"NameLengthAndHash \x7b length: {w.length}, hash: {w.hash} \x7d"

end LengthAndHash

/-- What comes before the name in the key of an entry with a hash. -/
structure HashedEntryHeader where
  /-- The directory, and the type of the record. -/
  record : RecordKey
  /-- The length of the name and its hash. -/
  name : LengthAndHash
deriving DecidableEq, Inhabited

instance : Layout HashedEntryHeader :=
  .record (.andColumn "header" RecordKey <| .column "name_length_and_hash" LengthAndHash)
    (fun (record, name) => { record, name }) (fun h => (h.record, h.name))

/-- The value of a directory entry, without what may follow it. -/
structure EntryTarget where
  /-- The object that the entry stands for. -/
  file : UInt64
  /-- When the entry came into the directory, in nanoseconds. -/
  dateAdded : UInt64
  /-- The low four bits hold the type of the file. -/
  flags : UInt16
deriving DecidableEq, Inhabited

instance : Layout EntryTarget :=
  .record
    (.andColumn "file_id" UInt64 <| .andColumn "date_added" UInt64 <| .column "flags" UInt16)
    (fun (file, dateAdded, flags) => { file, dateAdded, flags })
    (fun t => (t.file, t.dateAdded, t.flags))

end Apfs
