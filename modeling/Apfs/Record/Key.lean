import Apfs.Layout

namespace Apfs

/-!
# Keys of file system records

The key of every record in a file system tree starts with a word that holds the object the record
belongs to and, in the four bits above, the type of the record.  Records of one object stand
together, sorted by type.

* `RecordType` — the types of records.
* `RecordKey` — the word; `RecordKey.ofParts` packs one.
-/

/-- The type of a file system record. -/
structure RecordType where
  /-- The number on disk. -/
  code : UInt8
deriving DecidableEq, Inhabited

namespace RecordType

/-- An entry of a directory. -/
def directoryRecord : RecordType := ⟨9⟩

/-- The names of the known types, from 0 on. -/
def names : List String :=
  ["Any", "SnapshotMetadata", "Extent", "Inode", "ExtendedAttribute", "SiblingLink",
    "DataStreamId", "CryptoState", "FileExtent", "DirectoryRecord", "DirectoryStats",
    "SnapshotName", "SiblingMap", "FileInfo"]

/-- The name of the type. -/
def name (t : RecordType) : String :=
  names.getD t.code.toNat s!"Unknown({t.code})"

end RecordType

/-- The word at the start of a record's key. -/
structure RecordKey where
  /-- The number on disk. -/
  packed : UInt64
deriving DecidableEq, Inhabited

instance : Layout RecordKey :=
  .record (.column "obj_id_and_type" UInt64) RecordKey.mk RecordKey.packed

namespace RecordKey

/-- The bits that hold the object. -/
def objectMask : UInt64 := 0x0fffffffffffffff

/-- The number of bits below the type. -/
def typeShift : UInt64 := 60

/-- The word for a record of `object`, of which only the low 60 bits count. -/
def ofParts (object : UInt64) (type : RecordType) : RecordKey :=
  ⟨(object &&& objectMask) ||| (type.code.toUInt64 <<< typeShift)⟩

/-- The object that the record belongs to. -/
def object (k : RecordKey) : UInt64 := k.packed &&& objectMask

/-- The type of the record. -/
def type (k : RecordKey) : RecordType := ⟨(k.packed >>> typeShift).toUInt8⟩

/-- Keys are ordered by object, then by type. -/
instance : Ord RecordKey where
  compare a b := (compare a.object b.object).then (compare a.type.code b.type.code)

/-- The word as it is shown to people. -/
def text (k : RecordKey) : String := s!"FileSystemKey({k.object}, {k.type.name})"

end RecordKey

end Apfs
