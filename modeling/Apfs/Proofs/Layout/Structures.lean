import Apfs.Compression.File
import Apfs.Directory.Layout
import Apfs.ObjectMap.Layout
import Apfs.Proofs.Layout.Fields
import Apfs.SpaceManager.ChunkInfo
import Apfs.Tree.Layout

namespace Apfs

/-!
# The structures of the format lose nothing

A structure is read back because its fields are, so each of them only names the parts it is made
of.  Unknown bits of flags, types and packed words are parts like all others.

* `DiskType` — the types of which there are values on disk.
* `DiskType.tiled_and_lossless` — what tables, decoding and encoding do for all of them.
-/

/-! ### Integers, byte arrays and identifiers -/

instance : Lossless UInt8 :=
  .integer (fun _ h => UInt8.toNat_ofNat_of_lt' h) UInt8.toNat_lt fun _ => UInt8.ofNat_toNat

instance : Lossless Int64 := by
  unfold instLayoutInt64
  refine .integer (fun n h => ?_) (fun n => n.toUInt64.toNat_lt) fun n => ?_
  · show (UInt64.ofNat n).toInt64.toUInt64.toNat = n
    rw [UInt64.toUInt64_toInt64, UInt64.toNat_ofNat_of_lt' h]
  · show (UInt64.ofNat n.toUInt64.toNat).toInt64 = n
    rw [UInt64.ofNat_toNat, Int64.toInt64_toUInt64]

instance (n : Nat) : Lossless (Vector UInt8 n) where
  length_toBytes v := v.length_toList
  ofBytes_toBytes v := by
    apply Vector.ext
    intro i hi
    show (Vector.ofFn fun i : Fin n => v.toList.getD i 0)[i] = v[i]
    simp
  toBytes_ofBytes bytes h := by
    have hlength : bytes.length = n := h
    show (Vector.ofFn fun i : Fin n => bytes.getD i 0).toList = bytes
    apply List.ext_getElem
    · simp [hlength]
    · intro i hi hi'
      simp [hi']

instance : Lossless VirtualId := .record (fun _ => rfl) (fun _ => rfl)

instance : Lossless BlockAddress := .record (fun _ => rfl) (fun _ => rfl)

/-! ### Objects and object maps -/

instance : Fieldwise ObjectHeader := by
  unfold instLayoutObjectHeader
  exact .record (fun _ => rfl) (fun _ => rfl)

instance : Lossless ObjectMapFlags := .flagSet (fun _ => rfl) (fun _ => rfl)

instance : Fieldwise ObjectMapHeader := by
  unfold instLayoutObjectMapHeader
  exact .record (fun _ => rfl) (fun _ => rfl)

instance : Fieldwise ObjectMapKey := by
  unfold instLayoutObjectMapKey
  exact .record (fun _ => rfl) (fun _ => rfl)

instance : Lossless MappingFlags := .flagSet (fun _ => rfl) (fun _ => rfl)

instance : Fieldwise ObjectMapValue := by
  unfold instLayoutObjectMapValue
  exact .record (fun _ => rfl) (fun _ => rfl)

/-! ### B-tree nodes -/

instance : Fieldwise NodeLocation := by
  unfold instLayoutNodeLocation
  exact .record (fun _ => rfl) (fun _ => rfl)

instance : Fieldwise KeyValueOffset := by
  unfold instLayoutKeyValueOffset
  exact .record (fun _ => rfl) (fun _ => rfl)

instance : Fieldwise KeyValueLocation := by
  unfold instLayoutKeyValueLocation
  exact .record (fun _ => rfl) (fun _ => rfl)

instance : Lossless NodeFlags := .flagSet (fun _ => rfl) (fun _ => rfl)

instance : Fieldwise NodeHeader := by
  unfold instLayoutNodeHeader
  exact .record (fun _ => rfl) (fun _ => rfl)

instance : Lossless TreeFlags := .flagSet (fun _ => rfl) (fun _ => rfl)

instance : Fieldwise TreeParameters := by
  unfold instLayoutTreeParameters
  exact .record (fun _ => rfl) (fun _ => rfl)

instance : Fieldwise TreeInfo := by
  unfold instLayoutTreeInfo
  exact .record (fun _ => rfl) (fun _ => rfl)

/-! ### Chunk information -/

instance : Fieldwise ChunkInfo := by
  unfold instLayoutChunkInfo
  exact .record (fun _ => rfl) (fun _ => rfl)

instance : Fieldwise ChunkInfoHeader := by
  unfold instLayoutChunkInfoHeader
  exact .record (fun _ => rfl) (fun _ => rfl)

/-! ### Compressed files -/

instance : Lossless CompressionMethod := .record (fun _ => rfl) (fun _ => rfl)

instance : Fieldwise CompressionHeader := by
  unfold instLayoutCompressionHeader
  exact .record (fun _ => rfl) (fun _ => rfl)

/-! ### File system records -/

instance : Lossless RecordKey := .record (fun _ => rfl) (fun _ => rfl)

instance : Fieldwise PlainEntryHeader := by
  unfold instLayoutPlainEntryHeader
  exact .record (fun _ => rfl) (fun _ => rfl)

instance : Lossless LengthAndHash := .record (fun _ => rfl) (fun _ => rfl)

instance : Fieldwise HashedEntryHeader := by
  unfold instLayoutHashedEntryHeader
  exact .record (fun _ => rfl) (fun _ => rfl)

instance : Fieldwise EntryTarget := by
  unfold instLayoutEntryTarget
  exact .record (fun _ => rfl) (fun _ => rfl)

/-! ### All types -/

/-- The types of which there are values on disk. -/
inductive DiskType where
  /-- Unsigned integers. -/
  | uint8 | uint16 | uint32 | uint64
  /-- Signed integers. -/
  | int64
  /-- Byte arrays of a fixed size. -/
  | bytes (count : Nat)
  /-- Identifiers. -/
  | objectId | virtualId | blockAddress | transactionId
  /-- Objects. -/
  | typeWord | objectHeader
  /-- Object maps. -/
  | objectMapFlags | objectMapHeader | objectMapKey | mappingFlags | objectMapValue
  /-- B-tree nodes. -/
  | nodeLocation | keyValueOffset | keyValueLocation | nodeFlags | nodeHeader
  /-- Information about B-trees. -/
  | treeFlags | treeParameters | treeInfo
  /-- Chunk information. -/
  | chunkInfo | chunkInfoHeader
  /-- Compressed files. -/
  | compressionMethod | compressionHeader
  /-- File system records. -/
  | recordKey | plainEntryHeader | lengthAndHash | hashedEntryHeader | entryTarget

namespace DiskType

/-- The values of the type. -/
@[reducible] def Value : DiskType → Type
  | uint8 => UInt8
  | uint16 => UInt16
  | uint32 => UInt32
  | uint64 => UInt64
  | int64 => Int64
  | bytes count => Vector UInt8 count
  | objectId => ObjectId
  | virtualId => VirtualId
  | blockAddress => BlockAddress
  | transactionId => TransactionId
  | typeWord => TypeWord
  | objectHeader => ObjectHeader
  | objectMapFlags => ObjectMapFlags
  | objectMapHeader => ObjectMapHeader
  | objectMapKey => ObjectMapKey
  | mappingFlags => MappingFlags
  | objectMapValue => ObjectMapValue
  | nodeLocation => NodeLocation
  | keyValueOffset => KeyValueOffset
  | keyValueLocation => KeyValueLocation
  | nodeFlags => NodeFlags
  | nodeHeader => NodeHeader
  | treeFlags => TreeFlags
  | treeParameters => TreeParameters
  | treeInfo => TreeInfo
  | chunkInfo => ChunkInfo
  | chunkInfoHeader => ChunkInfoHeader
  | compressionMethod => CompressionMethod
  | compressionHeader => CompressionHeader
  | recordKey => RecordKey
  | plainEntryHeader => PlainEntryHeader
  | lengthAndHash => LengthAndHash
  | hashedEntryHeader => HashedEntryHeader
  | entryTarget => EntryTarget

instance (t : DiskType) : Layout t.Value := by cases t <;> exact inferInstance

/-- A type that is written as one number or one array has one field. -/
instance : (t : DiskType) → Fieldwise t.Value
  | uint8 | uint16 | uint32 | uint64 | int64 | bytes _ | objectId | virtualId | blockAddress
  | transactionId | typeWord | objectMapFlags | mappingFlags | nodeFlags | treeFlags
  | compressionMethod | recordKey | lengthAndHash => .single rfl
  | objectHeader | objectMapHeader | objectMapKey | objectMapValue | nodeLocation | keyValueOffset
  | keyValueLocation | nodeHeader | treeParameters | treeInfo | chunkInfo | chunkInfoHeader
  | compressionHeader | plainEntryHeader | hashedEntryHeader | entryTarget => inferInstance

/-- **Layouts lose nothing.**  For each type, the fields of the table stand back to back in the
    order of declaration, from the first byte to the last.  Encoding a value by the table replaces as
    many bytes at the front of a buffer as the type has, and the value is decoded from them again.
    Whatever bytes are decoded, encoding writes the same bytes.  With too few bytes, decoding and
    encoding fail, and encoding leaves the buffer as it was. -/
theorem tiled_and_lossless (t : DiskType) :
    (Tiles 0 (Layout.size t.Value) (Layout.fields t.Value) ∧
      (Layout.fields t.Value).map (fun f => (f.name, f.width)) = Layout.columns t.Value) ∧
    (∀ (v : t.Value) (buffer : ByteArray), Layout.size t.Value ≤ buffer.size →
      ∃ written, encode v buffer = .ok written ∧ writeFields v buffer = .ok () written ∧
        written.size = buffer.size ∧
        written.extract (Layout.size t.Value) written.size
          = buffer.extract (Layout.size t.Value) buffer.size ∧
        decode written = .ok v ∧ readFields written = .ok v) ∧
    (∀ data : ByteArray, Layout.size t.Value ≤ data.size →
      ∃ v : t.Value, decode data = .ok v ∧ readFields data = .ok v ∧
        ∀ buffer : ByteArray, Layout.size t.Value ≤ buffer.size →
          ∃ written, encode v buffer = .ok written ∧ writeFields v buffer = .ok () written ∧
            written.extract 0 (Layout.size t.Value) = data.extract 0 (Layout.size t.Value)) ∧
    ∀ data : ByteArray, data.size < Layout.size t.Value →
      (decode data : Except Error t.Value) = .error (Layout.tooShort t.Value data.size) ∧
      (readFields data : Except Error t.Value) = .error (Layout.tooShort t.Value data.size) ∧
      ∀ v : t.Value, encode v data = .error (Layout.tooShort t.Value data.size) ∧
        writeFields v data = .error (Layout.tooShort t.Value data.size) data := by
  refine ⟨⟨?tiles, columns_place ..⟩, ?encoded, ?decoded, ?short⟩
  case tiles =>
    have htiles := tiles_place 0 (Layout.columns t.Value)
    rw [Nat.zero_add] at htiles
    exact htiles
  case encoded =>
    intro v buffer hle
    obtain ⟨written, hencode, hsize, hrest, -, hdecode⟩ := exists_encode v hle
    refine ⟨written, hencode, ?_, hsize, hrest, hdecode, ?_⟩
    · rw [writeFields_eq, hencode]
    · rw [readFields_eq, hdecode]
  case decoded =>
    intro data hle
    obtain ⟨v, hdecode, hencoded⟩ := exists_decode (α := t.Value) hle
    refine ⟨v, hdecode, ?_, fun buffer hbuffer => ?_⟩
    · rw [readFields_eq, hdecode]
    · obtain ⟨written, hencode, -, -, hfront, -⟩ := exists_encode v hbuffer
      refine ⟨written, hencode, ?_, hfront.trans hencoded⟩
      rw [writeFields_eq, hencode]
  case short =>
    intro data hlt
    have hdecode : (decode data : Except Error t.Value)
        = .error (Layout.tooShort t.Value data.size) := if_pos hlt
    have hencode (v : t.Value) : encode v data = .error (Layout.tooShort t.Value data.size) :=
      if_pos hlt
    refine ⟨hdecode, ?_, fun v => ⟨hencode v, ?_⟩⟩
    · rw [readFields_eq, hdecode]
    · rw [writeFields_eq, hencode]

/-- A buffer of one byte more than a location takes, and one of a byte less. -/
theorem tiled_and_lossless_nodeLocation :
    let location : NodeLocation := ⟨0x1234, 5⟩
    (∃ written, encode location ⟨#[1, 2, 3, 4, 5]⟩ = .ok written ∧
      written.extract 4 written.size = ⟨#[5]⟩ ∧ decode written = .ok location) ∧
    writeFields location ⟨#[1, 2, 3]⟩ = .error (.inputTooSmall 4 3) ⟨#[1, 2, 3]⟩ := by
  intro location
  obtain ⟨-, hwrites, -, hshort⟩ := tiled_and_lossless .nodeLocation
  obtain ⟨written, hencode, -, -, hrest, hdecode, -⟩ :=
    hwrites location ⟨#[1, 2, 3, 4, 5]⟩ (by decide)
  exact ⟨⟨written, hencode, hrest, hdecode⟩, ((hshort ⟨#[1, 2, 3]⟩ (by decide)).2.2 location).2⟩

end DiskType

end Apfs
