import Apfs.Bytes
import Apfs.Error

namespace Apfs

/-!
# Layouts

Structures on disk have a fixed size: their fields stand back to back in the order of
declaration, without padding, and integers are little-endian.  A layout says this once for each
type; sizes, field tables, decoding and encoding all follow from it.

* `Field` — the name, offset and width of one field.
* `Layout` — how the values of a type are laid out.
* `Layout.size`, `Layout.fields` — the bytes a value takes, and where each field is.
* `decode`, `encode` — reading a value from the front of a buffer, and writing it there.
* `Layout.column`, `Layout.andColumn`, `Layout.record` — the layout of a structure from those
  of its fields.
-/

/-! ### Fields -/

/-- The place of a field inside a structure. -/
structure Field where
  /-- The name of the field. -/
  name : String
  /-- The offset of its first byte from the start of the structure. -/
  offset : Nat
  /-- The number of bytes it takes. -/
  width : Nat
deriving DecidableEq

namespace Field

/-- The offset just past the field. -/
def stop (f : Field) : Nat := f.offset + f.width

/-- The bytes of the field. -/
def slice (f : Field) (data : ByteArray) : Except Error ByteArray :=
  match Bytes.slice? data f.offset f.width with
  | some bytes => .ok bytes
  | none => .error (.fieldOutOfBounds f.name)

/-- The data with every byte of the field set to `b`. -/
def fill (f : Field) (data : ByteArray) (b : UInt8) : Except Error ByteArray :=
  if f.stop ≤ data.size then .ok (Bytes.overlay data f.offset (Bytes.fill f.width b))
  else .error (.fieldOutOfBounds f.name)

end Field

/-! ### Layouts -/

/-- The number of bytes that columns take together. -/
def totalWidth : (columns : List (String × Nat)) → Nat
  | [] => 0
  | (_, width) :: rest => width + totalWidth rest

/-- How the values of `α` are laid out on disk. -/
class Layout (α : Type) where
  /-- The names and widths of the fields, in order. -/
  columns : List (String × Nat)
  /-- The value stored in the given bytes, as many as the fields take together. -/
  ofBytes : List UInt8 → α
  /-- The bytes that store a value. -/
  toBytes : α → List UInt8
  /-- The error for a buffer with only `available` bytes. -/
  tooShort : (available : Nat) → Error :=
    fun available => .inputTooSmall (totalWidth columns) available

namespace Layout

variable {α β : Type}

/-- The number of bytes that a value takes. -/
def size (α : Type) [Layout α] : Nat :=
  totalWidth (columns α)

/-- Places columns one after the other, the first at `offset`. -/
def place (offset : Nat) : List (String × Nat) → List Field
  | [] => []
  | (name, width) :: rest => ⟨name, offset, width⟩ :: place (offset + width) rest

/-- The place of every field, in order. -/
def fields (α : Type) [Layout α] : List Field :=
  place 0 (columns α)

/-- The place of the field called `name`. -/
def field? (α : Type) [Layout α] (name : String) : Option Field :=
  (fields α).find? fun f => f.name == name

/-! ### Building layouts -/

/-- An integer stored in `width` bytes. -/
@[reducible] def integer (width : Nat) (ofNat : Nat → α) (toNat : α → Nat) : Layout α where
  columns := [("value", width)]
  ofBytes bytes := ofNat (Bytes.ofLittleEndian bytes)
  toBytes n := Bytes.littleEndian width (toNat n)

/-- One column, holding a value of `α`. -/
@[reducible] def column (name : String) (α : Type) [Layout α] : Layout α where
  columns := [(name, size α)]
  ofBytes := ofBytes
  toBytes := toBytes

/-- A column of type `α` before the columns of `rest`. -/
@[reducible] def andColumn (name : String) (α : Type) [Layout α] (rest : Layout β) :
    Layout (α × β) where
  columns := (name, size α) :: rest.columns
  ofBytes bytes := (ofBytes (bytes.take (size α)), rest.ofBytes (bytes.drop (size α)))
  toBytes v := toBytes v.1 ++ rest.toBytes v.2

/-- A structure whose fields are the components of a product. -/
@[reducible] def record (row : Layout α) (make : α → β) (parts : β → α) : Layout β where
  columns := row.columns
  ofBytes bytes := make (row.ofBytes bytes)
  toBytes v := row.toBytes (parts v)

/-- A set of flags, stored as the integer whose bits they are. -/
@[reducible] def flagSet [Layout α] (make : α → β) (bits : β → α) : Layout β where
  columns := [("bits", size α)]
  ofBytes bytes := make (ofBytes bytes)
  toBytes v := toBytes (bits v)
  tooShort _ := .fieldOutOfBounds "bits"

end Layout

/-! ### Decoding and encoding -/

section

variable {α : Type} [Layout α]

/-- The value at the front of `data`; what follows it is ignored. -/
def decode (data : ByteArray) : Except Error α :=
  let size := Layout.size α
  if data.size < size then .error (Layout.tooShort α data.size)
  else .ok (Layout.ofBytes (data.extract 0 size).toList)

/-- The value that starts at `offset`. -/
def decodeAt (data : ByteArray) (offset : Nat) : Except Error α :=
  decode (data.extract offset data.size)

/-- The bytes that store a value. -/
def encoded (v : α) : ByteArray :=
  ⟨(Layout.toBytes v).toArray⟩

/-- The buffer with `v` written to its front. -/
def encode (v : α) (buffer : ByteArray) : Except Error ByteArray :=
  if buffer.size < Layout.size α then .error (Layout.tooShort α buffer.size)
  else .ok (Bytes.overlay buffer 0 (encoded v))

end

/-! ### Integers, byte arrays and identifiers -/

instance : Layout UInt8 := .integer 1 UInt8.ofNat UInt8.toNat
instance : Layout UInt16 := .integer 2 UInt16.ofNat UInt16.toNat
instance : Layout UInt32 := .integer 4 UInt32.ofNat UInt32.toNat
instance : Layout UInt64 := .integer 8 UInt64.ofNat UInt64.toNat

/-- Signed integers are stored in two's complement. -/
instance : Layout Int64 :=
  .integer 8 (fun n => (UInt64.ofNat n).toInt64) (fun n => n.toUInt64.toNat)

instance (n : Nat) : Layout (Vector UInt8 n) where
  columns := [("bytes", n)]
  ofBytes bytes := .ofFn fun i => bytes.getD i 0
  toBytes v := v.toList

instance : Layout ObjectId := .record (.column "0" UInt64) ObjectId.mk ObjectId.value
instance : Layout VirtualId := .record (.column "0" UInt64) VirtualId.mk VirtualId.value
instance : Layout BlockAddress := .record (.column "0" UInt64) BlockAddress.mk BlockAddress.value
instance : Layout TransactionId :=
  .record (.column "0" UInt64) TransactionId.mk TransactionId.value

end Apfs
