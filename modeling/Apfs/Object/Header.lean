import Apfs.Checksum.Fletcher64
import Apfs.Object.TypeWord

namespace Apfs

/-!
# Object headers and checksums

Every object starts with a header: the Fletcher-64 checksum of all bytes after the checksum, the
identifier, the transaction that last changed it, and its type.

* `ObjectHeader` — the header.
* `storedChecksum`, `computedChecksum` — the checksum that an object holds, and the one it should.
* `verifyChecksum` — fails unless they are equal.
-/

/-- The header of an object. -/
structure ObjectHeader where
  /-- The checksum of the bytes after it. -/
  checksum : UInt64
  /-- The identifier of the object. -/
  identifier : ObjectId
  /-- The transaction that last changed the object. -/
  transaction : TransactionId
  /-- The type and the flags. -/
  type : TypeWord
  /-- The subtype. -/
  subtype : TypeWord
deriving DecidableEq, Inhabited

instance : Layout ObjectHeader :=
  .record
    (.andColumn "checksum" UInt64 <|
      .andColumn "identifier" ObjectId <|
      .andColumn "transaction_identifier" TransactionId <|
      .andColumn "typ" TypeWord <|
      .column "subtype" TypeWord)
    (fun (checksum, identifier, transaction, type, subtype) =>
      { checksum, identifier, transaction, type, subtype })
    (fun h => (h.checksum, h.identifier, h.transaction, h.type, h.subtype))

/-- The number of bytes that the checksum takes at the start of an object. -/
def checksumSize : Nat := 8

/-- The checksum that an object holds. -/
def storedChecksum (object : ByteArray) : Except Error UInt64 :=
  if object.size < checksumSize then .error (.argument .objectTooShort)
  else .ok (Layout.ofBytes (object.extract 0 checksumSize).toList)

/-- The checksum of an object: that of the bytes after the stored one. -/
def computedChecksum (object : ByteArray) : Except Error UInt64 :=
  if object.size < checksumSize then .error (.argument .objectTooShort)
  else Checksum.fletcher64 (object.extract checksumSize object.size) 0

/-- Fails unless an object holds its own checksum. -/
def verifyChecksum (object : ByteArray) : Except Error Unit := do
  let stored ← storedChecksum object
  let computed ← computedChecksum object
  if stored ≠ computed then throw (.checksumMismatch stored computed)

end Apfs
