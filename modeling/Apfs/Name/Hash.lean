import Apfs.Checksum.Crc32c
import Apfs.Layout
import Apfs.Name.CodePoints
import Apfs.Name.Fold

namespace Apfs

/-!
# Hashing names

The hash of a name is a 22-bit part of the CRC-32C of its code points, folded and written as
32-bit integers.  Names that compare equal have equal hashes.

* `CodePoints.crc` — the register after what a cursor has left.
* `EncodedName.hash` — the hash of a name.
-/

/-- The CRC-32C register after the code points that a cursor delivers, starting from `crc`. -/
def CodePoints.crc (fold : Char → Char) (c : CodePoints) (crc : UInt32) : Except Error UInt32 :=
  match _h : c.step with
  | .ok (some (char, rest)) => rest.crc fold (Checksum.crc32c (encoded (fold char).val) crc)
  | .ok none => .ok crc
  | .error e => .error e
termination_by c.unitsLeft
decreasing_by exact unitsLeft_lt_of_step _h

/-- The bits of the register that make the hash. -/
def nameHashMask : UInt32 := 0x003fffff

/-- The hash of a name. -/
def EncodedName.hash (sensitivity : CaseSensitivity) (name : EncodedName) :
    Except Error UInt32 := do
  let crc ← name.codePoints.crc sensitivity.fold 0xffffffff
  return ~~~crc &&& nameHashMask

end Apfs
