namespace Apfs.Checksum

/-!
# CRC-32C

The cyclic redundancy check with the Castagnoli polynomial, on a register whose lowest bit is
the highest power.  The register is inverted neither at the start nor at the end.

* `crcShift` — one division step: the register shifted by one bit.
* `crcTable` — what eight steps make of each register that holds a single byte.
* `crc32c` — the register after the bytes of a buffer, one table entry for each byte.
-/

/-- The Castagnoli polynomial, lowest bit first. -/
def crcPolynomial : UInt32 := 0x82f63b78

/-- The register after one division step. -/
def crcShift (crc : UInt32) : UInt32 :=
  if crc &&& 1 = 0 then crc >>> 1 else crcPolynomial ^^^ (crc >>> 1)

/-- The register after eight division steps. -/
def crcShiftByte (crc : UInt32) : UInt32 := Nat.repeat crcShift 8 crc

/-- The eight steps for every register from 0 to 255. -/
def crcTable : Vector UInt32 256 :=
  .ofFn fun i => crcShiftByte (UInt32.ofNat i)

/-- The register after one byte more. -/
def crcByte (crc : UInt32) (b : UInt8) : UInt32 :=
  let low := crc.toUInt8 ^^^ b
  crcTable.get ⟨low.toNat, low.toNat_lt⟩ ^^^ (crc >>> 8)

/-- The register after the bytes of `data`, starting from `initial`. -/
def crc32c (data : ByteArray) (initial : UInt32) : UInt32 :=
  data.foldl crcByte initial

end Apfs.Checksum
