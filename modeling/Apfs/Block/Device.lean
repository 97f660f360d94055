import Apfs.Block.Reader

namespace Apfs

/-!
# Block devices

A block device is a part of a byte image, from a start position to the end, cut into blocks of
equal size.  A partial block at the end does not count.

* `Device` — a device; `Device.ofImage` finds out how many blocks there are.
* `Device.reader` — reads the blocks of a device.
-/

/-- The blocks of a byte image. -/
structure Device where
  /-- The bytes of the image. -/
  image : ByteArray
  /-- The position in the image at which block 0 starts. -/
  start : UInt64
  /-- The number of bytes of every block. -/
  blockSize : Nat
  /-- The number of whole blocks. -/
  blockCount : UInt64

namespace Device

/-- The device that starts at a position of an image, possibly past its end. -/
def ofImage (image : ByteArray) (start : UInt64) (blockSize : Nat) : Except Error Device :=
  if blockSize = 0 then .error (.argument .zeroBlockSize)
  else
    let blockCount := UInt64.ofNat ((image.size - start.toNat) / blockSize)
    .ok { image, start, blockSize, blockCount }

/-- The position in the image of a block, as a 64-bit number. -/
def position (d : Device) (address : BlockAddress) : UInt64 :=
  d.start + address.value * UInt64.ofNat d.blockSize

/-- The bytes of a block. -/
def read (d : Device) (address : BlockAddress) : Except Error ByteArray :=
  if address.value < d.blockCount then
    match Bytes.slice? d.image (d.position address).toNat d.blockSize with
    | some data => .ok data
    | none => .error .shortRead
  else .error (.blockOutOfBounds address)

/-- Reads the blocks of the device.  It needs no state. -/
def reader (d : Device) : BlockReader Unit where
  blockSize := d.blockSize
  read address := lift (d.read address)

/-- The device as it is shown to people. -/
def text (d : Device) : String :=
  "StreamBlockReader \x7b initial_position: " ++
    s!"{d.start}, block_size: {d.blockSize}, block_count: {d.blockCount} \x7d"

end Device

end Apfs
