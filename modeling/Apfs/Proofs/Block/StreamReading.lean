import Apfs.Block.Device
import Apfs.Block.Stream
import Apfs.Proofs.Block.CacheRuns
import Apfs.Proofs.Bytes.Pieces

namespace Apfs

/-!
# Blocks are slices of their source

Whatever was read before, a block of a byte stream is the piece of its source that starts at a
multiple of the block size from the start, and there is no such block if the source ends before the
end of that piece.  The positions of blocks are computed with 64 bits, but only those of blocks that
there are.

* `blockOf` — the block of a source, with unbounded numbers.
* `lt_blockCount_iff`, `toNat_position` — the number of blocks bounds their positions.
* `Device.read_eq` — the blocks of a device.
* `StreamReader.perform`, `StreamReader.performAll` — calls of a reader of a stream.
* `StreamReader.Reads`, `StreamReader.Reads.perform_eq` — what a reader knows of its source, and
  what one call gives and leaves.
* `StreamReader.ofStream_performAll` — what any calls give.
-/

/-- The block of a source that starts `start` bytes into it: the bytes between two multiples of the
    block size, if the source has them. -/
def blockOf (image : ByteArray) (start blockSize : Nat) (address : BlockAddress) :
    Except Error ByteArray :=
  let n := address.value.toNat
  if start + (n + 1) * blockSize ≤ image.size then
    .ok (image.extract (start + n * blockSize) (start + (n + 1) * blockSize))
  else .error (.blockOutOfBounds address)

/-! ### Positions -/

section

variable {size blockSize : Nat} {start n : UInt64}

/-- The numbers of whole blocks are those of blocks that end inside the source. -/
theorem lt_blockCount_iff {blockCount : UInt64} (hblock : 0 < blockSize)
    (hcount : blockCount.toNat = (size - start.toNat) / blockSize) :
    n < blockCount ↔ start.toNat + (n.toNat + 1) * blockSize ≤ size := by
  have hpos : 0 < (n.toNat + 1) * blockSize := Nat.mul_pos n.toNat.succ_pos hblock
  rw [UInt64.lt_iff_toNat_lt, hcount, Nat.lt_iff_add_one_le, Nat.le_div_iff_mul_le hblock]
  omega

/-- The position of a block that ends inside the source is not too large for 64 bits, and neither
    are the numbers from which it is computed. -/
theorem toNat_position (hsize : size < 2 ^ 64)
    (hfits : start.toNat + (n.toNat + 1) * blockSize ≤ size) :
    (start + n * UInt64.ofNat blockSize).toNat = start.toNat + n.toNat * blockSize := by
  rw [Nat.add_mul, Nat.one_mul] at hfits
  have hblock : (UInt64.ofNat blockSize).toNat = blockSize :=
    UInt64.toNat_ofNat_of_lt' (by show _ < 2 ^ 64; omega)
  have hmul : (n * UInt64.ofNat blockSize).toNat = n.toNat * blockSize := by
    rw [UInt64.toNat_mul, hblock, Nat.mod_eq_of_lt (by omega)]
  rw [UInt64.toNat_add, hmul, Nat.mod_eq_of_lt (by omega)]

/-- There are as many bytes as the numbers of a block say. -/
theorem size_of_blockOf {image data : ByteArray} {start : Nat} {address : BlockAddress}
    (h : blockOf image start blockSize address = .ok data) : data.size = blockSize := by
  unfold blockOf at h
  dsimp only at h
  split at h
  · next hfits =>
    rw [Nat.add_mul, Nat.one_mul] at h hfits
    cases h
    rw [ByteArray.size_extract]
    omega
  · cases h

end

/-- **The blocks of a device** are slices of the image. -/
theorem Device.read_eq {image : ByteArray} {start : UInt64} {blockSize : Nat} {d : Device}
    (hsize : image.size < 2 ^ 64) (h : Device.ofImage image start blockSize = .ok d)
    (address : BlockAddress) : d.read address = blockOf image start.toNat blockSize address := by
  unfold Device.ofImage at h
  split at h
  · cases h
  · next hblock =>
    cases h
    have hcount : (UInt64.ofNat ((image.size - start.toNat) / blockSize)).toNat
        = (image.size - start.toNat) / blockSize :=
      UInt64.toNat_ofNat_of_lt'
        (Nat.lt_of_le_of_lt (Nat.div_le_self ..) (by show _ < 2 ^ 64; omega))
    have hlt := lt_blockCount_iff (n := address.value) (Nat.pos_of_ne_zero hblock) hcount
    unfold Device.read blockOf Device.position Bytes.slice?
    dsimp only
    by_cases hfits : start.toNat + (address.value.toNat + 1) * blockSize ≤ image.size
    · have hend : start.toNat + address.value.toNat * blockSize + blockSize
          = start.toNat + (address.value.toNat + 1) * blockSize := by
        rw [Nat.add_assoc, Nat.add_mul, Nat.one_mul]
      rw [if_pos (hlt.mpr hfits), if_pos hfits, toNat_position hsize hfits, hend, if_pos hfits]
    · rw [if_neg (hfits ∘ hlt.mp), if_neg hfits]

/-! ### Streams -/

namespace ByteStream

/-- Bytes that there are can be read. -/
theorem readExact_of_le {s : ByteStream} {count : Nat}
    (h : s.position.toNat + count ≤ s.contents.size) :
    readExact count s = .ok (s.contents.extract s.position.toNat (s.position.toNat + count))
      { s with position := s.position + .ofNat count } := by
  unfold readExact Bytes.slice?
  rw [Nat.min_eq_left (by omega), if_pos h]

/-- If there are too few bytes, none are read. -/
theorem readExact_of_lt {s : ByteStream} {count : Nat} (hcount : 0 < count)
    (h : s.contents.size < s.position.toNat + count) :
    readExact count s = .error .shortRead { s with position := s.stop } := by
  unfold readExact Bytes.slice?
  rw [if_neg (by omega)]

/-- Filling a buffer takes as many bytes as it has. -/
theorem fill_of_readExact {s s' : ByteStream} {buffer data : ByteArray}
    (h : readExact buffer.size s = .ok data s') : fill (s, buffer) = .ok () (s', data) := by
  have hfirst : onFirst (readExact buffer.size) (s, buffer) = .ok data (s', buffer) := by
    rw [onFirst, h]
  exact bind_eq_ok_iff.mpr ⟨_, _, rfl, bind_eq_ok_iff.mpr ⟨_, _, hfirst, rfl⟩⟩

end ByteStream

namespace StreamReader

/-! ### Calls -/

/-- What a reader of a stream gives, and the stream as it is then.  A buffer of the caller is filled
    itself, and what is in it afterwards is given whether the reading succeeds or not. -/
def perform (r : StreamReader) (call : BlockCall) (s : ByteStream) : BlockReturn × ByteStream :=
  match call with
  | .block address => BlockCall.perform r.blocks (.block address) s
  | .data address => BlockCall.perform r.blocks (.data address) s
  | .into address buffer =>
    let (s', buffer') := after (r.readInto address) (s, buffer)
    (.into (outcome (r.readInto address) (s, buffer)) buffer', s')

/-- What the calls give, one after the other, and the stream as it is then. -/
def performAll (r : StreamReader) : (calls : List BlockCall) → ByteStream →
    List BlockReturn × ByteStream
  | [], s => ([], s)
  | call :: calls, s =>
    let (given, s) := r.perform call s
    let (others, s) := r.performAll calls s
    (given :: others, s)

/-! ### One call -/

/-- The reader was opened at a position of a source, and has counted its blocks. -/
structure Reads (r : StreamReader) (image : ByteArray) (start : UInt64) (blockSize : Nat) :
    Prop where
  start_eq : r.start = start
  blockSize_eq : r.blockSize = blockSize
  toNat_blockCount : r.blockCount.toNat = (image.size - start.toNat) / blockSize

/-- Opening a stream leaves it as it was. -/
theorem ofStream_eq {image : ByteArray} (start : UInt64) {blockSize : Nat}
    (hsize : image.size < 2 ^ 64) (hblock : 0 < blockSize) :
    ∃ r : StreamReader, ofStream blockSize ⟨image, start⟩ = .ok r ⟨image, start⟩ ∧
      r.Reads image start blockSize := by
  have hstop : (UInt64.ofNat image.size).toNat = image.size := UInt64.toNat_ofNat_of_lt' hsize
  let stop := UInt64.ofNat image.size
  let available : UInt64 := if start ≤ stop then stop - start else 0
  have havailable : available.toNat = image.size - start.toNat := by
    dsimp only [available]
    split
    · next hle => rw [UInt64.toNat_sub_of_le _ _ hle, hstop]
    · next hlt =>
      rw [UInt64.le_iff_toNat_le, hstop] at hlt
      exact (Nat.sub_eq_zero_of_le (Nat.le_of_not_le hlt)).symm
  refine ⟨⟨start, blockSize, .ofNat (available.toNat / blockSize)⟩, ?_, rfl, rfl, ?_⟩
  · rw [ofStream, if_neg hblock.ne']
    rfl
  · rw [havailable]
    exact UInt64.toNat_ofNat_of_lt'
      (Nat.lt_of_le_of_lt (Nat.div_le_self ..) (by show _ < 2 ^ 64; omega))

namespace Reads

variable {r : StreamReader} {image : ByteArray} {start : UInt64} {blockSize : Nat}

/-- A block that there is fills the buffer, and the stream is behind it then.  If there is none, the
    buffer stays as it is. -/
theorem readInto_eq (h : r.Reads image start blockSize) (hsize : image.size < 2 ^ 64)
    (hblock : 0 < blockSize) (address : BlockAddress) (position : UInt64) (buffer : ByteArray) :
    ∃ position', r.readInto address (⟨image, position⟩, buffer) =
      match blockOf image start.toNat blockSize address with
      | .ok data => .ok () (⟨image, position'⟩, data)
      | .error e => .error e (⟨image, position'⟩, buffer) := by
  have hlt := lt_blockCount_iff (n := address.value) hblock h.toNat_blockCount
  by_cases hfits : start.toNat + (address.value.toNat + 1) * blockSize ≤ image.size
  · have hposition : (r.position address).toNat
        = start.toNat + address.value.toNat * blockSize := by
      rw [StreamReader.position, h.start_eq, h.blockSize_eq, toNat_position hsize hfits]
    have hend : start.toNat + address.value.toNat * blockSize + blockSize
        = start.toNat + (address.value.toNat + 1) * blockSize := by
      rw [Nat.add_assoc, Nat.add_mul, Nat.one_mul]
    have hread := @ByteStream.readExact_of_le ⟨image, r.position address⟩ blockSize
      (by rw [hposition, hend]; exact hfits)
    dsimp only at hread
    rw [hposition, hend] at hread
    refine ⟨r.position address + .ofNat blockSize, ?_⟩
    rw [blockOf, if_pos hfits, readInto, if_neg (UInt64.not_le.mpr (hlt.mpr hfits))]
    dsimp only
    -- The buffer has got the size of a block when the stream is moved.
    refine bind_eq_ok_iff.mpr ⟨(), (_, Bytes.resize buffer r.blockSize), rfl, ?_⟩
    refine bind_eq_ok_iff.mpr ⟨(), (⟨image, r.position address⟩, _), rfl, ?_⟩
    apply ByteStream.fill_of_readExact
    rw [Bytes.size_resize, h.blockSize_eq, hread]
  · refine ⟨position, ?_⟩
    rw [blockOf, if_neg hfits, readInto, if_pos (UInt64.not_lt.mp (hfits ∘ hlt.mp))]
    rfl

/-- A new buffer gets the block, too. -/
theorem read_eq (h : r.Reads image start blockSize) (hsize : image.size < 2 ^ 64)
    (hblock : 0 < blockSize) (address : BlockAddress) (position : UInt64) :
    outcome (r.read address) ⟨image, position⟩ = blockOf image start.toNat blockSize address ∧
      ∃ position', after (r.read address) ⟨image, position⟩ = ⟨image, position'⟩ := by
  obtain ⟨position', hinto⟩ :=
    h.readInto_eq hsize hblock address position (Bytes.zeros r.blockSize)
  unfold outcome after read
  rw [hinto]
  cases blockOf image start.toNat blockSize address with
  | ok data => exact ⟨rfl, position', rfl⟩
  | error e => exact ⟨rfl, position', rfl⟩

/-- **A call** gives the block as a slice of the source, and leaves the source as it is.  The buffer
    of a caller only changes if there is such a block. -/
theorem perform_eq (h : r.Reads image start blockSize) (hsize : image.size < 2 ^ 64)
    (hblock : 0 < blockSize) (call : BlockCall) (position : UInt64) :
    ∃ position', r.perform call ⟨image, position⟩
      = (call.returned (blockOf image start.toNat blockSize call.address), ⟨image, position'⟩) := by
  cases call with
  | block address =>
    obtain ⟨hout, position', hafter⟩ := h.read_eq hsize hblock address position
    refine ⟨position', (BlockCall.perform_eq r.blocks (.block address) _).trans ?_⟩
    exact Prod.ext (congrArg (BlockCall.block address).returned hout) hafter
  | data address =>
    obtain ⟨hout, position', hafter⟩ := h.read_eq hsize hblock address position
    refine ⟨position', (BlockCall.perform_eq r.blocks (.data address) _).trans ?_⟩
    exact Prod.ext (congrArg (BlockCall.data address).returned hout) hafter
  | into address buffer =>
    obtain ⟨position', hinto⟩ := h.readInto_eq hsize hblock address position buffer
    refine ⟨position', ?_⟩
    unfold perform outcome after
    dsimp only [BlockCall.address]
    rw [hinto]
    cases blockOf image start.toNat blockSize address <;> rfl

/-- **Any calls** give slices of the source, whatever position the stream is at. -/
theorem performAll_eq (h : r.Reads image start blockSize) (hsize : image.size < 2 ^ 64)
    (hblock : 0 < blockSize) (calls : List BlockCall) (position : UInt64) :
    ∃ position', r.performAll calls ⟨image, position⟩
      = (calls.map fun call => call.returned (blockOf image start.toNat blockSize call.address),
          ⟨image, position'⟩) := by
  -- On the calls; what they leave of the stream is only its position.
  induction calls generalizing position with
  | nil => exact ⟨position, rfl⟩
  | cons call calls ih =>
    obtain ⟨moved, hcall⟩ := h.perform_eq hsize hblock call position
    obtain ⟨position', hcalls⟩ := ih moved
    refine ⟨position', ?_⟩
    rw [performAll, hcall]
    dsimp only
    rw [hcalls, List.map_cons]

end Reads

/-- **Block reads are exact.**  A source may be opened at any position, possibly past its end.  All
    calls of any run then give the slices of the source that blocks are, and those for which the
    source is too short give that error and leave the buffer of the caller alone.  The position of a
    block that there is can be computed with 64 bits. -/
theorem ofStream_performAll {image : ByteArray} (start : UInt64) {blockSize : Nat}
    (hsize : image.size < 2 ^ 64) (hblock : 0 < blockSize) :
    ∃ r : StreamReader, ofStream blockSize ⟨image, start⟩ = .ok r ⟨image, start⟩ ∧
      (∀ calls : List BlockCall, (r.performAll calls ⟨image, start⟩).1 =
        calls.map fun call =>
          call.returned (blockOf image start.toNat blockSize call.address)) ∧
      ∀ address : BlockAddress,
        start.toNat + (address.value.toNat + 1) * blockSize ≤ image.size →
        address.value.toNat * blockSize < 2 ^ 64 ∧
          (r.position address).toNat = start.toNat + address.value.toNat * blockSize ∧
          ∃ data, blockOf image start.toNat blockSize address = .ok data ∧
            data.size = blockSize := by
  obtain ⟨r, hopen, hreads⟩ := ofStream_eq start hsize hblock
  refine ⟨r, hopen, fun calls => ?_, fun address hfits => ⟨?_, ?_, ?_⟩⟩
  · obtain ⟨position', hcalls⟩ := hreads.performAll_eq hsize hblock calls start
    rw [hcalls]
  · rw [Nat.add_mul, Nat.one_mul] at hfits
    omega
  · rw [StreamReader.position, hreads.start_eq, hreads.blockSize_eq, toNat_position hsize hfits]
  · exact ⟨_, if_pos hfits, size_of_blockOf (if_pos hfits)⟩

/-- Five bytes from the second on, in blocks of two. -/
theorem ofStream_performAll_pairs :
    let image : ByteArray := ⟨#[0, 1, 2, 3, 4, 5]⟩
    let buffer : ByteArray := ⟨#[9]⟩
    ∃ r, ofStream 2 ⟨image, 1⟩ = .ok r ⟨image, 1⟩ ∧
      (r.performAll [.data ⟨1⟩, .into ⟨2⟩ buffer, .into ⟨0⟩ buffer] ⟨image, 1⟩).1 =
        [.data (.ok ⟨#[3, 4]⟩), .into (.error (.blockOutOfBounds ⟨2⟩)) buffer,
          .into (.ok ()) ⟨#[1, 2]⟩] := by
  intro image buffer
  have hsize : image.size < 2 ^ 64 := by decide
  have hblock : 0 < 2 := by decide
  obtain ⟨r, hopen, hcalls, -⟩ := ofStream_performAll 1 hsize hblock
  exact ⟨r, hopen, (hcalls _).trans rfl⟩

end StreamReader

end Apfs
