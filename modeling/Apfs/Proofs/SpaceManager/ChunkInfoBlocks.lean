import Apfs.Proofs.Block.StreamReading
import Apfs.Proofs.Layout.Structures
import Apfs.Proofs.Object.Sealing

namespace Apfs

/-!
# Chunk information blocks are read whole

The number of entries in the header is not trusted: a block is accepted only if it is long enough
for all of them, and then each is decoded from its own bytes.  A block that was written is accepted
and holds what was written.

* `decode_chunkInfoHeader` — the header in front, as numbers in the bytes.
* `ofBlock_eq_ok_iff` — the blocks that are accepted, and their entries.
* `ChunkInfoBlock.write` — a block as it is written: header, entries and checksum.
* `ChunkInfoBlock.outcome_readAt` — reading a block from a stream.
* `ChunkInfoBlock.ofBlock_iff_and_write` — blocks are accepted and decoded exactly.
-/

open Bytes

/-! ### Headers -/

/-- The fields of a header that decide about a block are numbers in its bytes, and the header of the
    object is in front. -/
theorem decode_chunkInfoHeader {data : ByteArray} {header : ChunkInfoHeader}
    (h : decode data = .ok header) :
    decode data = .ok header.object ∧ header.object.type.word.toNat = number data 24 28 ∧
      header.object.subtype.word.toNat = number data 28 32 ∧
      header.count.toNat = number data 36 40 := by
  obtain ⟨hsize, rfl⟩ := decode_eq_ok_iff.mp h
  have hsize : 40 ≤ data.size := hsize
  have hbytes : (data.extract 0 40).toList = data.toList.take 40 := Bytes.toList_extract data 0 40
  have hword {start stop : Nat} (hstop : stop = start + 4) :
      (UInt32.ofNat (number data start stop)).toNat = number data start stop :=
    UInt32.toNat_ofNat_of_lt' (by
      have hlt := number_lt data start stop
      rw [hstop, Nat.add_sub_cancel_left] at hlt
      rw [hstop]
      exact hlt)
  have htype : (((((data.extract 0 40).toList.take 32).drop 8).drop 8).drop 8).take 4
      = (data.extract 24 28).toList := by
    simp [hbytes, Bytes.toList_extract, List.drop_take, List.take_take]
  have hsubtype : (((((data.extract 0 40).toList.take 32).drop 8).drop 8).drop 8).drop 4
      = (data.extract 28 32).toList := by
    simp [hbytes, Bytes.toList_extract, List.drop_take, List.take_take]
  have hcount : ((data.extract 0 40).toList.drop 32).drop 4 = (data.extract 36 40).toList := by
    simp [hbytes, Bytes.toList_extract, List.drop_take]
  have hobject : (data.extract 0 40).toList.take 32 = (data.extract 0 32).toList := by
    simp [hbytes, Bytes.toList_extract, List.take_take]
  refine ⟨decode_eq_ok_iff.mpr ⟨?_, ?_⟩, ?_, ?_, ?_⟩
  · show 32 ≤ data.size
    omega
  · show Layout.ofBytes (data.extract 0 32).toList = _
    rw [← hobject]
    rfl
  · rw [← hword rfl, number, ← htype]
    rfl
  · rw [← hword rfl, number, ← hsubtype]
    rfl
  · rw [← hword rfl, number, ← hcount]
    rfl

namespace ChunkInfoBlock

/-! ### Acceptance -/

/-- The pieces behind the header are those of the block. -/
theorem take_wholePieces_eq {data : ByteArray} {count : Nat} (h : neededSize count ≤ data.size) :
    (wholePieces (data.extract (Layout.size ChunkInfoHeader) data.size)
        (Layout.size ChunkInfo)).take count
      = (List.range count).map fun i => data.extract (40 + 32 * i) (72 + 32 * i) := by
  have hfits : 40 + count * 32 ≤ data.size := h
  have hrest : count * 32 ≤ (data.extract 40 data.size).size := by
    rw [ByteArray.size_extract]
    omega
  have hwidth : 0 < Layout.size ChunkInfo := by decide
  refine (take_wholePieces hwidth hrest).trans ?_
  apply List.map_congr_left
  intro i hi
  have hi := List.mem_range.mp hi
  have hstart : 40 + i * 32 = 40 + 32 * i := by omega
  have hstop : min (40 + (i + 1) * 32) data.size = 72 + 32 * i := by omega
  show (data.extract 40 data.size).extract (i * 32) ((i + 1) * 32) = _
  rw [ByteArray.extract_extract, hstart, hstop]

/-- **The blocks that are accepted**, and what they hold: as many entries as the header says, each
    decoded from the bytes where it stands. -/
theorem ofBlock_eq_ok_iff {block : Block} {c : ChunkInfoBlock} :
    ofBlock block = .ok c ↔
      verifyChecksum block.data = .ok () ∧ decode block.data = .ok c.header ∧
        c.header.object.type = typeWord ∧ c.header.object.subtype = ⟨0⟩ ∧
        neededSize c.header.count.toNat ≤ block.data.size ∧
        List.Forall₂
          (fun i entry => decode (block.data.extract (40 + 32 * i) (72 + 32 * i)) = .ok entry)
          (List.range c.header.count.toNat) c.entries := by
  unfold ofBlock
  simp only [sequence_eq_ok_iff, guarded_eq_ok_iff, expectWords_eq_ok_iff, Nat.not_lt, Block.verify]
  constructor
  · rintro ⟨_, hverify, object, ⟨hobject, htype, hsubtype⟩, header, hheader, hfits, entries,
      hentries, hc⟩
    cases hc
    rw [take_wholePieces_eq hfits, mapM_eq_ok_iff, List.forall₂_map_left_iff] at hentries
    rw [(decode_chunkInfoHeader hheader).1] at hobject
    cases hobject
    exact ⟨hverify, hheader, htype, hsubtype, hfits, hentries⟩
  · rintro ⟨hverify, hheader, htype, hsubtype, hfits, hentries⟩
    refine ⟨(), hverify, c.header.object, ⟨(decode_chunkInfoHeader hheader).1, htype, hsubtype⟩,
      c.header, hheader, hfits, c.entries, ?_, rfl⟩
    rw [take_wholePieces_eq hfits, mapM_eq_ok_iff, List.forall₂_map_left_iff]
    exact hentries

/-- A block is accepted if its checksum and the numbers in its header are good. -/
theorem exists_ofBlock_iff (block : Block) :
    (∃ c, ofBlock block = .ok c) ↔
      verifyChecksum block.data = .ok () ∧ number block.data 24 28 = 0x40000007 ∧
        number block.data 28 32 = 0 ∧
        40 + 32 * number block.data 36 40 ≤ block.data.size := by
  have htypeWord : typeWord.word.toNat = 0x40000007 := by decide
  constructor
  · rintro ⟨c, hc⟩
    obtain ⟨hverify, hheader, htype, hsubtype, hfits, -⟩ := ofBlock_eq_ok_iff.mp hc
    obtain ⟨-, htypeNumber, hsubtypeNumber, hcount⟩ := decode_chunkInfoHeader hheader
    have hfits : 40 + c.header.count.toNat * 32 ≤ block.data.size := hfits
    rw [← htypeNumber, ← hsubtypeNumber, ← hcount, htype, hsubtype]
    exact ⟨hverify, htypeWord, rfl, by omega⟩
  · rintro ⟨hverify, htype, hsubtype, hfits⟩
    have hlarge : Layout.size ChunkInfoHeader ≤ block.data.size := by
      show 40 ≤ block.data.size
      omega
    obtain ⟨header, hheader, -⟩ := exists_decode hlarge
    obtain ⟨-, htypeNumber, hsubtypeNumber, hcount⟩ := decode_chunkInfoHeader hheader
    -- Each entry has all of its bytes, so that it can be decoded.
    have hentry (i : Nat) (hi : i < header.count.toNat) :
        ∃ entry : ChunkInfo,
          decode (block.data.extract (40 + 32 * i) (72 + 32 * i)) = .ok entry := by
      have hpiece : Layout.size ChunkInfo
          ≤ (block.data.extract (40 + 32 * i) (72 + 32 * i)).size := by
        rw [ByteArray.size_extract]
        show 32 ≤ _
        omega
      obtain ⟨entry, hentry, -⟩ := exists_decode hpiece
      exact ⟨entry, hentry⟩
    choose! entryAt hentryAt using hentry
    refine ⟨⟨header, (List.range header.count.toNat).map entryAt⟩,
      ofBlock_eq_ok_iff.mpr ⟨hverify, hheader, ?_, ?_, ?_, ?_⟩⟩
    · exact congrArg TypeWord.mk
        (UInt32.toNat_inj.mp (htypeNumber.trans (htype.trans htypeWord.symm)))
    · exact congrArg TypeWord.mk (UInt32.toNat_inj.mp (hsubtypeNumber.trans hsubtype))
    · show 40 + header.count.toNat * 32 ≤ _
      omega
    · rw [List.forall₂_map_right_iff, List.forall₂_same]
      exact fun i hi => hentryAt i (List.mem_range.mp hi)

/-- What an accepted block holds, by the place of each entry. -/
theorem entries_of_ofBlock {block : Block} {c : ChunkInfoBlock} (h : ofBlock block = .ok c) :
    decode block.data = .ok c.header ∧ c.entries.length = number block.data 36 40 ∧
      ∀ i (hi : i < c.entries.length),
        decode (block.data.extract (40 + 32 * i) (72 + 32 * i)) = .ok c.entries[i] := by
  obtain ⟨-, hheader, -, -, -, hentries⟩ := ofBlock_eq_ok_iff.mp h
  obtain ⟨-, -, -, hcount⟩ := decode_chunkInfoHeader hheader
  obtain ⟨hlength, hentries⟩ := List.forall₂_iff_get.mp hentries
  rw [List.length_range] at hlength
  refine ⟨hheader, by omega, fun i hi => ?_⟩
  have hi' : i < (List.range c.header.count.toNat).length := by
    rw [List.length_range]
    omega
  have hentry := hentries i hi' hi
  rw [List.get_eq_getElem, List.getElem_range] at hentry
  exact hentry

/-! ### Writing -/

/-- The block with entries written to it, one after the other from an offset on. -/
def writeEntries (block : ByteArray) (offset : Nat) : List ChunkInfo → ByteArray
  | [] => block
  | entry :: entries =>
    writeEntries (overlay block offset (encoded entry)) (offset + Layout.size ChunkInfo) entries

/-- A block of `size` bytes with the header and the entries, sealed with its checksum. -/
def write (c : ChunkInfoBlock) (size : Nat) : Except Error ByteArray := do
  let block ← encode c.header (zeros size)
  let block := writeEntries block (Layout.size ChunkInfoHeader) c.entries
  encode (← computedChecksum block) block

/-- The block with a checksum in its header. -/
def withChecksum (c : ChunkInfoBlock) (checksum : UInt64) : ChunkInfoBlock :=
  { c with header := { c.header with object := { c.header.object with checksum } } }

/-- Entries are written side by side, and behind what stands in front of them. -/
theorem standsAt_writeEntries {entries : List ChunkInfo} {block : ByteArray} {offset : Nat}
    (hfits : offset + 32 * entries.length ≤ block.size) :
    (writeEntries block offset entries).size = block.size ∧
      (∀ start piece, StandsAt block start piece → start + piece.size ≤ offset →
        StandsAt (writeEntries block offset entries) start piece) ∧
      ∀ i (hi : i < entries.length),
        StandsAt (writeEntries block offset entries) (offset + 32 * i) (encoded entries[i]) := by
  induction entries generalizing block offset with
  | nil => exact ⟨rfl, fun _ _ h _ => h, fun i hi => absurd hi (Nat.not_lt_zero i)⟩
  | cons entry entries ih =>
    have hsize : (encoded entry).size = 32 := size_encoded entry
    rw [List.length_cons] at hfits
    have hfirst : offset + (encoded entry).size ≤ block.size := by omega
    have hover : (overlay block offset (encoded entry)).size = block.size := size_overlay hfirst
    obtain ⟨hwritten, hframe, hentries⟩ :=
      @ih (overlay block offset (encoded entry)) (offset + 32) (by omega)
    refine ⟨hwritten.trans hover, fun start piece hstands hbefore => ?_, fun i hi => ?_⟩
    · exact hframe start piece (hstands.overlay hfirst (.inr hbefore)) (by omega)
    · cases i with
      | zero =>
        exact hframe offset _ (standsAt_overlay hfirst) (Nat.add_le_add_left hsize.le offset)
      | succ i =>
        have hoffset : offset + 32 * (i + 1) = offset + 32 + 32 * i := by omega
        rw [hoffset]
        exact hentries i (Nat.lt_of_succ_lt_succ hi)

/-- What follows the checksum in the header. -/
def headerRest (c : ChunkInfoBlock) : ByteArray :=
  let { object, index, count } := c.header
  encoded object.identifier ++ encoded object.transaction ++ encoded object.type ++
    encoded object.subtype ++ encoded index ++ encoded count

/-- A checksum only changes the front of the header. -/
theorem encoded_withChecksum (c : ChunkInfoBlock) (checksum : UInt64) :
    encoded (c.withChecksum checksum).header = encoded checksum ++ c.headerRest := rfl

/-- **A block that was written is read back**, up to the checksum in its header. -/
theorem ofBlock_write {c : ChunkInfoBlock} {size : Nat} (htype : c.header.object.type = typeWord)
    (hsubtype : c.header.object.subtype = ⟨0⟩)
    (hcount : c.header.count.toNat = c.entries.length)
    (hfits : 40 + 32 * c.entries.length ≤ size) (hlength : size % 4 = 0)
    (address : BlockAddress) :
    ∃ written checksum, c.write size = .ok written ∧ written.size = size ∧
      computedChecksum written = .ok checksum ∧
      ofBlock ⟨address, written⟩ = .ok (c.withChecksum checksum) := by
  have hheader : (encoded c.header).size = 40 := size_encoded c.header
  have hroom : 0 + (encoded c.header).size ≤ (zeros size).size := by
    rw [size_zeros]
    omega
  let headed := overlay (zeros size) 0 (encoded c.header)
  have hheaded : headed.size = size := (size_overlay hroom).trans (size_zeros size)
  obtain ⟨hsize, hframe, hentries⟩ :=
    @standsAt_writeEntries c.entries headed 40 (by rw [hheaded]; omega)
  rw [hheaded] at hsize
  have hlarge : checksumSize ≤ (writeEntries headed 40 c.entries).size := by
    rw [hsize, checksumSize]
    omega
  obtain ⟨checksum, hseal, hchecksum, hverify⟩ :=
    exists_sealed hlarge (by rw [hsize]; exact hlength)
  have hwritten := size_sealedWith hlarge checksum
  rw [hsize] at hwritten
  refine ⟨_, checksum, ?_, hwritten, hchecksum, ofBlock_eq_ok_iff.mpr
    ⟨hverify, decode_of_standsAt ?_, htype, hsubtype, ?_, ?_⟩⟩
  · have hheader : encode c.header (zeros size) = .ok headed :=
      encode_eq_ok c.header (by rw [← size_encoded c.header]; omega)
    exact sequence_eq_ok_iff.mpr ⟨headed, hheader, hseal⟩
  · have hstands := hframe 0 _ (standsAt_overlay hroom) (by omega)
    exact standsAt_sealedWith_header hlarge checksum c.encoded_withChecksum hstands
  · show 40 + c.header.count.toNat * 32 ≤ _
    rw [hwritten, hcount]
    omega
  · rw [List.forall₂_iff_get]
    refine ⟨List.length_range.trans hcount, fun i hi hi' => ?_⟩
    rw [List.get_eq_getElem, List.getElem_range, List.get_eq_getElem]
    have hentry : (encoded c.entries[i]).size = 32 := size_encoded _
    have hstands := (hentries i hi').sealedWith hlarge checksum (by rw [checksumSize]; omega)
    have hstop : 40 + 32 * i + 0 + (encoded c.entries[i]).size ≤ 72 + 32 * i := by
      rw [hentry]
      omega
    exact decode_of_standsAt (@StandsAt.extract _ _ 0 _ (72 + 32 * i) hstands hstop)

/-! ### Reading from a stream -/

/-- **Reading at a position** accepts the bytes of the source there, if there are enough. -/
theorem outcome_readAt (s : ByteStream) (position : UInt64) :
    outcome (readAt position) s =
      if position.toNat + blockSize ≤ s.contents.size then
        ofBlock ⟨⟨position / .ofNat blockSize⟩,
          s.contents.extract position.toNat (position.toNat + blockSize)⟩
      else .error .shortRead := by
  let accept (data : ByteArray) : EStateM Error ByteStream ChunkInfoBlock :=
    lift (ofBlock ⟨⟨position / .ofNat blockSize⟩, data⟩)
  -- Where the stream was before does not matter.
  have hseek : outcome (readAt position) s
      = outcome (ByteStream.readExact blockSize >>= accept) ⟨s.contents, position⟩ := rfl
  rw [hseek, outcome_bind]
  by_cases hfits : position.toNat + blockSize ≤ s.contents.size
  · have hread := @ByteStream.readExact_of_le ⟨s.contents, position⟩ blockSize hfits
    rw [if_pos hfits, outcome, hread]
    exact outcome_lift ..
  · have hread := @ByteStream.readExact_of_lt ⟨s.contents, position⟩ blockSize (by decide)
      (Nat.lt_of_not_le hfits)
    rw [if_neg hfits, outcome, hread]

/-- **Chunk information blocks are accepted and decoded exactly.**  A block of any length is
    accepted if and only if its checksum verifies, its type and subtype are those of such blocks and
    it is long enough for the entries that its header counts.  It holds as many entries, each
    decoded from its own 32 bytes.  A block that was written, with a count that is that of its
    entries, is read back up to the checksum in its header.  A block in a stream is read as the
    bytes at its position. -/
theorem ofBlock_iff_and_write :
    (∀ block : Block, (∃ c, ofBlock block = .ok c) ↔
      verifyChecksum block.data = .ok () ∧ number block.data 24 28 = 0x40000007 ∧
        number block.data 28 32 = 0 ∧
        40 + 32 * number block.data 36 40 ≤ block.data.size) ∧
    (∀ (block : Block) (c : ChunkInfoBlock), ofBlock block = .ok c →
      decode block.data = .ok c.header ∧ c.entries.length = number block.data 36 40 ∧
        ∀ i (hi : i < c.entries.length),
          decode (block.data.extract (40 + 32 * i) (72 + 32 * i)) = .ok c.entries[i]) ∧
    (∀ (c : ChunkInfoBlock) (size : Nat) (address : BlockAddress),
      c.header.object.type = typeWord → c.header.object.subtype = ⟨0⟩ →
      c.header.count.toNat = c.entries.length → 40 + 32 * c.entries.length ≤ size →
      size % 4 = 0 →
      ∃ written checksum, c.write size = .ok written ∧ written.size = size ∧
        computedChecksum written = .ok checksum ∧
        ofBlock ⟨address, written⟩ = .ok (c.withChecksum checksum)) ∧
    ∀ (s : ByteStream) (position : UInt64),
      outcome (readAt position) s =
        if position.toNat + 4096 ≤ s.contents.size then
          ofBlock ⟨⟨position / 4096⟩,
            s.contents.extract position.toNat (position.toNat + 4096)⟩
        else .error .shortRead := by
  refine ⟨exists_ofBlock_iff, fun block c h => entries_of_ofBlock h, ?_, outcome_readAt⟩
  intro c size address htype hsubtype hcount hfits hlength
  exact ofBlock_write htype hsubtype hcount hfits hlength address

/-- Two entries in a block of 108 bytes, of which the second is read from its own bytes, and a
    position at which a stream is too short. -/
theorem ofBlock_iff_and_write_twoEntries :
    let header : ChunkInfoHeader := ⟨⟨0, ⟨0x404⟩, ⟨3⟩, typeWord, ⟨0⟩⟩, 2, 2⟩
    let first : ChunkInfo := ⟨⟨10⟩, ⟨0x8000⟩, 0x8000, 100, ⟨0x500⟩⟩
    let second : ChunkInfo := ⟨⟨11⟩, ⟨0x10000⟩, 0x7000, 0, ⟨0x501⟩⟩
    let c : ChunkInfoBlock := ⟨header, [first, second]⟩
    (∃ written checksum, c.write 108 = .ok written ∧ written.size = 108 ∧
      computedChecksum written = .ok checksum ∧
      ofBlock ⟨⟨7⟩, written⟩ = .ok (c.withChecksum checksum) ∧
      decode (written.extract 72 104) = .ok second) ∧
      outcome (readAt 0xffffffffffffffff) ⟨⟨#[1, 2]⟩, 0⟩ = .error .shortRead := by
  intro header first second c
  obtain ⟨-, hdecoded, hwrite, hread⟩ := ofBlock_iff_and_write
  constructor
  · obtain ⟨written, checksum, hwritten, hsize, hchecksum, hblock⟩ :=
      hwrite c 108 ⟨7⟩ rfl rfl rfl (by decide) (by decide)
    obtain ⟨-, -, hentries⟩ := hdecoded _ _ hblock
    exact ⟨written, checksum, hwritten, hsize, hchecksum, hblock, hentries 1 (Nat.lt_succ_self 1)⟩
  · exact (hread ⟨⟨#[1, 2]⟩, 0⟩ _).trans (if_neg (by decide))

end ChunkInfoBlock

end Apfs
