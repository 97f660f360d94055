import Apfs.Block.Basic
import Apfs.Proofs.Layout.Lossless

namespace Apfs

/-!
# Objects with their checksums

An object gets its checksum in front when everything else has been written to it.  The checksum is
not taken of its own bytes, so the object then holds its own checksum.

* `expectWords_eq_ok_iff`, `expectTypes_eq_ok_iff` — objects that have the wanted types.
* `sealObject` — writes the checksum of an object in front of it.
* `sealedWith` — an object with a checksum in front; what stands behind it stays, and of a header
  only the checksum changes.
* `exists_sealed` — an object with its own checksum in front verifies.
-/

/-! ### Types -/

/-- A header is given if its types are the wanted ones. -/
theorem expectWords_eq_ok_iff {block : Block} {type subtype : TypeWord} {header : ObjectHeader} :
    block.expectWords type subtype = .ok header ↔
      decode block.data = .ok header ∧ header.type = type ∧ header.subtype = subtype := by
  simp only [Block.expectWords, sequence_eq_ok_iff, guarded_eq_ok_iff, not_not, Block.header]
  constructor
  · rintro ⟨_, hheader, htype, hsubtype, heq⟩
    cases heq
    exact ⟨hheader, htype, hsubtype⟩
  · rintro ⟨hheader, htype, hsubtype⟩
    exact ⟨header, hheader, htype, hsubtype, rfl⟩

/-- A header is given if its type is among those that are allowed and its subtype the wanted one,
    whatever their flags are. -/
theorem expectTypes_eq_ok_iff {block : Block} {allowed : List ObjectType} {subtype : ObjectType}
    {header : ObjectHeader} :
    block.expectTypes allowed subtype = .ok header ↔
      decode block.data = .ok header ∧ header.type.objectType ∈ allowed ∧
        header.subtype.objectType = subtype := by
  simp only [Block.expectTypes, sequence_eq_ok_iff, guarded_eq_ok_iff, not_not, Block.header]
  constructor
  · rintro ⟨_, hheader, htype, hsubtype, heq⟩
    cases heq
    exact ⟨hheader, htype, hsubtype⟩
  · rintro ⟨hheader, htype, hsubtype⟩
    exact ⟨header, hheader, htype, hsubtype, rfl⟩

/-! ### Checksums -/

/-- Writes the checksum of an object in front of it. -/
def sealObject (object : ByteArray) : Except Error ByteArray := do
  encode (← computedChecksum object) object

/-- The object with a checksum in front. -/
def sealedWith (object : ByteArray) (checksum : UInt64) : ByteArray :=
  Bytes.overlay object 0 (encoded checksum)

section

variable {object : ByteArray} (hlarge : checksumSize ≤ object.size) (checksum : UInt64)
include hlarge

theorem size_sealedWith : (sealedWith object checksum).size = object.size :=
  Bytes.size_overlay (by rw [size_encoded, Nat.zero_add]; exact hlarge)

theorem standsAt_sealedWith : Bytes.StandsAt (sealedWith object checksum) 0 (encoded checksum) :=
  Bytes.standsAt_overlay (by rw [size_encoded, Nat.zero_add]; exact hlarge)

/-- What stands behind the checksum stays when it is written. -/
theorem Bytes.StandsAt.sealedWith {offset : Nat} {piece : ByteArray}
    (h : Bytes.StandsAt object offset piece) (hoffset : checksumSize ≤ offset) :
    Bytes.StandsAt (sealedWith object checksum) offset piece := by
  have hsize : 0 + (encoded checksum).size = checksumSize := by
    rw [size_encoded, Nat.zero_add]
    rfl
  exact h.overlay (by rw [hsize]; exact hlarge) (.inl (by rw [hsize]; exact hoffset))

/-- A header that starts with the checksum only changes there. -/
theorem standsAt_sealedWith_header {header : UInt64 → ByteArray} {rest : ByteArray} {old : UInt64}
    (hheader : ∀ checksum, header checksum = encoded checksum ++ rest)
    (h : Bytes.StandsAt object 0 (header old)) :
    Bytes.StandsAt (sealedWith object checksum) 0 (header checksum) := by
  rw [hheader, Bytes.standsAt_append, size_encoded] at h ⊢
  exact ⟨standsAt_sealedWith hlarge checksum, h.2.sealedWith hlarge checksum (Nat.le_refl 8)⟩

/-- **Sealing.**  An object that gets its checksum in front verifies. -/
theorem exists_sealed (hlength : object.size % 4 = 0) :
    ∃ checksum, sealObject object = .ok (sealedWith object checksum) ∧
      computedChecksum (sealedWith object checksum) = .ok checksum ∧
      verifyChecksum (sealedWith object checksum) = .ok () := by
  have hrest : (object.extract checksumSize object.size).size % 4 = 0 := by
    rw [ByteArray.size_extract, checksumSize]
    omega
  obtain ⟨checksum, hchecksum⟩ : ∃ checksum, computedChecksum object = .ok checksum := by
    rw [computedChecksum, if_neg (Nat.not_lt.mpr hlarge), Checksum.fletcher64, if_pos hrest]
    exact ⟨_, rfl⟩
  obtain ⟨written, hwritten, hsize, hsame, -, hdecode⟩ := exists_encode checksum hlarge
  obtain rfl : sealedWith object checksum = written := by
    rw [encode_eq_ok checksum hlarge] at hwritten
    exact Except.ok.inj hwritten
  -- The bytes behind the checksum, of which it is taken, are still the same.
  have hcomputed : computedChecksum (sealedWith object checksum) = .ok checksum := by
    have hsame : (sealedWith object checksum).extract checksumSize
        (sealedWith object checksum).size = object.extract checksumSize object.size := hsame
    rw [← hchecksum, computedChecksum, computedChecksum, hsame, hsize]
  refine ⟨checksum, sequence_eq_ok_iff.mpr ⟨checksum, hchecksum, hwritten⟩, hcomputed, ?_⟩
  have hstored : storedChecksum (sealedWith object checksum) = .ok checksum := by
    rw [storedChecksum, if_neg (by omega)]
    exact congrArg Except.ok (decode_eq_ok_iff.mp hdecode).2
  rw [verifyChecksum, hstored, hcomputed]
  exact if_neg (not_not.mpr rfl)

end

end Apfs
