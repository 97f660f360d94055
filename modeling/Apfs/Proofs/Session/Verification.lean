import Apfs.Proofs.Session.Agreement

namespace Apfs

/-!
# Blocks that fail verification do not count

Two images may differ in blocks that fail verification on both.  Requests that verify all that they
read cannot tell these images apart, but for the checksums in an error message.

* `SameError` — equal errors, whatever checksums they carry.
* `Device.Twin` — two devices that differ only in blocks that fail verification.
* `error_of_verifyChecksum` — why a block fails verification.
* `sameUpTo_serveAll` — requests that verify what they read get the same responses on twins.
-/

/-- The same error, whatever checksums were found. -/
inductive SameError : Error → Error → Prop
  /-- The errors are equal. -/
  | refl (e : Error) : SameError e e
  /-- Both times the checksum of a block was wrong. -/
  | checksum (stored computed stored' computed' : UInt64) :
    SameError (.checksumMismatch stored computed) (.checksumMismatch stored' computed')

instance : Std.Refl SameError := ⟨.refl⟩

/-! ### Verification -/

/-- A block fails verification because of its size, or because its checksum is wrong. -/
theorem error_of_verifyChecksum {data : ByteArray} {e : Error}
    (h : verifyChecksum data = .error e) :
    if data.size < checksumSize then e = .argument .objectTooShort
    else if (data.size - checksumSize) % 4 ≠ 0 then e = .argument .checksumLength
    else ∃ stored computed, e = .checksumMismatch stored computed := by
  have hsize : (data.extract checksumSize data.size).size = data.size - checksumSize := by simp
  unfold verifyChecksum storedChecksum computedChecksum Checksum.fletcher64 at h
  rw [hsize] at h
  by_cases hshort : data.size < checksumSize
  · rw [if_pos hshort] at h ⊢
    exact (Except.error.inj h).symm
  · rw [if_neg hshort] at h ⊢
    by_cases hlength : (data.size - checksumSize) % 4 = 0
    · rw [if_neg (not_not.mpr hlength)]
      rw [if_neg hshort, if_pos hlength] at h
      simp only [bind, Except.bind] at h
      split at h
      · exact ⟨_, _, (Except.error.inj h).symm⟩
      · cases h
    · rw [if_pos hlength]
      rw [if_neg hshort, if_neg hlength] at h
      exact (Except.error.inj h).symm

/-- Data of the same size fails verification with the same error. -/
theorem sameError_of_verifyChecksum {data data' : ByteArray} {e e' : Error}
    (hsize : data.size = data'.size) (h : verifyChecksum data = .error e)
    (h' : verifyChecksum data' = .error e') : SameError e e' := by
  have he := error_of_verifyChecksum h
  have he' := error_of_verifyChecksum h'
  rw [← hsize] at he'
  split at he
  · rw [if_pos ‹_›] at he'
    rw [he, he']
    exact .refl _
  · rw [if_neg ‹_›] at he'
    split at he
    · rw [if_pos ‹_›] at he'
      rw [he, he']
      exact .refl _
    · rw [if_neg ‹_›] at he'
      obtain ⟨stored, computed, rfl⟩ := he
      obtain ⟨stored', computed', rfl⟩ := he'
      exact .checksum ..

/-! ### Devices -/

namespace Device

/-- The block can be read, but it fails verification. -/
def Spoiled (d : Device) (address : BlockAddress) : Prop :=
  ∃ data e, d.read address = .ok data ∧ verifyChecksum data = .error e

/-- The devices have as many blocks, of the same size, and each block is the same on both or fails
    verification on both. -/
structure Twin (d d' : Device) : Prop where
  /-- The blocks have the same size. -/
  blockSize : d.blockSize = d'.blockSize
  /-- There are as many blocks. -/
  blockCount : d.blockCount = d'.blockCount
  /-- Each block is the same, or fails verification on both. -/
  blocks : ∀ address : BlockAddress, address.value < d.blockCount →
    d.read address = d'.read address ∨ d.Spoiled address ∧ d'.Spoiled address

/-- A block that is read has the size of blocks. -/
theorem size_of_read {d : Device} {address : BlockAddress} {data : ByteArray}
    (h : d.read address = .ok data) : data.size = d.blockSize := by
  unfold read at h
  split at h
  · cases hslice : Bytes.slice? d.image (d.position address).toNat d.blockSize with
    | none => simp [hslice] at h
    | some slice =>
      rw [hslice] at h
      cases h
      unfold Bytes.slice? at hslice
      split at hslice
      · next hle =>
        rw [← Option.some.inj hslice, ByteArray.size_extract]
        omega
      · cases hslice
  · cases h

theorem outcome_readVerified (d : Device) (address : BlockAddress) (s : Unit) :
    outcome (d.reader.readVerified address) s = (do
      let data ← d.read address
      verifyChecksum data
      return ⟨address, data⟩) := by
  unfold BlockReader.readVerified BlockReader.readBlock reader
  simp only [outcome_bind, outcome_lift, after_bind, after_lift, outcome_pure, after_pure]
  cases d.read address with
  | error e => rfl
  | ok data =>
    simp only [bind, Except.bind, Block.verify]
    cases verifyChecksum data <;> rfl

/-- Twins are alike in what is verified. -/
theorem Twin.alikeVerified {d d' : Device} (h : d.Twin d') :
    d.source.AlikeVerified SameError d'.source := by
  rintro address s t -
  refine ⟨?_, trivial, trivial⟩
  show SameUpTo SameError (outcome (d.reader.readVerified address) s)
    (outcome (d'.reader.readVerified address) t)
  rw [outcome_readVerified, outcome_readVerified]
  by_cases hlt : address.value < d.blockCount
  · rcases h.blocks address hlt with heq | ⟨⟨data, e, hread, hfail⟩, data', e', hread', hfail'⟩
    · rw [heq]
      exact .of_eq rfl
    · -- Blocks of one size fail verification for the same reason.
      have hsize : data.size = data'.size := by
        rw [size_of_read hread, size_of_read hread', h.blockSize]
      rw [hread, hread']
      simp only [bind, Except.bind, hfail, hfail']
      exact .error (sameError_of_verifyChecksum hsize hfail hfail')
  · -- Neither device has the block.
    have hread : d.read address = .error (.blockOutOfBounds address) := if_neg hlt
    have hread' : d'.read address = .error (.blockOutOfBounds address) :=
      if_neg (h.blockCount ▸ hlt)
    rw [hread, hread']
    exact .of_eq rfl

end Device

/-- **Blocks that fail verification do not count.**  On two devices that differ only in such
    blocks, requests that verify what they read show the same, and give the same answers or fail
    with the same error, whatever checksums it carries. -/
theorem sameUpTo_serveAll {d d' : Device} (h : d.Twin d') (s : Settings) {requests : List Request}
    (hverifies : ∀ request ∈ requests, request.Verifies) :
    List.Forall₂ (Response.SameUpTo SameError)
      (s.serveAll (s.cached d.reader) requests (((), .empty), [])).1
      (s.serveAll (s.cached d'.reader) requests (((), .empty), [])).1 := by
  have halike : (s.source d).AlikeVerified SameError (s.source d') := h.alikeVerified.cached _ _
  exact (related_serveAll rfl halike (.inl hverifies) (related_devices s s d d')).1

/-! Two devices with a block that is good on both, and one that is not. -/

/-- The device with a good block and another one. -/
def goodAnd (other : List UInt8) : Device where
  image := ⟨(([0xfd, 0xff, 0xff, 0xff, 1, 0, 0, 0, 1, 0, 0, 0] : List UInt8) ++ other).toArray⟩
  start := 0
  blockSize := 12
  blockCount := 2

/-- What the bad block holds makes no difference. -/
theorem sameUpTo_goodAnd :
    List.Forall₂ (Response.SameUpTo SameError)
      (({} : Settings).serveAll (({} : Settings).cached (goodAnd (.replicate 12 0)).reader)
        [.readVerified ⟨0⟩, .openResolver ⟨1⟩] (((), .empty), [])).1
      (({} : Settings).serveAll (({} : Settings).cached (goodAnd (.replicate 12 7)).reader)
        [.readVerified ⟨0⟩, .openResolver ⟨1⟩] (((), .empty), [])).1 := by
  have htwin : (goodAnd (.replicate 12 0)).Twin (goodAnd (.replicate 12 7)) := by
    refine ⟨rfl, rfl, fun ⟨value⟩ hlt => ?_⟩
    have hvalue : value = 0 ∨ value = 1 := by
      have hlt : value < 2 := hlt
      simp only [UInt64.lt_iff_toNat_lt, ← UInt64.toNat_inj] at hlt ⊢
      have htwo : (2 : UInt64).toNat = 2 := rfl
      have hzero : (0 : UInt64).toNat = 0 := rfl
      have hone : (1 : UInt64).toNat = 1 := rfl
      omega
    rcases hvalue with rfl | rfl
    · exact .inl rfl
    · have hzeros : verifyChecksum ⟨(List.replicate 12 (0 : UInt8)).toArray⟩
          = .error (.checksumMismatch 0 18446744073709551615) := by cbv
      have hsevens : verifyChecksum ⟨(List.replicate 12 (7 : UInt8)).toArray⟩
          = .error (.checksumMismatch 506381209866536711 506381213807800817) := by cbv
      exact .inr ⟨⟨_, _, rfl, hzeros⟩, _, _, rfl, hsevens⟩
  refine sameUpTo_serveAll htwin {} fun request hrequest => ?_
  rcases List.mem_pair.mp hrequest with rfl | rfl <;> trivial

end Apfs
