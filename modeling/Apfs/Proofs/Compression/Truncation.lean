import Apfs.Compression.Zlib
import Apfs.Proofs.Compression.Streams

namespace Apfs.Deflate

/-!
# Decoding with too little room

A zlib stream that is decoded with too little room gives the first bytes of what it stands for,
with one exception: where the output ends inside the last copy, the end of the last block is
reached all the same, and the checksum in the stream is compared with that of the bytes for which
there was room.

* `zlibBody`, `zlibTrailer_eq` — what comes after the header, and the comparison of checksums.
* `inflateZlib_eq` — what decoding with any room gives.
* `returns_extract_iff` — any buffer receives the first bytes, with that exception.
-/

/-! ### Header and trailer -/

/-- A header is two bytes without a fault. -/
theorem reads_zlibHeader :
    Reads .lowFirst Inflater.zlibHeader fun p _ w => ∃ header : ByteArray, header.size = 2 ∧
      zlibFault? (Bytes.get header 0) (Bytes.get header 1) = none ∧
      ∃ pad, pad.length = padding p ∧ w = pad ++ BitOrder.lowFirst.stream header := by
  refine Reads.congr (Reads.bind (H := fun header _ _ w =>
    zlibFault? (Bytes.get header 0) (Bytes.get header 1) = none ∧ w = [])
    (reads_takeBytes .lowFirst 2) fun header => ?_) fun p a w => ?_
  · cases zlibFault? (Bytes.get header 0) (Bytes.get header 1) with
    | none => exact (Reads.pure ()).congr fun p a w => by simp
    | some fault => exact (Reads.throw _).congr fun p a w => by simp
  constructor
  · rintro ⟨header, u, _, ⟨hsize, hu⟩, ⟨hfault, rfl⟩, rfl⟩
    rw [List.append_nil]
    exact ⟨header, hsize, hfault, hu⟩
  · rintro ⟨header, hsize, hfault, hw⟩
    exact ⟨header, w, [], ⟨hsize, hw⟩, ⟨hfault, rfl⟩, (List.append_nil w).symm⟩

/-- What comes after the header: the blocks, and the trailer if the end of the last one is
    reached. -/
def zlibBody (n : Nat) : Inflating Unit := do
  if (← Inflater.blocks n) = .reached then Inflater.zlibTrailer

/-- The header does not depend on the room that there is for the output. -/
theorem inflateZlib_of_header {data : ByteArray}
    (h : Inflater.zlibHeader (.atBit data .lowFirst 0) = .ok () (.atBit data .lowFirst 16))
    (n : Nat) : inflateZlib data n = leftBy (zlibBody n (state n data 16 [])) := by
  have hstream : Inflater.zlibStream n (state n data 0 []) = zlibBody n (state n data 16 []) :=
    reading_bind_of_ok h fun _ => zlibBody n
  rw [inflateZlib, decodeAll_eq _ data n, hstream]

/-- Where decoding succeeds with some room, there is a header. -/
theorem header_of_inflateZlib {data D : ByteArray} {cap : Nat}
    (h : inflateZlib data cap = .ok D) :
    16 ≤ 8 * data.size ∧
      Inflater.zlibHeader (.atBit data .lowFirst 0) = .ok () (.atBit data .lowFirst 16) ∧
      ∃ s', zlibBody cap (state cap data 16 []) = .ok () s' ∧ s'.output = D := by
  rw [inflateZlib, decodeAll_eq _ data cap] at h
  cases hresult : Inflater.zlibStream cap (state cap data 0 []) with
  | ok u s' =>
    rw [hresult] at h
    obtain ⟨_, w, hw, hcomes, hs⟩ :=
      (reading_bind_eq_ok_iff reads_zlibHeader (Nat.zero_le _)).mp hresult
    have hlen : 0 + w.length = 16 := by
      obtain ⟨header, hsize, -, pad, hpad, rfl⟩ := hw
      rw [List.length_append, hpad, BitOrder.length_stream, hsize]
      rfl
    have hheader := (reads_zlibHeader (Nat.zero_le _) () _).mpr ⟨w, hw, hcomes, rfl⟩
    have hle := le_of_isPrefix (Nat.zero_le _) hcomes
    rw [hlen] at hheader hle hs
    exact ⟨hle, hheader, s', hs, congrArg Decoded.output h⟩
  | error e s' =>
    rw [hresult] at h
    cases congrArg Decoded.outcome h

/-- The checksum in the trailer is compared with that of the bytes for which there was room. -/
theorem zlibTrailer_eq {data : ByteArray} {p : Nat} {trailer : ByteArray} {r : BitReader}
    (h : BitReader.takeBytes 4 (.atBit data .lowFirst p) = .ok trailer r) (n : Nat)
    (l : List UInt8) :
    Inflater.zlibTrailer (state n data p l)
      = if UInt32.ofNat (Bytes.ofBigEndian trailer.toList) ≠ Checksum.adler32 (cut n l) then
          .error (.adlerMismatch (UInt32.ofNat (Bytes.ofBigEndian trailer.toList))
            (Checksum.adler32 (cut n l))) ⟨r, cut n l⟩
        else .ok () ⟨r, cut n l⟩ := by
  unfold Inflater.zlibTrailer
  rw [reading_bind_of_ok h]
  show (if UInt32.ofNat (Bytes.ofBigEndian trailer.toList) ≠ Checksum.adler32 (cut n l) then _
    else _ : Inflating Unit) _ = _
  split
  · rfl
  · rfl

/-- Where the trailer is accepted, its checksum is that of the output. -/
theorem exists_trailer {data : ByteArray} {p n : Nat} {l : List UInt8} {s' : Inflater}
    (h : Inflater.zlibTrailer (state n data p l) = .ok () s') :
    s'.output = cut n l ∧ ∃ trailer r,
      BitReader.takeBytes 4 (.atBit data .lowFirst p) = .ok trailer r ∧
        UInt32.ofNat (Bytes.ofBigEndian trailer.toList) = Checksum.adler32 (cut n l) := by
  cases hread : BitReader.takeBytes 4 (.atBit data .lowFirst p) with
  | ok trailer r =>
    rw [zlibTrailer_eq hread] at h
    split at h
    next => cases h
    next hsum =>
      cases h
      exact ⟨rfl, trailer, r, rfl, not_ne_iff.mp hsum⟩
  | error e r =>
    unfold Inflater.zlibTrailer at h
    rw [reading_bind_of_error hread] at h
    cases h

/-! ### Streams with a checksum -/

section

variable {data : ByteArray} {n : Nat} {blocks : List Block} {w : List Bool} {l : List UInt8}
  (hle : 16 ≤ 8 * data.size) (hbits : StreamBits 16 blocks w)
  (hcomes : w <+: (BitOrder.lowFirst.stream data).drop 16) (hexpand : expand blocks = some l)

include hle hbits hcomes hexpand

/-- The trailer is read where the end of the last block is reached. -/
theorem zlibBody_of_fits (hfits : Fits n 0 blocks) :
    zlibBody n (state n data 16 []) = Inflater.zlibTrailer (state n data (16 + w.length) l) := by
  have hblocks := ((decodes_blocks n).reached_iff hle).mpr
    ⟨blocks, w, l, hbits, hcomes, hexpand, hfits, rfl⟩
  unfold zlibBody
  simp only [bind, EStateM.bind, hblocks]
  rfl

/-- Otherwise the output ends where there is no more room. -/
theorem zlibBody_of_not_fits (hfits : ¬ Fits n 0 blocks) :
    ∃ q, zlibBody n (state n data 16 []) = .ok () (state n data q l) := by
  obtain ⟨q, hblocks⟩ := (decodes_blocks n).of_not_fits hle hbits hcomes hexpand hfits
  refine ⟨q, ?_⟩
  unfold zlibBody
  simp only [bind, EStateM.bind, hblocks]
  rfl

end

/-- **Soundness.**  Decoding that does not fill the output reaches the end of the last block, and the
    checksum after it is that of the output. -/
theorem exists_reached_of_inflateZlib {data D : ByteArray} {cap : Nat}
    (h : inflateZlib data cap = .ok D) (hlt : D.size < cap) :
    ∃ blocks w, StreamBits 16 blocks w ∧ w <+: (BitOrder.lowFirst.stream data).drop 16 ∧
      expand blocks = some D.data.toList ∧
      Inflater.blocks cap (state cap data 16 [])
        = .ok .reached (state cap data (16 + w.length) D.data.toList) ∧
      ∃ trailer r, BitReader.takeBytes 4 (.atBit data .lowFirst (16 + w.length)) = .ok trailer r ∧
        UInt32.ofNat (Bytes.ofBigEndian trailer.toList) = Checksum.adler32 D := by
  obtain ⟨hle, -, s', hs, rfl⟩ := header_of_inflateZlib h
  obtain ⟨stop, s₁, hblocks, hs⟩ := bind_eq_ok_iff.mp hs
  cases stop with
  | reached =>
    obtain ⟨blocks, w, l, hbits, hcomes, hexpand, -, rfl⟩ :=
      ((decodes_blocks cap).reached_iff hle).mp hblocks
    obtain ⟨houtput, trailer, r, hread, hsum⟩ := exists_trailer hs
    -- The output is not full, so nothing of what the blocks stand for is missing.
    have hlen : l.length ≤ cap := by
      rw [houtput, size_cut] at hlt
      omega
    have hlist : s'.output.data.toList = l := by
      rw [houtput]
      exact List.take_of_length_le hlen
    rw [hlist]
    exact ⟨blocks, w, hbits, hcomes, hexpand, hblocks, trailer, r, hread, houtput ▸ hsum⟩
  | outputFull =>
    obtain ⟨q, l, hfull, rfl⟩ := (decodes_blocks cap).outputFull hle hblocks
    cases hs
    have hsize : (cut cap l).size < cap := hlt
    rw [size_cut] at hsize
    omega

/-- What is decoded without filling the output has a stream after its header. -/
theorem exists_encodesFrom_of_inflateZlib {data D : ByteArray} {cap : Nat}
    (h : inflateZlib data cap = .ok D) (hlt : D.size < cap) :
    ∃ blocks, EncodesFrom 16 data blocks ∧ expand blocks = some D.data.toList := by
  obtain ⟨blocks, w, hbits, hcomes, hexpand, -⟩ := exists_reached_of_inflateZlib h hlt
  exact ⟨blocks, ⟨w, hbits, hcomes⟩, hexpand⟩

/-- **Completeness.**  Blocks between a header and the checksum of their bytes are decoded, if there
    is room for the bytes. -/
theorem inflateZlib_of_bits {data : ByteArray} {blocks : List Block} {w : List Bool}
    {bytes : List UInt8} {trailer : ByteArray} {r : BitReader} {n : Nat}
    (hle : 16 ≤ 8 * data.size)
    (hheader : Inflater.zlibHeader (.atBit data .lowFirst 0) = .ok () (.atBit data .lowFirst 16))
    (hbits : StreamBits 16 blocks w) (hcomes : w <+: (BitOrder.lowFirst.stream data).drop 16)
    (hexpand : expand blocks = some bytes) (hroom : bytes.length ≤ n)
    (hread : BitReader.takeBytes 4 (.atBit data .lowFirst (16 + w.length)) = .ok trailer r)
    (hsum : UInt32.ofNat (Bytes.ofBigEndian trailer.toList)
      = Checksum.adler32 ⟨bytes.toArray⟩) :
    inflateZlib data n = .ok ⟨bytes.toArray⟩ := by
  rw [inflateZlib_of_header hheader,
    zlibBody_of_fits hle hbits hcomes hexpand ((fits_iff hbits hexpand).mpr (.inl hroom)),
    zlibTrailer_eq hread, cut_of_length_le hroom, if_neg (not_ne_iff.mpr hsum)]
  rfl

/-- **Decoding with any room**, where decoding without filling the output succeeds. -/
theorem inflateZlib_eq {data D : ByteArray} {cap : Nat} (h : inflateZlib data cap = .ok D)
    (hlt : D.size < cap) {blocks : List Block} (hencodes : EncodesFrom 16 data blocks)
    (hexpand : expand blocks = some D.data.toList) (n : Nat) :
    (EndsInLastCopy n (allTokens blocks) →
      Checksum.adler32 (D.extract 0 n) ≠ Checksum.adler32 D →
      inflateZlib data n = ⟨D.extract 0 n, .error (.adlerMismatch (Checksum.adler32 D)
        (Checksum.adler32 (D.extract 0 n)))⟩) ∧
    (¬ (EndsInLastCopy n (allTokens blocks) ∧
        Checksum.adler32 (D.extract 0 n) ≠ Checksum.adler32 D) →
      inflateZlib data n = .ok (D.extract 0 n)) := by
  obtain ⟨hle, hheader, s', hs, -⟩ := header_of_inflateZlib h
  have hresult := inflateZlib_of_header hheader n
  obtain ⟨w, hbits, hcomes⟩ := hencodes
  have hfits (n : Nat) : Fits n 0 blocks ↔ D.size ≤ n ∨ EndsInLastCopy n (allTokens blocks) :=
    fits_iff hbits hexpand
  -- With enough room the trailer was accepted, so its checksum is that of all the bytes.
  obtain ⟨trailer, r, hread, hsum⟩ : ∃ trailer r,
      BitReader.takeBytes 4 (.atBit data .lowFirst (16 + w.length)) = .ok trailer r ∧
        UInt32.ofNat (Bytes.ofBigEndian trailer.toList) = Checksum.adler32 D := by
    have hcap := (hfits cap).mpr (.inl (Nat.le_of_lt hlt))
    rw [zlibBody_of_fits hle hbits hcomes hexpand hcap] at hs
    obtain ⟨-, trailer, r, hread, hsum⟩ := exists_trailer hs
    rw [cut_toList, Bytes.extract_of_size_le (Nat.le_of_lt hlt)] at hsum
    exact ⟨trailer, r, hread, hsum⟩
  have htrailer := zlibTrailer_eq hread n D.data.toList
  rw [hsum, cut_toList] at htrailer
  -- Only a cut inside the last copy leads on to the trailer.
  constructor
  · intro hends hne
    rw [hresult, zlibBody_of_fits hle hbits hcomes hexpand ((hfits n).mpr (.inr hends)), htrailer,
      if_pos (Ne.symm hne)]
    rfl
  · intro hnot
    by_cases hreached : Fits n 0 blocks
    · have heq : Checksum.adler32 D = Checksum.adler32 (D.extract 0 n) := by
        rcases (hfits n).mp hreached with hroom | hends
        · rw [Bytes.extract_of_size_le hroom]
        · exact (not_ne_iff.mp fun hne => hnot ⟨hends, hne⟩).symm
      rw [hresult, zlibBody_of_fits hle hbits hcomes hexpand hreached, htrailer,
        if_neg (not_ne_iff.mpr heq)]
      rfl
    · obtain ⟨q, hbody⟩ := zlibBody_of_not_fits hle hbits hcomes hexpand hreached
      rw [hresult, hbody, ← cut_toList]
      rfl

/-- Decoding into a buffer succeeds, and the bytes that are written are `D`. -/
def Returns (d : Decoded) (buffer D : ByteArray) : Prop :=
  (d.into buffer).1 = .ok D.size ∧ (d.into buffer).2.extract 0 D.size = D

theorem returns_iff {d : Decoded} {buffer D : ByteArray} : Returns d buffer D ↔ d = .ok D := by
  have hstart (output : ByteArray) :
      ((Decoded.ok output).into buffer).2.extract 0 output.size = output := by
    rw [extract_into_ok _ _ le_rfl, ByteArray.extract_zero_size]
  constructor
  · rintro ⟨hsize, hbytes⟩
    obtain ⟨output, rfl, hlen⟩ := into_eq_ok_iff.mp hsize
    rw [← hlen, hstart] at hbytes
    rw [hbytes]
  · rintro rfl
    exact ⟨rfl, hstart D⟩

/-- **Prefixes.**  Where a stream is decoded into a buffer that is longer than what it stands for,
    any buffer receives the first bytes of that, as many as there is room for, unless it ends inside
    the last copy and the checksum of these bytes differs from that of the whole. -/
theorem returns_extract_iff {data out D : ByteArray}
    (h : Returns (inflateZlib data out.size) out D) (hlt : D.size < out.size) :
    (∃ blocks, EncodesFrom 16 data blocks ∧ expand blocks = some D.data.toList) ∧
    ∀ blocks, EncodesFrom 16 data blocks → expand blocks = some D.data.toList →
      ∀ buffer : ByteArray,
        Returns (inflateZlib data buffer.size) buffer (D.extract 0 buffer.size) ↔
          ¬ (EndsInLastCopy buffer.size (allTokens blocks) ∧
            Checksum.adler32 (D.extract 0 buffer.size) ≠ Checksum.adler32 D) := by
  have hok := returns_iff.mp h
  refine ⟨exists_encodesFrom_of_inflateZlib hok hlt, ?_⟩
  intro blocks hencodes hexpand buffer
  obtain ⟨hfault, hfine⟩ := inflateZlib_eq hok hlt hencodes hexpand buffer.size
  rw [returns_iff]
  constructor
  · rintro hdone ⟨hends, hne⟩
    rw [hfault hends hne] at hdone
    cases congrArg Decoded.outcome hdone
  · exact hfine

/-! A literal and a copy of it, which has three bytes more. -/

/-- Their stream, with the header and the checksum. -/
def literalAndCopy : ByteArray := ⟨#[0x78, 0x9c, 0x4b, 0x04, 0x02, 0x00, 0x03, 0xce, 0x01, 0x85]⟩

/-- What they stand for. -/
def fourBytes : ByteArray := ⟨#[0x61, 0x61, 0x61, 0x61]⟩

/-- The bits of their block. -/
def literalAndCopyBits : List Bool :=
  [true, true, false, true, false, false, true, false, false, false, true, false, false, false,
    false, false, false, true, false, false, false, false, false, false, false, false, false,
    false, false, false]

theorem streamBits_literalAndCopy :
    StreamBits 16 [.fixed [.literal 0x61, .copy 3 1]] literalAndCopyBits := by
  have hliteral : TokenBits fixedLiterals fixedDistances (.literal 0x61)
      [true, false, false, true, false, false, false, true] := by
    unfold TokenBits CodeWord
    decide +kernel
  exact .last ⟨_, .cons hliteral (.cons tokenBits_fixedCopy (.nil codeWord_fixedEnd)), rfl⟩

theorem inflateZlib_literalAndCopy : inflateZlib literalAndCopy 5 = .ok fourBytes := by
  have hheader : Inflater.zlibHeader (.atBit literalAndCopy .lowFirst 0)
      = .ok () (.atBit literalAndCopy .lowFirst 16) := by
    cbv
  have hread : BitReader.takeBytes 4 (.atBit literalAndCopy .lowFirst 46)
      = .ok ⟨#[0x03, 0xce, 0x01, 0x85]⟩ (.atBit literalAndCopy .lowFirst 80) := by
    cbv
  have hsum : UInt32.ofNat (Bytes.ofBigEndian (⟨#[0x03, 0xce, 0x01, 0x85]⟩ : ByteArray).toList)
      = Checksum.adler32 fourBytes := by
    cbv
  exact inflateZlib_of_bits (by decide) hheader streamBits_literalAndCopy (by decide +kernel) rfl
    (by decide) hread hsum

theorem encodesFrom_literalAndCopy :
    EncodesFrom 16 literalAndCopy [.fixed [.literal 0x61, .copy 3 1]] :=
  ⟨literalAndCopyBits, streamBits_literalAndCopy, by decide +kernel⟩

theorem returns_extract_literalAndCopy :
    let out : ByteArray := ⟨#[0, 0, 0, 0, 0]⟩
    let blocks : List Block := [.fixed [.literal 0x61, .copy 3 1]]
    let buffer : ByteArray := ⟨#[0, 0]⟩
    Returns (inflateZlib literalAndCopy out.size) out fourBytes ∧ fourBytes.size < out.size ∧
      EncodesFrom 16 literalAndCopy blocks ∧ expand blocks = some fourBytes.data.toList ∧
      (Returns (inflateZlib literalAndCopy buffer.size) buffer (fourBytes.extract 0 buffer.size) ↔
        ¬ (EndsInLastCopy buffer.size (allTokens blocks) ∧
          Checksum.adler32 (fourBytes.extract 0 buffer.size) ≠ Checksum.adler32 fourBytes)) := by
  intro out blocks buffer
  have hreturns : Returns (inflateZlib literalAndCopy out.size) out fourBytes :=
    returns_iff.mpr inflateZlib_literalAndCopy
  have hlt : fourBytes.size < out.size := by decide
  exact ⟨hreturns, hlt, encodesFrom_literalAndCopy, rfl,
    (returns_extract_iff hreturns hlt).2 blocks encodesFrom_literalAndCopy rfl buffer⟩

/-- A buffer of two bytes ends inside the copy, and the checksum of its bytes is another one. -/
theorem not_returns_literalAndCopy :
    let out : ByteArray := ⟨#[0, 0, 0, 0, 0]⟩
    let buffer : ByteArray := ⟨#[0, 0]⟩
    Returns (inflateZlib literalAndCopy out.size) out fourBytes ∧ fourBytes.size < out.size ∧
      (inflateZlib literalAndCopy buffer.size).outcome
        = .error (.adlerMismatch 0x03ce0185 0x012500c3) ∧
      ¬ Returns (inflateZlib literalAndCopy buffer.size) buffer
        (fourBytes.extract 0 buffer.size) := by
  intro out buffer
  have hends : EndsInLastCopy 2 (allTokens [.fixed [.literal 0x61, .copy 3 1]]) :=
    ⟨[.literal 0x61], 3, 1, rfl, by decide, by decide⟩
  have hwhole : Checksum.adler32 fourBytes = 0x03ce0185 := by cbv
  have hpart : Checksum.adler32 (fourBytes.extract 0 2) = 0x012500c3 := by cbv
  have hne : Checksum.adler32 (fourBytes.extract 0 2) ≠ Checksum.adler32 fourBytes := by
    rw [hwhole, hpart]
    decide
  have hfault : inflateZlib literalAndCopy 2
      = ⟨fourBytes.extract 0 2, .error (.adlerMismatch 0x03ce0185 0x012500c3)⟩ := by
    have h := (inflateZlib_eq inflateZlib_literalAndCopy (by decide) encodesFrom_literalAndCopy
      rfl 2).1 hends hne
    rw [hwhole, hpart] at h
    exact h
  refine ⟨returns_iff.mpr inflateZlib_literalAndCopy, by decide, congrArg Decoded.outcome hfault,
    fun hreturns => ?_⟩
  have hok : inflateZlib literalAndCopy 2 = .ok (fourBytes.extract 0 2) := returns_iff.mp hreturns
  rw [hfault] at hok
  cases congrArg Decoded.outcome hok

end Apfs.Deflate
