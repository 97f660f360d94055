import Apfs.Proofs.Compression.InPlaceBlocks
import Apfs.Proofs.Compression.Streams

namespace Apfs

/-!
# Decoding streams in place

Block by block a stream is decoded in place as into an output that grows.  What is left behind is
the output in the caller's buffer.

* `refines_dynamicCodes`, `refines_contents`, `refines_block`, `refines_blocks` — blocks.
* `refines_zlibHeader`, `refines_zlibTrailer` — what stands around the blocks of a zlib stream.
* `Leaves`, `leaves_inflateInPlace`, `leaves_inflateZlibInPlace` — whole streams.
-/

variable {α β : Type} {data buffer : ByteArray}

namespace InPlaceInflater

/-! ### Dynamic blocks -/

/-- Tables are filled where codes are built. -/
theorem refines_ofLengths {lengths lengths' : List Nat} (h : lengths = lengths') :
    Refines data buffer 0 (fun table code => table.IsTableOf code)
      (MonadExcept.ofExcept (CodeTable.ofLengths lengths))
      (Inflater.reading (MonadExcept.ofExcept (PrefixCode.ofLengths lengths'))) := by
  have hsame := CodeTable.ofLengths_eq lengths
  rw [h] at hsame ⊢
  cases hcode : PrefixCode.ofLengths lengths' with
  | ok code =>
    rw [hcode] at hsame
    obtain ⟨table, htable, his⟩ := hsame
    rw [htable]
    exact .pure his
  | error e =>
    rw [hcode] at hsame
    rw [hsame]
    exact .fail e

/-- The tables of both codes. -/
def AreTablesOf (tables : CodeTable × CodeTable) (codes : PrefixCode × PrefixCode) : Prop :=
  tables.1.IsTableOf codes.1 ∧ tables.2.IsTableOf codes.2

/-- The lengths of both codes are parts of the lengths that are known. -/
theorem refines_bothCodes {n m : Nat} {known : List Nat} {lengths : Array Nat}
    (hlen : known.length = n + m) (hstarts : Starts known lengths) :
    Refines data buffer 0 AreTablesOf
      (do
        expect (n ≤ n + m ∧ n + m ≤ lengths.size) .outOfRange
        let literals ← MonadExcept.ofExcept (CodeTable.ofLengths (lengths.extract 0 n).toList)
        let distances ←
          MonadExcept.ofExcept (CodeTable.ofLengths (lengths.extract n (n + m)).toList)
        return (literals, distances))
      (Inflater.reading do
        let literals ← MonadExcept.ofExcept (PrefixCode.ofLengths (known.take n))
        let distances ← MonadExcept.ofExcept (PrefixCode.ofLengths (known.drop n))
        return (literals, distances)) := by
  obtain ⟨rest, hrest⟩ := hstarts.isPrefix
  have hsize : n ≤ n + m ∧ n + m ≤ lengths.size := by
    rw [← hlen, ← Array.length_toList, ← hrest, List.length_append]
    omega
  have hfirst : (lengths.extract 0 n).toList = known.take n := by
    rw [Array.toList_extract, List.extract_eq_take_drop, ← hrest, List.drop_zero, Nat.sub_zero,
      List.take_append_of_le_length (by omega)]
  have hsecond : (lengths.extract n (n + m)).toList = known.drop n := by
    rw [Array.toList_extract, List.extract_eq_take_drop, ← hrest, Nat.add_sub_cancel_left,
      List.drop_append_of_le_length (by omega), List.take_left']
    rw [List.length_drop]
    omega
  rw [expect_of hsize, pure_bind]
  refine (refines_ofLengths hfirst).reading_bind fun literals code hliterals => ?_
  refine (refines_ofLengths hsecond).reading_bind fun distances code' hdistances => ?_
  exact .reading_pure ⟨hliterals, hdistances⟩

theorem refines_dynamicCodes :
    Refines data buffer 0 AreTablesOf dynamicCodes (Inflater.reading Inflater.dynamicCodes) := by
  refine ((refines_bits (by decide)).weaken (Nat.zero_le _)).reading_bind ?_
  rintro literalBits _ ⟨rfl, -⟩
  refine ((refines_bits (by decide)).weaken (Nat.zero_le _)).reading_bind ?_
  rintro distanceBits _ ⟨rfl, -⟩
  refine ((refines_bits (by decide)).weaken (Nat.zero_le _)).reading_bind ?_
  rintro codeLengthBits _ ⟨rfl, -⟩
  refine .reading_check fun hliterals => .reading_check fun hdistances => ?_
  refine (refines_codeLengthLengths _).reading_bind fun sent sent' hsent => ?_
  refine (refines_ofLengths hsent).reading_bind fun table code htable => ?_
  refine (refines_allCodeLengths htable (by omega) (by omega)).reading_bind ?_
  rintro lengths known ⟨hlen, hstarts⟩
  have hread : (readAt lengths Inflater.endOfBlock : InflatingInPlace Nat)
      = Pure.pure (known.getD Inflater.endOfBlock 0) := by
    obtain ⟨rest, hrest⟩ := hstarts.isPrefix
    have hlt : Inflater.endOfBlock < known.length := by
      rw [hlen, Inflater.endOfBlock]
      omega
    rw [readAt, ← Array.getElem?_toList, ← hrest, List.getElem?_append_left hlt,
      List.getD_eq_getElem?_getD, List.getElem?_eq_getElem hlt]
    rfl
  rw [hread, pure_bind]
  exact .reading_check fun _ => refines_bothCodes hlen hstarts

/-! ### Blocks -/

/-- A table that is filled for lengths that are known. -/
theorem refines_build_bind {lengths : List Nat} (h : ∀ l ∈ lengths, l ≤ 15)
    {f : CodeTable → InflatingInPlace α} {y : Inflating β} {V : α → β → Prop}
    (hf : ∀ table, table.IsTableOf (.build lengths) → Refines data buffer 0 V (f table) y) :
    Refines data buffer 0 V (MonadExcept.ofExcept (CodeTable.build lengths) >>= f) y := by
  obtain ⟨table, htable, his⟩ := CodeTable.exists_build_eq h
  rw [htable]
  exact hf table his

/-- The codes of a fixed block are filled into tables before the block is decoded. -/
theorem refines_fixedBlock :
    Refines data buffer 0 Eq
      (do
        let literals ← MonadExcept.ofExcept CodeTable.fixedLiterals
        let distances ← MonadExcept.ofExcept CodeTable.fixedDistances
        codedBlock literals distances)
      (Inflater.codedBlock buffer.size .fixedLiterals .fixedDistances) := by
  refine refines_build_bind Deflate.fixedLiterals_le fun literals hliterals => ?_
  refine refines_build_bind Deflate.fixedDistances_le fun distances hdistances => ?_
  exact refines_codedBlock hliterals hdistances

theorem refines_contents (kind : Nat) :
    Refines data buffer 0 Eq (contents kind) (Deflate.contents buffer.size kind) := by
  match kind with
  | 0 => exact refines_storedBlock
  | 1 => exact refines_fixedBlock
  | 2 =>
    refine refines_dynamicCodes.bind ?_
    rintro ⟨literals, distances⟩ ⟨code, code'⟩ ⟨hliterals, hdistances⟩
    exact refines_codedBlock hliterals hdistances
  | kind + 3 => exact .fail _

/-- Each block takes a bit that is that of no round inside of it. -/
theorem refines_block : Refines data buffer 1 (SameEnd Eq) block (Inflater.block buffer.size) := by
  rw [Deflate.block_eq]
  refine (refines_bits (by decide)).bind ?_
  rintro last _ ⟨rfl, -⟩
  rw [bind_assoc]
  refine ((refines_bits (by decide)).weaken (Nat.zero_le _)).bind ?_
  rintro kind _ ⟨rfl, -⟩
  refine (refines_contents kind).bind ?_
  rintro stop _ rfl
  refine .pure ?_
  by_cases hend : stop = .outputFull ∨ last = 1
  · rw [if_pos hend, if_pos hend]
    rfl
  · rw [if_neg hend, if_neg hend]
    trivial

theorem refines_blocks : Refines data buffer 0 Eq blocks (Inflater.blocks buffer.size) :=
  refines_loop _ (fun _ => refines_block) ()

/-! ### Zlib streams -/

theorem refines_zlibHeader :
    Refines data buffer 0 Eq zlibHeader (Inflater.reading Inflater.zlibHeader) := by
  refine (refines_takeBytes 2).reading_bind ?_
  rintro header _ ⟨rfl, hsize⟩
  rw [byteAt_of_lt (by omega), pure_bind, byteAt_of_lt (by omega), pure_bind]
  cases zlibFault? (Bytes.get header 0) (Bytes.get header 1) with
  | some fault => exact .fail _
  | none => exact .reading_pure rfl

/-- The checksum is that of the bytes that are written. -/
theorem refines_zlibTrailer : Refines data buffer 0 Eq zlibTrailer Inflater.zlibTrailer := by
  refine (refines_takeBytes 4).bind ?_
  rintro trailer _ ⟨rfl, hsize⟩
  have hbytes : trailer.toList = [Bytes.get trailer 0, Bytes.get trailer 1, Bytes.get trailer 2,
      Bytes.get trailer 3] := by
    rw [Bytes.toList_eq_map_get, hsize]
    rfl
  rw [byteAt_of_lt (by omega), pure_bind, byteAt_of_lt (by omega), pure_bind,
    byteAt_of_lt (by omega), pure_bind, byteAt_of_lt (by omega), pure_bind, hbytes]
  intro s t hs
  have hrange : s.out.offset ≤ s.out.data.size := by
    rw [hs.out_eq, OutputBuffer.size_holding hs.size_le]
    exact hs.size_le
  have hwritten : s.out.data.extract 0 s.out.offset = t.output := by
    rw [hs.out_eq]
    exact OutputBuffer.extract_holding hs.size_le
  rw [bind_of_get, bind_of_get, expect_of hrange, pure_bind, hwritten]
  generalize UInt32.ofNat (Bytes.ofBigEndian _) = stored
  by_cases hsum : stored ≠ Checksum.adler32 t.output
  · rw [if_pos hsum, if_pos hsum]
    exact Refines.fail _ hs
  · rw [if_neg hsum, if_neg hsum]
    exact Refines.pure rfl hs

/-- What is decoded of a zlib stream before the number of bytes is given. -/
def zlibContents : InflatingInPlace Unit := do
  zlibHeader
  if (← blocks) = .reached then zlibTrailer

theorem zlibStream_eq :
    zlibStream = do let _ ← zlibContents; return (← get).out.offset := by
  unfold zlibStream zlibContents
  rw [bind_assoc]
  refine bind_congr fun _ => ?_
  rw [bind_assoc]
  refine bind_congr fun stop => ?_
  by_cases hreached : stop = .reached
  · rw [if_pos hreached, if_pos hreached]
  · rw [if_neg hreached, if_neg hreached, pure_bind]

theorem refines_zlibContents :
    Refines data buffer 0 Eq zlibContents (Inflater.zlibStream buffer.size) := by
  refine refines_zlibHeader.bind ?_
  rintro _ _ rfl
  refine refines_blocks.bind ?_
  rintro stop _ rfl
  by_cases hreached : stop = .reached
  · rw [if_pos hreached, if_pos hreached]
    exact refines_zlibTrailer
  · rw [if_neg hreached, if_neg hreached]
    exact .pure rfl

/-! ### Whole streams -/

/-- What decoding in place leaves behind is what decoding into an output that grows does, in the
    caller's buffer. -/
structure Leaves (data buffer : ByteArray) (d : Decoded)
    (result : Except Stop Nat × InPlaceInflater) : Prop where
  outcome_eq : result.1 = match d.outcome with
    | .ok _ => .ok d.output.size
    | .error e => .error (.failed e)
  out_eq : result.2.out = .holding buffer d.output
  size_le : d.output.size ≤ buffer.size
  rounds_le : result.2.rounds ≤ 8 * data.size

/-- The states in which decoding starts. -/
theorem matches_start (data buffer : ByteArray) :
    Matches data buffer { reader := .ofBytes data .lowFirst, out := ⟨buffer, 0⟩ }
      ⟨.ofBytes data .lowFirst, .empty⟩ where
  exists_atBit :=
    ⟨0, Nat.zero_le _, WordReader.ofBytes_eq_atBit _ _, BitReader.ofBytes_eq_atBit _ _⟩
  out_eq := by
    rw [OutputBuffer.holding, Bytes.overlay_empty (Nat.zero_le _)]
    rfl
  size_le := Nat.zero_le _

/-- A decoder in place that does what another one does, and then gives the number of bytes that are
    written. -/
theorem Refines.leaves {V : α → β → Prop} {x : InflatingInPlace α} {y : Inflating β}
    (h : Refines data buffer 0 V x y) :
    Leaves data buffer (Inflater.decodeAll y data)
      (runOn (do let _ ← x; return (← get).out.offset) data buffer) := by
  have hstart := matches_start data buffer
  have hlimit : roundLimit { reader := .ofBytes data .lowFirst, out := ⟨buffer, 0⟩ }
      = 8 * data.size := by
    simp [roundLimit, remaining, WordReader.remaining, WordReader.ofBytes]
  have hresult := h hstart
  unfold runOn Inflater.decodeAll
  cases hy : y ⟨.ofBytes data .lowFirst, .empty⟩ with
  | ok b t =>
    rw [hy] at hresult
    obtain ⟨a, s, hx, -, hs, hlater⟩ := hresult
    have hrounds := hlater.roundLimit_le
    rw [bind_of_ok hx, bind_of_get]
    refine ⟨congrArg Except.ok (congrArg OutputBuffer.offset hs.out_eq), hs.out_eq, hs.size_le, ?_⟩
    rw [hlimit] at hrounds
    exact (Nat.le_add_right _ _).trans hrounds
  | error e t =>
    rw [hy] at hresult
    obtain ⟨s, hx, hs, hrounds⟩ := hresult
    rw [bind_of_error hx]
    exact ⟨rfl, hs.out_eq, hs.size_le, hrounds.trans (Nat.le_of_eq hlimit)⟩

end InPlaceInflater

/-- **Deflate decoding in place** is deflate decoding. -/
theorem leaves_inflateInPlace (data buffer : ByteArray) :
    InPlaceInflater.Leaves data buffer (inflate data buffer.size) (inflateInPlace data buffer) :=
  InPlaceInflater.refines_blocks.leaves

/-- **Zlib decoding in place** is zlib decoding. -/
theorem leaves_inflateZlibInPlace (data buffer : ByteArray) :
    InPlaceInflater.Leaves data buffer (inflateZlib data buffer.size)
      (inflateZlibInPlace data buffer) := by
  rw [inflateZlibInPlace, InPlaceInflater.zlibStream_eq]
  exact InPlaceInflater.refines_zlibContents.leaves

end Apfs
