import Apfs.Compression.InPlace.Method
import Apfs.Proofs.Checked
import Apfs.Proofs.Compression.InPlaceStreams
import Apfs.Proofs.Compression.Trailer

namespace Apfs

/-!
# What decompression touches

A unit of data is decoded into the front of a caller's buffer.  Bytes of the buffer that are not
reported as written stay, and so does the whole buffer if decoding fails for certain reasons.

* `Decoded.onto`, `Fills` — what a decoder leaves behind in a buffer that it may fill.
* `LzfseWriter.decoder` — what a decoder that writes into a buffer gives.
* `Filling.fills_stored`, … — one lemma for each encoding; `CompressionMethod.fills` for all.
* `FailsFirst` — the reasons to fail before anything is written.
* `Framed`, `decompressInPlace_framed` — what is touched.

Nothing is assumed of the decoder of LZFSE streams.  It writes into a buffer of its own, and what it
reports is compared with the room that there is.
-/

/-! ### Steps that fill a buffer -/

/-- What decoding leaves behind in a buffer, and the number of bytes that are written. -/
def Decoded.onto (d : Decoded) (out : ByteArray) : EStateM.Result Stop ByteArray Nat :=
  match d.outcome with
  | .ok _ => .ok d.output.size (Bytes.overlay out 0 d.output)
  | .error e => .error (.failed e) (Bytes.overlay out 0 d.output)

/-- The step decodes into buffers of `room` bytes. -/
structure Fills (x : Filling Nat) (room : Nat) (d : Decoded) : Prop where
  size_le : d.output.size ≤ room
  eq_onto : ∀ out : ByteArray, out.size = room → x out = d.onto out

/-- The decoder that gives the bytes which are written to a buffer of zeros. -/
def LzfseWriter.decoder (writer : LzfseWriter) : LzfseDecoder := fun data room =>
  match writer data (Bytes.zeros room) with
  | (.ok written, after) => .ok (after.val.extract 0 written)
  | (.error reason, _) => .error reason

namespace Filling

variable {room : Nat} {data : ByteArray} {writer : LzfseWriter}

/-- A step that fails and leaves the buffer alone. -/
theorem fills_error {x : Filling Nat} {e : Error}
    (h : ∀ out : ByteArray, out.size = room → x out = .error (.failed e) out) :
    Fills x room (.error e) where
  size_le := Nat.zero_le _
  eq_onto out hout := by
    rw [h out hout]
    exact congrArg _ (Bytes.overlay_empty (Nat.zero_le _)).symm

/-- A step that copies bytes to the start of the buffer. -/
theorem fills_copy {bytes : ByteArray} {count : Nat} (hroom : count ≤ room)
    (hbytes : count ≤ bytes.size) :
    Fills (do copy bytes count; return count) room (.ok (bytes.extract 0 count)) := by
  have hsize : (bytes.extract 0 count).size = count := by
    rw [ByteArray.size_extract]
    omega
  refine ⟨hsize.le.trans hroom, fun out hout => ?_⟩
  have hcopy : copy bytes count out = .ok () (Bytes.overlay out 0 (bytes.extract 0 count)) :=
    if_pos ⟨hout ▸ hroom, hbytes⟩
  rw [bind_of_ok hcopy, Decoded.onto, Decoded.ok, hsize]
  rfl

theorem fills_stored : Fills (stored data) room (.ok (data.extract 0 room)) := by
  have hcopy := fills_copy (Nat.min_le_right data.size room) (Nat.min_le_left data.size room)
  rw [Bytes.extract_min] at hcopy
  refine ⟨hcopy.size_le, fun out hout => ?_⟩
  rw [← hcopy.eq_onto out hout, stored, bind_of_get, hout]

theorem fills_zeros : Fills zeros room (.ok (Bytes.zeros room)) where
  size_le := (Bytes.size_zeros room).le
  eq_onto out hout := by
    have hfits : 0 + (Bytes.zeros room).size ≤ out.size := by
      rw [Bytes.size_zeros, Nat.zero_add, hout]
    have hall : Bytes.overlay out 0 (Bytes.zeros room) = Bytes.zeros room := by
      apply Bytes.ext_get
      · rw [Bytes.size_overlay hfits, hout, Bytes.size_zeros]
      · intro i hi
        rw [Bytes.size_overlay hfits, hout] at hi
        rw [Bytes.get_overlay hfits, Bytes.size_zeros, if_pos (by omega), Nat.sub_zero]
    rw [zeros, Decoded.onto, Decoded.ok, hall, Bytes.size_zeros, hout]

theorem fills_zlib : Fills (zlib data) room (inflateZlib data room) := by
  have hleaves (out : ByteArray) (hout : out.size = room) :=
    hout ▸ leaves_inflateZlibInPlace data out
  have hzeros := Bytes.size_zeros room
  refine ⟨(hleaves _ hzeros).size_le.trans hzeros.le, fun out hout => ?_⟩
  have houtcome := (hleaves out hout).outcome_eq
  have hdata := congrArg OutputBuffer.data (hleaves out hout).out_eq
  rw [zlib, Decoded.onto]
  generalize inflateZlibInPlace data out = result at houtcome hdata
  obtain ⟨outcome, s⟩ := result
  dsimp only at houtcome hdata
  cases h : (inflateZlib data room).outcome with
  | ok u =>
    rw [h] at houtcome
    subst houtcome
    exact congrArg _ hdata
  | error e =>
    rw [h] at houtcome
    subst houtcome
    exact congrArg _ hdata

/-- The decoder writes into a buffer of its own, and what it reports is compared with the room that
    there is. -/
theorem fills_lzfse : Fills (lzfse writer data) room (inflateLzfse data room writer.decoder) := by
  unfold inflateLzfse LzfseWriter.decoder
  obtain ⟨⟨outcome, scratch⟩, hresult⟩ : ∃ result, writer data (Bytes.zeros (room + 1)) = result :=
    ⟨_, rfl⟩
  have hscratch : scratch.val.size = room + 1 := by
    rw [scratch.property, Bytes.size_zeros]
  rw [hresult]
  cases outcome with
  | error reason =>
    refine fills_error fun out hout => ?_
    rw [lzfse, bind_of_get, hout, hresult]
    rfl
  | ok written =>
    have hsize : (scratch.val.extract 0 written).size = min written (room + 1) := by
      rw [ByteArray.size_extract, hscratch, Nat.sub_zero]
    dsimp only
    by_cases hpast : room < written
    · rw [if_pos (by omega)]
      refine fills_error fun out hout => ?_
      rw [lzfse, bind_of_get, hout, hresult]
      dsimp only
      rw [if_pos hpast]
      rfl
    · rw [if_neg (by omega)]
      have hcopy := @fills_copy room scratch.val written (by omega) (by omega)
      refine ⟨hcopy.size_le, fun out hout => ?_⟩
      rw [lzfse, bind_of_get, hout, hresult]
      dsimp only
      rw [if_neg hpast]
      exact hcopy.eq_onto out hout

theorem fills_lzvn : Fills (lzvn writer data) room (inflateLzvn data room writer.decoder) := by
  unfold inflateLzvn
  by_cases hroom : Lzfse.sizeLimit ≤ room
  · rw [if_pos hroom]
    refine fills_error fun out hout => ?_
    rw [lzvn, bind_of_get, hout, if_pos hroom]
    rfl
  by_cases hdata : Lzfse.sizeLimit ≤ data.size
  · rw [if_neg hroom, if_pos hdata]
    refine fills_error fun out hout => ?_
    rw [lzvn, bind_of_get, hout, if_neg hroom, if_pos hdata]
    rfl
  · rw [if_neg hroom, if_neg hdata]
    have hstream : Fills (lzfse writer (lzvnStream data room)) room _ := fills_lzfse
    refine ⟨hstream.size_le, fun out hout => ?_⟩
    rw [lzvn, bind_of_get, hout, if_neg hroom, if_neg hdata]
    exact hstream.eq_onto out hout

/-- A unit may be stored after its marker. -/
theorem fills_marked {marker : UInt8} {empty : CompressionFault} {x : ByteArray → Filling Nat}
    {inflate : ByteArray → Nat → Decoded} (h : Fills (x data) room (inflate data room)) :
    Fills (marked marker empty x data) room
      (Codec.decodeMarked marker empty inflate data room) := by
  unfold Codec.decodeMarked
  by_cases hempty : data.size = 0
  · rw [if_pos hempty]
    refine fills_error fun out _ => ?_
    rw [marked, if_pos hempty]
    rfl
  have hbyte : (byteAt data 0 : Filling UInt8) = pure (Bytes.get data 0) :=
    byteAt_of_lt (Nat.pos_of_ne_zero hempty)
  rw [if_neg hempty, marked, if_neg hempty, hbyte, pure_bind]
  by_cases hmarker : Bytes.get data 0 = marker
  · have hcut : (cut data 1 data.size : Filling ByteArray) = pure (data.extract 1 data.size) :=
      cut_of_le (Nat.one_le_iff_ne_zero.mpr hempty) (Nat.le_refl _)
    have hextract : (data.extract 1 data.size).extract 0 room = data.extract 1 (1 + room) := by
      have hwhole : (data.extract 0 data.size).extract 1 (1 + room) = data.extract 1 (1 + room) := by
        rw [ByteArray.extract_zero_size]
      rw [← hwhole, ByteArray.extract_extract, ByteArray.extract_extract, Nat.zero_add,
        Nat.zero_add, Nat.add_zero]
    rw [if_pos hmarker, if_pos hmarker, hcut, pure_bind, ← hextract]
    exact fills_stored
  · rw [if_neg hmarker, if_neg hmarker]
    exact h

end Filling

/-- **Each method** decodes into a buffer what it decodes. -/
theorem CompressionMethod.fills (m : CompressionMethod) (data : ByteArray) (room : Nat)
    (writer : LzfseWriter) :
    Fills (m.fill data writer) room (m.decode data room writer.decoder) := by
  unfold fill decode
  cases m.codec? with
  | none => exact Filling.fills_error fun _ _ => rfl
  | some codec =>
    cases codec with
    | stored => exact Filling.fills_stored
    | zlib => exact Filling.fills_marked Filling.fills_zlib
    | lzvn =>
      exact @Filling.fills_marked room data _ _ (Filling.lzvn writer)
        (fun data room => inflateLzvn data room writer.decoder) Filling.fills_lzvn
    | lzfse => exact Filling.fills_lzfse
    | zeros => exact Filling.fills_zeros

/-! ### The front of a buffer -/

/-- Decoding into the front of a buffer decodes into the buffer. -/
theorem Filling.front_eq {x : Filling Nat} {room : Nat} {d : Decoded} (h : Fills x room d)
    {buffer : ByteArray} (hroom : room ≤ buffer.size) : front room x buffer = d.onto buffer := by
  have hsize : (buffer.extract 0 room).size = room := by
    rw [ByteArray.size_extract]
    omega
  have hfits := h.size_le
  have hfront : 0 + d.output.size ≤ (buffer.extract 0 room).size := by omega
  have hwhole : 0 + d.output.size ≤ buffer.size := by omega
  have hoverlay : Bytes.overlay buffer 0 (Bytes.overlay (buffer.extract 0 room) 0 d.output)
      = Bytes.overlay buffer 0 d.output := by
    have houter : 0 + (Bytes.overlay (buffer.extract 0 room) 0 d.output).size ≤ buffer.size := by
      rw [Bytes.size_overlay hfront]
      omega
    apply Bytes.ext_get
    · rw [Bytes.size_overlay houter, Bytes.size_overlay hwhole]
    · intro i _
      rw [Bytes.get_overlay houter, Bytes.get_overlay hwhole, Bytes.size_overlay hfront, hsize]
      by_cases hi : i < room
      · rw [if_pos (by omega), Bytes.get_overlay hfront, Bytes.get_extract _ (by omega)]
        simp only [Nat.sub_zero, Nat.zero_add]
      · rw [if_neg (by omega), if_neg (by omega)]
  rw [front, if_pos hroom, h.eq_onto _ hsize]
  unfold Decoded.onto
  cases d.outcome with
  | ok u =>
    dsimp only
    rw [hoverlay]
  | error e =>
    dsimp only
    rw [hoverlay]

section

variable (method : CompressionMethod) (data : ByteArray) (size : Nat) (buffer : ByteArray)
  (writer : LzfseWriter)

/-- **Decompression in place** is decompression, and ends without a breach. -/
theorem decompressInPlace_eq :
    SafelyGives (decompressInPlace method data size buffer writer).1
        (decompress method data size buffer writer.decoder).1 ∧
      (decompressInPlace method data size buffer writer).2
        = (decompress method data size buffer writer.decoder).2 := by
  unfold decompressInPlace decompress
  by_cases hsize : buffer.size < size
  · rw [if_pos hsize, if_pos hsize]
    exact ⟨safelyGives_of_eq rfl, rfl⟩
  · rw [if_neg hsize, if_neg hsize,
      Filling.front_eq (method.fills data size writer) (Nat.le_of_not_lt hsize)]
    unfold Decoded.onto Decoded.into
    cases (method.decode data size writer.decoder).outcome with
    | ok u => exact ⟨safelyGives_of_eq rfl, rfl⟩
    | error e => exact ⟨safelyGives_of_eq rfl, rfl⟩

end

/-! ### Frames -/

/-- The first `size` bytes of a buffer are what a call may change.  If it succeeds, it has changed
    no others than those that it reports as written. -/
structure Framed (buffer : ByteArray) (size : Nat) (result : Except Stop Nat × ByteArray) :
    Prop where
  size_eq : result.2.size = buffer.size
  behind : ∀ i, size ≤ i → Bytes.get result.2 i = Bytes.get buffer i
  written : ∀ w, result.1 = .ok w →
    w ≤ size ∧ ∀ i, w ≤ i → Bytes.get result.2 i = Bytes.get buffer i

/-- What a decoder of LZFSE streams is given for a unit of data, if it is called. -/
inductive LzfseInput (method : CompressionMethod) (data : ByteArray) (size : Nat) :
    ByteArray → Prop
  | stream : method.codec? = some .lzfse → LzfseInput method data size data
  | opcodes : method.codec? = some .lzvn → 0 < data.size →
    Bytes.get data 0 ≠ Codec.lzvnStoredMarker → size < Lzfse.sizeLimit →
    data.size < Lzfse.sizeLimit → LzfseInput method data size (Filling.lzvnStream data size)

/-- Reasons to fail before anything is written to the caller's buffer, with the errors. -/
inductive FailsFirst (method : CompressionMethod) (data : ByteArray) (size : Nat)
    (buffer : ByteArray) (writer : LzfseWriter) : Error → Prop
  | tooSmall : buffer.size < size →
    FailsFirst method data size buffer writer (.outputTooSmall size buffer.size)
  | unsupported : size ≤ buffer.size → method.codec? = none →
    FailsFirst method data size buffer writer (.unsupportedMethod method.code)
  | emptyDeflate : size ≤ buffer.size → method.codec? = some .zlib → data.size = 0 →
    FailsFirst method data size buffer writer (.compression .emptyDeflate)
  | emptyLzvn : size ≤ buffer.size → method.codec? = some .lzvn → data.size = 0 →
    FailsFirst method data size buffer writer (.compression .emptyLzvn)
  | header {fault : ZlibFault} : size ≤ buffer.size → method.codec? = some .zlib →
    2 ≤ data.size → Bytes.get data 0 ≠ Codec.zlibStoredMarker →
    zlibFault? (Bytes.get data 0) (Bytes.get data 1) = some fault →
    FailsFirst method data size buffer writer (.zlib fault)
  | shortHeader : size ≤ buffer.size → method.codec? = some .zlib →
    data.size = 1 → Bytes.get data 0 ≠ Codec.zlibStoredMarker →
    FailsFirst method data size buffer writer (.bitsExhausted 16 8)
  | pastEnd {stream : ByteArray} {written : Nat} : size ≤ buffer.size →
    LzfseInput method data size stream → (writer stream (Bytes.zeros (size + 1))).1 = .ok written →
    size < written → FailsFirst method data size buffer writer (.compression .lzfseSize)

section

variable {method : CompressionMethod} {data : ByteArray} {size : Nat} {buffer : ByteArray}
  {writer : LzfseWriter} {decoder : LzfseDecoder} {codec : Codec} {e : Error}

theorem CompressionMethod.decode_of_codec? (h : method.codec? = some codec) :
    method.decode data size decoder = codec.decode data size decoder := by
  rw [decode, h]

/-- Decoding that fails at once leaves the buffer alone. -/
theorem decompress_of_decode (hsize : size ≤ buffer.size)
    (h : method.decode data size decoder = .error e) :
    decompress method data size buffer decoder = (.error e, buffer) := by
  rw [decompress, if_neg (Nat.not_lt.mpr hsize), h, Decoded.into, Decoded.error,
    Bytes.overlay_empty (Nat.zero_le _)]
  rfl

/-- A header that is refused ends decoding before anything is written. -/
theorem inflateZlib_of_header_error (room : Nat)
    (h : ∃ r, Inflater.zlibHeader (.atBit data .lowFirst 0) = .error e r) :
    inflateZlib data room = .error e := by
  obtain ⟨r, h⟩ := h
  have hreading : Inflater.reading Inflater.zlibHeader ⟨.ofBytes data .lowFirst, .empty⟩
      = .error e ⟨r, .empty⟩ := by
    rw [BitReader.ofBytes_eq_atBit, Inflater.reading, h]
  rw [inflateZlib, Inflater.decodeAll, Inflater.zlibStream, bind_of_error hreading]
  rfl

/-- Two bytes are read as a header. -/
theorem zlibHeader_of_fault {fault : ZlibFault} (hdata : 2 ≤ data.size)
    (h : zlibFault? (Bytes.get data 0) (Bytes.get data 1) = some fault) :
    ∃ r, Inflater.zlibHeader (.atBit data .lowFirst 0) = .error (.zlib fault) r := by
  have hread : BitReader.takeBytes 2 (.atBit data .lowFirst 0)
      = .ok (data.extract 0 2) (.atBit data .lowFirst 16) :=
    (BitReader.takeBytes_eq_ok_iff ..).mpr ⟨hdata, rfl, rfl⟩
  have hfirst : Bytes.get (data.extract 0 2) 0 = Bytes.get data 0 :=
    Bytes.get_extract data (by decide)
  have hsecond : Bytes.get (data.extract 0 2) 1 = Bytes.get data 1 :=
    Bytes.get_extract data (by decide)
  refine ⟨.atBit data .lowFirst 16, ?_⟩
  rw [Inflater.zlibHeader, bind_of_ok hread, hfirst, hsecond, h]
  rfl

/-- One byte is not enough for a header. -/
theorem zlibHeader_of_size_eq_one (h : data.size = 1) :
    ∃ r, Inflater.zlibHeader (.atBit data .lowFirst 0) = .error (.bitsExhausted 16 8) r := by
  have hskip : (BitReader.atBit data .lowFirst 0).skipToByte = .atBit data .lowFirst 0 :=
    BitReader.skipToByte_atBit data .lowFirst 0
  have hshort : ¬ 0 + 2 ≤ data.size := by omega
  have hslice : Bytes.slice? (BitReader.atBit data .lowFirst 0).data
      (BitReader.atBit data .lowFirst 0).next 2 = none :=
    if_neg hshort
  have hleft : (BitReader.atBit data .lowFirst 0).remaining = 8 := by
    rw [BitReader.remaining_atBit data .lowFirst (Nat.zero_le _), h]
  have hread : BitReader.takeBytes 2 (.atBit data .lowFirst 0)
      = .error (.bitsExhausted 16 8) (.atBit data .lowFirst 0) := by
    rw [BitReader.takeBytes, hskip, hleft, hslice]
    rfl
  exact ⟨_, bind_of_error hread _⟩

/-- Data that begins a zlib stream is decoded as one. -/
theorem decode_of_stream (hcodec : method.codec? = some .zlib) (hdata : data.size ≠ 0)
    (hmarker : Bytes.get data 0 ≠ Codec.zlibStoredMarker) :
    method.decode data size decoder = inflateZlib data size := by
  rw [method.decode_of_codec? hcodec]
  show Codec.decodeMarked .. = _
  rw [Codec.decodeMarked, if_neg hdata, if_neg hmarker]

/-- Output that is larger than the room is refused. -/
theorem inflateLzfse_of_lt {room written : Nat}
    (hwritten : (writer data (Bytes.zeros (room + 1))).1 = .ok written) (h : room < written) :
    inflateLzfse data room writer.decoder = .error (.compression .lzfseSize) := by
  obtain ⟨⟨outcome, scratch⟩, hresult⟩ : ∃ result, writer data (Bytes.zeros (room + 1)) = result :=
    ⟨_, rfl⟩
  have hsize : (scratch.val.extract 0 written).size = min written (room + 1) := by
    rw [ByteArray.size_extract, scratch.property, Bytes.size_zeros, Nat.sub_zero]
  rw [hresult] at hwritten
  subst hwritten
  unfold inflateLzfse LzfseWriter.decoder
  rw [hresult]
  exact if_pos (by omega)

/-- Data for the decoder of LZFSE streams is given to it. -/
theorem LzfseInput.decode_eq {stream : ByteArray} (h : LzfseInput method data size stream) :
    method.decode data size decoder = inflateLzfse stream size decoder := by
  cases h with
  | stream hcodec =>
    rw [CompressionMethod.decode_of_codec? hcodec]
    rfl
  | opcodes hcodec hdata hmarker hroom hsize =>
    rw [CompressionMethod.decode_of_codec? hcodec]
    show Codec.decodeMarked Codec.lzvnStoredMarker .emptyLzvn
      (fun data size => inflateLzvn data size decoder) data size = _
    rw [Codec.decodeMarked, if_neg (Nat.ne_of_gt hdata), if_neg hmarker, inflateLzvn,
      if_neg (Nat.not_le.mpr hroom), if_neg (Nat.not_le.mpr hsize)]
    rfl

theorem FailsFirst.decompress_eq (h : FailsFirst method data size buffer writer e) :
    decompress method data size buffer writer.decoder = (.error e, buffer) := by
  cases h with
  | tooSmall hsize => exact if_pos hsize
  | unsupported hsize hcodec =>
    refine decompress_of_decode hsize ?_
    rw [CompressionMethod.decode, hcodec]
  | emptyDeflate hsize hcodec hdata =>
    refine decompress_of_decode hsize ?_
    rw [CompressionMethod.decode_of_codec? hcodec]
    exact if_pos hdata
  | emptyLzvn hsize hcodec hdata =>
    refine decompress_of_decode hsize ?_
    rw [CompressionMethod.decode_of_codec? hcodec]
    exact if_pos hdata
  | @header fault hsize hcodec hdata hmarker hfault =>
    refine decompress_of_decode hsize ?_
    rw [decode_of_stream hcodec (by omega) hmarker]
    exact inflateZlib_of_header_error _ (zlibHeader_of_fault hdata hfault)
  | shortHeader hsize hcodec hdata hmarker =>
    refine decompress_of_decode hsize ?_
    rw [decode_of_stream hcodec (by omega) hmarker]
    exact inflateZlib_of_header_error _ (zlibHeader_of_size_eq_one hdata)
  | @pastEnd stream written hsize hinput hwritten hpast =>
    refine decompress_of_decode hsize ?_
    rw [hinput.decode_eq]
    exact inflateLzfse_of_lt hwritten hpast

end

/-! ### Failures that write nothing -/

/-- Nothing is written unless decoding succeeds. -/
def Decoded.AllOrNothing (d : Decoded) : Prop :=
  ∀ e, d.outcome = .error e → d.output = .empty

theorem Decoded.allOrNothing_ok (output : ByteArray) : (Decoded.ok output).AllOrNothing := nofun

theorem Decoded.allOrNothing_error (e : Error) : (Decoded.error e).AllOrNothing :=
  fun _ _ => rfl

section

variable {data : ByteArray} {size : Nat} {decoder : LzfseDecoder}

theorem allOrNothing_inflateLzfse : (inflateLzfse data size decoder).AllOrNothing := by
  unfold inflateLzfse
  split
  · split
    · exact Decoded.allOrNothing_error _
    · exact Decoded.allOrNothing_ok _
  · exact Decoded.allOrNothing_error _

theorem allOrNothing_inflateLzvn : (inflateLzvn data size decoder).AllOrNothing := by
  unfold inflateLzvn
  split
  · exact Decoded.allOrNothing_error _
  · split
    · exact Decoded.allOrNothing_error _
    · exact allOrNothing_inflateLzfse

/-- LZFSE and LZVN data is decoded elsewhere, and copied when that has succeeded. -/
theorem CompressionMethod.allOrNothing_decode {method : CompressionMethod}
    (h : method.codec? = some .lzfse ∨ method.codec? = some .lzvn) :
    (method.decode data size decoder).AllOrNothing := by
  obtain h | h := h
  · rw [method.decode_of_codec? h]
    exact allOrNothing_inflateLzfse
  · rw [method.decode_of_codec? h]
    unfold Codec.decode Codec.decodeMarked
    dsimp only
    split
    · exact Decoded.allOrNothing_error _
    · split
      · exact Decoded.allOrNothing_ok _
      · exact allOrNothing_inflateLzvn

end

/-! ### What is touched -/

/-- Bytes behind those that are written stay. -/
theorem framed_into {d : Decoded} {size : Nat} {buffer : ByteArray} (hd : d.output.size ≤ size)
    (hsize : size ≤ buffer.size) :
    Framed buffer size (attempt (d.into buffer).1, (d.into buffer).2) := by
  have hfits : 0 + d.output.size ≤ buffer.size := by omega
  have hstays (i : Nat) (hi : d.output.size ≤ i) :
      Bytes.get (Bytes.overlay buffer 0 d.output) i = Bytes.get buffer i := by
    rw [Bytes.get_overlay hfits, if_neg (by omega)]
  refine ⟨Bytes.size_overlay hfits, fun i hi => hstays i (hd.trans hi), fun w hw => ?_⟩
  -- What is reported is the size of the output.
  obtain ⟨u, -, rfl⟩ : ∃ u, d.outcome = .ok u ∧ d.output.size = w := by
    unfold Decoded.into at hw
    cases houtcome : d.outcome with
    | ok u =>
      rw [houtcome] at hw
      exact ⟨u, rfl, Except.ok.inj hw⟩
    | error e =>
      rw [houtcome] at hw
      cases hw
  exact ⟨hd, hstays⟩

theorem framed_self {size : Nat} {buffer : ByteArray} (stop : Stop) :
    Framed buffer size (.error stop, buffer) :=
  ⟨rfl, fun _ _ => rfl, nofun⟩

/-- **Decompression touches only what it reports.**  Whatever the method, the data, the size and the
    buffer are, and whatever the decoder of LZFSE streams gives, the bytes behind the first `size`
    ones stay, and so do those behind the ones that are reported as written.  The buffer stays as
    it is if decoding fails for one of the first reasons, or in any way if the data is LZFSE or LZVN
    data. -/
theorem decompressInPlace_framed (method : CompressionMethod) (data : ByteArray) (size : Nat)
    (buffer : ByteArray) (writer : LzfseWriter) :
    let result := decompressInPlace method data size buffer writer
    let expected := decompress method data size buffer writer.decoder
    SafelyGives result.1 expected.1 ∧ result.2 = expected.2 ∧
    Framed buffer size result ∧
    (∀ e, FailsFirst method data size buffer writer e → result = (.error (.failed e), buffer)) ∧
    (method.codec? = some .lzfse ∨ method.codec? = some .lzvn →
      ∀ stop, result.1 = .error stop → result.2 = buffer) := by
  intro result expected
  obtain ⟨houtcome, hbuffer⟩ := decompressInPlace_eq method data size buffer writer
  have hresult : result = (attempt expected.1, expected.2) := Prod.ext houtcome.1 hbuffer
  refine ⟨houtcome, hbuffer, ?_, fun e he => ?_, fun hcodec stop hstop => ?_⟩
  · by_cases hsize : buffer.size < size
    · rw [show result = (_, buffer) from if_pos hsize]
      exact framed_self _
    · rw [hresult, show expected = _ from if_neg hsize]
      exact framed_into (method.fills data size writer).size_le (Nat.le_of_not_lt hsize)
  · rw [hresult, show expected = _ from he.decompress_eq]
    rfl
  · by_cases hsize : buffer.size < size
    · exact congrArg Prod.snd (show result = _ from if_pos hsize)
    · have hinto : expected = (method.decode data size writer.decoder).into buffer := if_neg hsize
      -- An empty output is copied into the buffer, which changes nothing.
      have hnothing : (method.decode data size writer.decoder).output = .empty := by
        cases houtcome : (method.decode data size writer.decoder).outcome with
        | error e => exact method.allOrNothing_decode hcodec e houtcome
        | ok u =>
          rw [hresult, hinto, Decoded.into, houtcome] at hstop
          cases hstop
      rw [hresult, hinto, Decoded.into, hnothing]
      exact Bytes.overlay_empty (Nat.zero_le _)

/-- A decoder of LZFSE streams that finds more output than its buffer has room for. -/
def overfull : LzfseWriter := fun _ buffer =>
  (.error "BufferTooSmall", ⟨Bytes.zeros buffer.size, Bytes.size_zeros _⟩)

/-- A stored block of three bytes, and the end of its stream. -/
def threeStoredBytes : ByteArray :=
  ⟨#[0x62, 0x76, 0x78, 0x2d, 3, 0, 0, 0, 1, 2, 3, 0x62, 0x76, 0x78, 0x24]⟩

/-- Four bytes are decoded into room for five, in a buffer of eight.  A header with a wrong check and
    three bytes for which there is room for two leave the buffer as it is. -/
theorem framed_eightBytes :
    let buffer := Bytes.fill 8 0xaa
    let decoded := decompressInPlace ⟨3⟩ Deflate.literalAndCopy 5 buffer overfull
    Framed buffer 5 decoded ∧ decoded.1 = .ok 4 ∧ Bytes.get decoded.2 4 = 0xaa ∧
      decompressInPlace ⟨3⟩ ⟨#[0x78, 0x00]⟩ 5 buffer overfull
        = (.error (.failed (.zlib .check)), buffer) ∧
      (decompressInPlace ⟨12⟩ threeStoredBytes 2 buffer overfull).2 = buffer := by
  dsimp only
  have hsize : (Bytes.fill 8 0xaa).size = 8 := Bytes.size_fill 8 0xaa
  obtain ⟨hgives, -, hframed, -⟩ :=
    decompressInPlace_framed ⟨3⟩ Deflate.literalAndCopy 5 (Bytes.fill 8 0xaa) overfull
  obtain ⟨-, -, -, hrefused, -⟩ :=
    decompressInPlace_framed ⟨3⟩ ⟨#[0x78, 0x00]⟩ 5 (Bytes.fill 8 0xaa) overfull
  obtain ⟨-, -, -, -, hfull⟩ :=
    decompressInPlace_framed ⟨12⟩ threeStoredBytes 2 (Bytes.fill 8 0xaa) overfull
  have hdecoded : (decompressInPlace ⟨3⟩ Deflate.literalAndCopy 5 (Bytes.fill 8 0xaa) overfull).1
      = .ok 4 := by
    have hdecode := @decode_of_stream ⟨3⟩ Deflate.literalAndCopy 5 overfull.decoder rfl (by decide)
      (by decide)
    rw [Deflate.inflateZlib_literalAndCopy] at hdecode
    rw [hgives.1, decompress, if_neg (by omega), hdecode]
    rfl
  have hstays := (hframed.written 4 hdecoded).2 4 (Nat.le_refl 4)
  exact ⟨hframed, hdecoded, hstays.trans (by decide),
    hrefused _ (.header (by omega) rfl (by decide) (by decide) (by decide)),
    hfull (.inl rfl) (.failed (.lzfse "BufferTooSmall")) (by cbv)⟩

end Apfs
