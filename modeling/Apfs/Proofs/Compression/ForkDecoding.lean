import Apfs.Compression.File
import Apfs.Proofs.Compression.ForkLayout
import Apfs.Proofs.Compression.Streams
import Apfs.Proofs.Layout.Structures

namespace Apfs

/-!
# Decoding what a resource fork holds

A file in chunks is decoded to what its chunks were made from, and only if the fork holds all of
them: a table with another number of chunks, or a fork that ends before a chunk does, gives an
error.

* `CompressedFile.piece` — the part of the data that a chunk decodes to.
* `CompressedFile.Encodes` — chunks that are decoded to the pieces of some data.
* `CompressedFile.ofAttribute_of_standsAt` — the file that an attribute describes.
* `CompressedFile.decodeChunks_drop` — decoding the chunks that are left.
* `CompressedFile.decompressAll_packed` — decoding a file whose chunks are in the fork.
* `CompressedFile.decompress_storedUnit` — decoding a chunk whose bytes are stored.
-/

open Bytes (StandsAt)

/-! ### Headers -/

namespace CompressedFile

/-- An attribute that starts with a header describes a compressed file. -/
theorem ofAttribute_of_standsAt {content : ByteArray} {header : CompressionHeader}
    (h : StandsAt content 0 (encoded header))
    (hsignature : header.signature = CompressionHeader.expectedSignature) :
    ofAttribute content =
      .ok (some ⟨header, content.extract (Layout.size CompressionHeader) content.size⟩) := by
  have hle := h.le
  rw [size_encoded] at hle
  rw [ofAttribute, sequence_eq_ok_iff]
  refine ⟨some header, ?_, rfl⟩
  rw [CompressionHeader.read, if_neg (by omega), sequence_eq_ok_iff]
  exact ⟨header, decode_of_standsAt h, by rw [if_pos hsignature]; rfl⟩

/-! ### Pieces of the data -/

/-- The part of the data that the chunk `i` decodes to: 65536 bytes, or what is left. -/
def piece (data : ByteArray) (i : Nat) : ByteArray :=
  data.extract (chunkSize * i) (chunkSize * (i + 1))

/-- The chunks decode to the pieces of the data. -/
structure Encodes (method : CompressionMethod) (decoder : LzfseDecoder) (data : ByteArray)
    (units : List ByteArray) : Prop where
  length : units.length = (data.size + (chunkSize - 1)) / chunkSize
  units : ∀ (i : Nat) (unit : ByteArray), units[i]? = some unit → ∃ buffer : ByteArray,
    buffer.size = (piece data i).size ∧
      Apfs.decompress method unit (piece data i).size buffer decoder =
        (.ok (piece data i).size, piece data i)

theorem size_piece (data : ByteArray) (i : Nat) :
    (piece data i).size = min chunkSize (data.size - chunkSize * i) := by
  rw [piece, ByteArray.size_extract]
  unfold chunkSize
  omega

/-- What fills a buffer is what was decoded. -/
theorem result_of_decompress {method : CompressionMethod} {decoder : LzfseDecoder}
    {unit buffer output : ByteArray} (hbuffer : buffer.size = output.size)
    (h : Apfs.decompress method unit output.size buffer decoder = (.ok output.size, output)) :
    (method.decode unit output.size decoder).result = .ok output := by
  rw [Apfs.decompress, if_neg (by omega), Decoded.into, Prod.mk.injEq] at h
  obtain ⟨hcount, hout⟩ := h
  unfold Decoded.result
  cases houtcome : (method.decode unit output.size decoder).outcome with
  | error e => simp [houtcome, Except.map] at hcount
  | ok _ =>
    have hsize : (method.decode unit output.size decoder).output.size = output.size := by
      simpa [houtcome, Except.map] using hcount
    -- The output takes the whole buffer, so nothing of what was in it before is left.
    have hwhole : Bytes.StandsAt output 0 (method.decode unit output.size decoder).output := by
      have hstands := @Bytes.standsAt_overlay buffer
        (method.decode unit output.size decoder).output 0 (by omega)
      rwa [hout] at hstands
    have hsame := hwhole.extract_eq
    rw [hsize, Nat.zero_add, ByteArray.extract_zero_size] at hsame
    exact congrArg Except.ok hsame.symm

variable {method : CompressionMethod} {decoder : LzfseDecoder} {data : ByteArray}
  {units : List ByteArray}

/-- **The chunks that are left** decode to the data that is left.  By induction on these chunks. -/
theorem decodeChunks_drop (h : Encodes method decoder data units) {rest : List ByteArray} {i : Nat}
    (hrest : units.drop i = rest) (hi : i ≤ units.length) :
    decodeChunks method decoder data.size rest (data.extract 0 (chunkSize * i)) = .ok data := by
  have hlength := h.length
  induction rest generalizing i with
  | nil =>
    have hle := List.drop_eq_nil_iff.mp hrest
    have hall : data.size ≤ chunkSize * i := by
      unfold chunkSize at *
      omega
    rw [Bytes.extract_of_size_le hall]
    rfl
  | cons unit rest ih =>
    obtain ⟨hunit, htail⟩ := next_of_drop hrest
    have hlt : i < units.length := (List.getElem?_eq_some_iff.mp hunit).1
    obtain ⟨buffer, hbuffer, hdecode⟩ := h.units i unit hunit
    have hfront : (data.extract 0 (chunkSize * i)).size = chunkSize * i := by
      rw [ByteArray.size_extract]
      unfold chunkSize at *
      omega
    -- The chunk is to decode to as much as is left of the data, but no more than a whole piece.
    have hexpected : min chunkSize (data.size - (data.extract 0 (chunkSize * i)).size) =
        (piece data i).size := by
      rw [hfront, size_piece]
    have hgrown : data.extract 0 (chunkSize * i) ++ piece data i =
        data.extract 0 (chunkSize * (i + 1)) := by
      rw [piece, ByteArray.extract_append_extract, Nat.min_eq_left (Nat.zero_le _),
        Nat.max_eq_right (Nat.mul_le_mul_left _ (Nat.le_succ i))]
    rw [decodeChunks, hexpected, sequence_eq_ok_iff]
    refine ⟨_, result_of_decompress hbuffer hdecode, ?_⟩
    rw [guarded_eq_ok_iff, hgrown]
    exact ⟨fun hne => hne rfl, ih htail hlt⟩

/-! ### Files -/

/-- The header of a file that holds the data in the given way. -/
def headerOf (method : CompressionMethod) (data : ByteArray) : CompressionHeader where
  signature := CompressionHeader.expectedSignature
  method := method
  uncompressedSize := UInt64.ofNat data.size

theorem size_of_header (hsize : data.size < sizeLimit) (inlineData : ByteArray) :
    CompressedFile.size ⟨headerOf method data, inlineData⟩ = data.size :=
  UInt64.toNat_ofNat_of_lt (by unfold sizeLimit at hsize; show _ < 2 ^ 64; omega)

/-- A fork is decoded if it holds as many chunks as the size of the file needs, and all of them can
    be decoded. -/
theorem decompressFork_eq_ok_iff {f : CompressedFile} {fork output : ByteArray} :
    f.decompressFork fork decoder = .ok output ↔
      ∃ places, ResourceFork.Packed f.header.method fork places ∧
        places.length = (f.size + (chunkSize - 1)) / chunkSize ∧
        decodeChunks f.header.method decoder f.size (places.map Prod.snd) .empty = .ok output := by
  have hsequence : f.decompressFork fork decoder =
      (if f.header.method = .zlibFork then ResourceFork.locatedChunks fork
        else ResourceFork.adjacentChunks fork) >>= fun chunks =>
          if chunks.size ≠ (f.size + (chunkSize - 1)) / chunkSize then
            throw (.compression .chunkCount) >>= fun _ : PUnit =>
              decodeChunks f.header.method decoder f.size chunks.toList .empty
          else decodeChunks f.header.method decoder f.size chunks.toList .empty := by
    unfold decompressFork
    split <;> rfl
  rw [hsequence]
  simp only [sequence_eq_ok_iff, guarded_eq_ok_iff, ResourceFork.chunks_eq_ok_iff, not_not]
  constructor
  · rintro ⟨chunks, ⟨places, hpacked, hunits⟩, hcount, hdecode⟩
    refine ⟨places, hpacked, ?_, by rwa [hunits]⟩
    rw [← hcount, ← Array.length_toList, ← hunits, List.length_map]
  · rintro ⟨places, hpacked, hcount, hdecode⟩
    refine ⟨(places.map Prod.snd).toArray, ⟨places, hpacked, rfl⟩, ?_, hdecode⟩
    rw [← hcount]
    simp

/-- On an unlocked volume, a file of a method with chunks is decoded from its fork. -/
theorem decompressAll_eq {content fork : ByteArray} {lock : VolumeLock} (hmethod : method.inFork)
    (hsize : data.size < sizeLimit) (hlock : lock.isLocked = false)
    (hcontent : StandsAt content 0 (encoded (headerOf method data))) :
    decompressAll content (some fork) lock decoder =
      (decompressFork ⟨headerOf method data,
        content.extract (Layout.size CompressionHeader) content.size⟩ fork decoder).map some := by
  have hunlocked : lock.ensureUnlocked = .ok () := by
    rw [VolumeLock.ensureUnlocked, hlock]
    rfl
  have hcodec : ¬ method.codec?.isNone := by
    rw [CompressionMethod.inFork] at hmethod
    rw [CompressionMethod.codec?]
    cases hdescription : method.description? with
    | none => simp [hdescription] at hmethod
    | some description => simp
  generalize hfile : CompressedFile.mk (headerOf method data)
    (content.extract (Layout.size CompressionHeader) content.size) = f
  have hattribute : ofAttribute content = .ok (some f) := by
    rw [ofAttribute_of_standsAt hcontent rfl, hfile]
  have hfileMethod : f.header.method = method := by rw [← hfile]; rfl
  have hfileSize : f.size = data.size := by
    rw [← hfile]
    exact size_of_header hsize _
  have hdecompress : f.decompress (some fork) lock decoder = f.decompressFork fork decoder := by
    unfold decompress
    rw [hunlocked, hfileMethod, hfileSize]
    show (if _ then _ else if _ then _ else if _ then _ else _) = _
    rw [if_neg hcodec, if_neg (Nat.not_le.mpr hsize), if_pos hmethod]
  -- Nothing that comes before the fork fails: the volume is unlocked, and the header is right.
  unfold decompressAll
  rw [hunlocked, hattribute]
  show f.decompress (some fork) lock decoder >>= (fun a => pure (some a)) = _
  rw [hdecompress]
  cases f.decompressFork fork decoder <;> rfl

/-- **Chunks in the fork.**  A file whose chunks decode to the pieces of some data is decoded to
    this data, if its fork holds the chunks.  It is not decoded if the table of its fork has another
    number of chunks, nor if the fork ends before a chunk does. -/
theorem decompressAll_packed {content : ByteArray} {lock : VolumeLock}
    {places : List (Nat × ByteArray)} (hmethod : method.inFork) (hsize : data.size < sizeLimit)
    (hlock : lock.isLocked = false)
    (hcontent : StandsAt content 0 (encoded (headerOf method data)))
    (hunits : Encodes method decoder data (places.map Prod.snd)) :
    (∀ fork, ResourceFork.Packed method fork places →
      decompressAll content (some fork) lock decoder = .ok (some data)) ∧
    (∀ fork count, ResourceFork.Counts method fork count → count ≠ places.length →
      ∃ e, decompressAll content (some fork) lock decoder = .error e) ∧
    ∀ fork stop, ResourceFork.Packed method fork places →
      (∃ place ∈ places, stop < place.1 + place.2.size) →
      ∃ e, decompressAll content (some (fork.extract 0 stop)) lock decoder = .error e := by
  have hlength := hunits.length
  rw [List.length_map] at hlength
  simp only [decompressAll_eq hmethod hsize hlock hcontent]
  generalize content.extract (Layout.size CompressionHeader) content.size = inlineData
  have hfileSize : CompressedFile.size ⟨headerOf method data, inlineData⟩ = data.size :=
    size_of_header hsize inlineData
  -- Where no output is possible, there is an error.
  have herror (fork : ByteArray) (hnone : ∀ output, decompressFork
      ⟨headerOf method data, inlineData⟩ fork decoder ≠ .ok output) :
      ∃ e, (decompressFork ⟨headerOf method data, inlineData⟩ fork decoder).map some
        = .error e := by
    cases hresult : decompressFork ⟨headerOf method data, inlineData⟩ fork decoder with
    | error e => exact ⟨e, rfl⟩
    | ok output => exact absurd hresult (hnone output)
  refine ⟨fun fork hpacked => ?_, fun fork count hcounts hne => herror fork fun output h => ?_,
    fun fork stop hpacked hcut => herror _ fun output h => ?_⟩
  · have hdecode := decodeChunks_drop hunits (i := 0) rfl (Nat.zero_le _)
    rw [Nat.mul_zero, ByteArray.extract_same] at hdecode
    have hfork : decompressFork ⟨headerOf method data, inlineData⟩ fork decoder = .ok data := by
      rw [decompressFork_eq_ok_iff, hfileSize]
      exact ⟨places, hpacked, hlength, hdecode⟩
    rw [hfork]
    rfl
  · -- A table that says another number does not go with the chunks that would be decoded.
    obtain ⟨places', hpacked, hlength', -⟩ := decompressFork_eq_ok_iff.mp h
    rw [hfileSize, ← hlength] at hlength'
    exact hne (hcounts.unique (hlength' ▸ hpacked.counts))
  · -- The chunks that would be decoded are those of the whole fork, so they end before the cut.
    obtain ⟨places', hpacked', -, -⟩ := decompressFork_eq_ok_iff.mp h
    obtain ⟨hwhole, hbefore⟩ := hpacked'.of_cut
    obtain rfl : places = places' := hpacked.unique hwhole
    obtain ⟨⟨start, unit⟩, hmem, hlt⟩ := hcut
    obtain ⟨i, hi⟩ := List.mem_iff_getElem?.mp hmem
    exact absurd (hbefore i start unit hi) (Nat.not_le.mpr hlt)

/-! ### Stored chunks out of order -/

/-- A chunk whose bytes are stored behind the marker. -/
def storedUnit (bytes : ByteArray) : ByteArray := ⟨#[Codec.zlibStoredMarker]⟩ ++ bytes

/-- A stored chunk is decoded to its bytes. -/
theorem decompress_storedUnit (hcodec : method.codec? = some .zlib) (bytes : ByteArray) :
    Apfs.decompress method (storedUnit bytes) bytes.size (Bytes.zeros bytes.size) decoder
      = (.ok bytes.size, bytes) := by
  have hsize : (storedUnit bytes).size = 1 + bytes.size := ByteArray.size_append
  have hmarker : Bytes.get (storedUnit bytes) 0 = Codec.zlibStoredMarker := by
    rw [storedUnit, Bytes.get_append]
    rfl
  have hbytes : (storedUnit bytes).extract 1 (1 + bytes.size) = bytes := by
    have hstands : StandsAt (storedUnit bytes) 1 bytes :=
      (Bytes.standsAt_append_left ⟨#[Codec.zlibStoredMarker]⟩).mpr (Bytes.standsAt_self bytes)
    exact hstands.extract_eq
  have hdecode : method.decode (storedUnit bytes) bytes.size decoder = .ok bytes := by
    rw [CompressionMethod.decode, hcodec]
    show Codec.decodeMarked .. = _
    rw [Codec.decodeMarked, if_neg (by omega), if_pos hmarker, hbytes]
  have hall : Bytes.overlay (Bytes.zeros bytes.size) 0 bytes = bytes := by
    have hfits : 0 + bytes.size ≤ (Bytes.zeros bytes.size).size := by
      rw [Bytes.size_zeros]
      omega
    have hstands := (Bytes.standsAt_overlay hfits).extract_eq
    rwa [Bytes.extract_of_size_le] at hstands
    rw [Bytes.size_overlay hfits, Bytes.size_zeros]
    omega
  rw [Apfs.decompress, if_neg (by rw [Bytes.size_zeros]; omega), hdecode]
  exact Prod.ext rfl hall

/-- A whole piece of data, and what is left behind it. -/
def wholePiece : ByteArray := Bytes.fill chunkSize 0x61
@[inherit_doc wholePiece] def lastPiece : ByteArray := ⟨#[0x62, 0x63, 0x64]⟩

/-- What stands in front of the chunk of the first piece: a table that says that there are `count`
    chunks, the chunk of the last piece, and three other bytes. -/
def reversedFront (count : UInt8) : ByteArray :=
  ⟨#[0, 0, 0, 16, 0, 0, 0, 0, 0, 0, 0, 0, 0, 0, 0, 0, 20, 0, 1, 0, count, 0, 0, 0,
    27, 0, 0, 0, 1, 0, 1, 0, 20, 0, 0, 0, 4, 0, 0, 0]⟩ ++ storedUnit lastPiece ++ ⟨#[1, 2, 3]⟩

/-- A fork with two chunks, of which the second comes first. -/
def reversedFork (count : UInt8) (first : ByteArray) : ByteArray :=
  reversedFront count ++ storedUnit first

/-- Where the two chunks are. -/
def reversedPlaces (first : ByteArray) : List (Nat × ByteArray) :=
  [(47, storedUnit first), (40, storedUnit lastPiece)]

section

variable {first : ByteArray}

theorem size_wholePiece : wholePiece.size = chunkSize := Bytes.size_fill ..

theorem size_storedUnit (bytes : ByteArray) : (storedUnit bytes).size = bytes.size + 1 := by
  rw [storedUnit, ByteArray.size_append, Nat.add_comm]
  rfl

/-- Both chunks are found through the table. -/
theorem located_reversedFork (hfirst : first.size = chunkSize) :
    ResourceFork.Located (reversedFork 2 first) 16 (reversedPlaces first) where
  large := by
    rw [reversedFork, ByteArray.size_append, size_storedUnit, hfirst]
    decide
  header := ⟨by decide, StandsAt.append (by decide) _⟩
  count := by
    have hlength : (reversedPlaces first).length = 2 := rfl
    rw [hlength]
    exact ⟨by decide, StandsAt.append (by decide) _⟩
  places := by
    intro i start unit hi
    match i with
    | 0 =>
      obtain ⟨rfl, rfl⟩ := Prod.mk.inj (Option.some.inj hi)
      refine ⟨27, rfl, ⟨by decide, StandsAt.append (by decide) _⟩, ?_, ?_⟩
      · rw [size_storedUnit, hfirst]
        exact ⟨by decide, StandsAt.append (by decide) _⟩
      · have hfront : (reversedFront 2).size = 47 := by decide
        have hstands := (Bytes.standsAt_append_left (reversedFront 2)).mpr
          (Bytes.standsAt_self (storedUnit first))
        rwa [hfront] at hstands
    | 1 =>
      obtain ⟨rfl, rfl⟩ := Prod.mk.inj (Option.some.inj hi)
      exact ⟨20, rfl, ⟨by decide, StandsAt.append (by decide) _⟩,
        ⟨by decide, StandsAt.append (by decide) _⟩, StandsAt.append (by decide) _⟩

/-- The chunks decode to a whole piece and to what is left. -/
theorem encodes_reversedPlaces (hfirst : first.size = chunkSize) :
    Encodes .zlibFork decoder (first ++ lastPiece) ((reversedPlaces first).map Prod.snd) := by
  have hpieces : piece (first ++ lastPiece) 0 = first ∧
      piece (first ++ lastPiece) 1 = lastPiece := by
    constructor
    · rw [piece, ← hfirst, Nat.mul_zero]
      exact ByteArray.extract_append_eq_left (Nat.mul_one _)
    · have hnone : first.extract (chunkSize * 1) (chunkSize * 2) = .empty :=
        ByteArray.extract_eq_empty_iff.mpr (by omega)
      rw [piece, ByteArray.extract_append, hnone, ByteArray.empty_append, hfirst, Nat.mul_one,
        Nat.sub_self]
      exact Bytes.extract_of_size_le (by decide)
  refine ⟨?_, fun i unit hi => ?_⟩
  · rw [ByteArray.size_append, hfirst]
    rfl
  · match i with
    | 0 =>
      obtain rfl : storedUnit first = unit := Option.some.inj hi
      rw [hpieces.1]
      exact ⟨Bytes.zeros first.size, Bytes.size_zeros _, decompress_storedUnit rfl _⟩
    | 1 =>
      obtain rfl : storedUnit lastPiece = unit := Option.some.inj hi
      rw [hpieces.2]
      exact ⟨Bytes.zeros lastPiece.size, Bytes.size_zeros _, decompress_storedUnit rfl _⟩

/-- The last byte of the fork belongs to a chunk. -/
theorem exists_cut_reversedPlaces (hfirst : first.size = chunkSize) :
    ∃ place ∈ reversedPlaces first, 65583 < place.1 + place.2.size := by
  refine ⟨(47, storedUnit first), List.mem_cons_self, ?_⟩
  show 65583 < 47 + (storedUnit first).size
  rw [size_storedUnit, hfirst]
  decide

end

/-- Two chunks are decoded in the order of the table.  A table that says three, and a fork without
    its last byte, give errors. -/
theorem decompressAll_reversedFork :
    let data := wholePiece ++ lastPiece
    let content := encoded (headerOf .zlibFork data)
    let decoder : LzfseDecoder := fun _ _ => .error "not used"
    let decoded (fork : ByteArray) := decompressAll content (some fork) .unencrypted decoder
    decoded (reversedFork 2 wholePiece) = .ok (some data) ∧
      (∃ e, decoded (reversedFork 3 wholePiece) = .error e) ∧
      ∃ e, decoded ((reversedFork 2 wholePiece).extract 0 65583) = .error e := by
  intro data content decoder decoded
  have hpacked : ResourceFork.Packed .zlibFork (reversedFork 2 wholePiece)
      (reversedPlaces wholePiece) := ⟨16, located_reversedFork size_wholePiece⟩
  have hcounts : ResourceFork.Counts .zlibFork (reversedFork 3 wholePiece) 3 :=
    ⟨16, ⟨by decide, StandsAt.append (by decide) _⟩, by decide, StandsAt.append (by decide) _⟩
  have hsize : data.size < sizeLimit := by
    rw [ByteArray.size_append, size_wholePiece]
    decide
  obtain ⟨hwhole, hcount, hcut⟩ := @decompressAll_packed .zlibFork decoder data content .unencrypted
    (reversedPlaces wholePiece) (by decide) hsize rfl (Bytes.standsAt_self _)
    (encodes_reversedPlaces size_wholePiece)
  exact ⟨hwhole _ hpacked, hcount _ 3 hcounts (Nat.succ_ne_self 2),
    hcut _ _ hpacked (exists_cut_reversedPlaces size_wholePiece)⟩

end CompressedFile

end Apfs
