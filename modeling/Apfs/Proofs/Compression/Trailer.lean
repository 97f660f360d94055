import Apfs.Proofs.Bytes.Pieces
import Apfs.Proofs.Compression.Truncation

namespace Apfs.Deflate

/-!
# The checksum after a zlib stream

Decoding is given up early only when the buffer is full.  If it is not filled, the last block was
decoded to its end, and the four bytes after it were compared with the checksum of the output.

* `GoodHeader`, `zlibHeader_eq_ok_iff` — which headers are accepted.
* `stream_overlay` — bits in front of what is overwritten stay.
* `exists_trailer_of_inflateZlib` — what is known of a stream that does not fill its buffer, and
  what happens if its checksum is replaced.
-/

/-! ### Headers -/

/-- The header bytes name the method that is decoded and a window of at most 32768 bytes, have the
    right check bits, and no dictionary is needed. -/
structure GoodHeader (method flags : UInt8) : Prop where
  method_eq : method &&& 0x0f = 8
  window_le : method.toNat / 16 ≤ 7
  mod_eq_zero : (method.toNat * 256 + flags.toNat) % 31 = 0
  no_dictionary : flags &&& 0x20 = 0

theorem zlibFault?_eq_none_iff {method flags : UInt8} :
    zlibFault? method flags = none ↔ GoodHeader method flags := by
  unfold zlibFault?
  constructor
  · intro h
    split at h
    · cases h
    split at h
    · cases h
    split at h
    · cases h
    split at h
    · cases h
    next hmethod hwindow hcheck hdictionary =>
      exact ⟨not_ne_iff.mp hmethod, Nat.le_of_not_lt hwindow, not_ne_iff.mp hcheck,
        not_ne_iff.mp hdictionary⟩
  · intro h
    rw [if_neg (not_ne_iff.mpr h.method_eq), if_neg (Nat.not_lt.mpr h.window_le),
      if_neg (not_ne_iff.mpr h.mod_eq_zero), if_neg (not_ne_iff.mpr h.no_dictionary)]

/-- The header is read from the first two bytes. -/
theorem zlibHeader_eq_ok_iff {data : ByteArray} :
    Inflater.zlibHeader (.atBit data .lowFirst 0) = .ok () (.atBit data .lowFirst 16) ↔
      2 ≤ data.size ∧ GoodHeader (Bytes.get data 0) (Bytes.get data 1) := by
  have hfirst : Bytes.get (data.extract 0 2) 0 = Bytes.get data 0 :=
    Bytes.get_extract data (by decide)
  have hsecond : Bytes.get (data.extract 0 2) 1 = Bytes.get data 1 :=
    Bytes.get_extract data (by decide)
  rw [← zlibFault?_eq_none_iff, ← hfirst, ← hsecond]
  unfold Inflater.zlibHeader
  rw [bind_eq_ok_iff]
  constructor
  · rintro ⟨header, r, hread, h⟩
    obtain ⟨hsize, rfl, -⟩ := (BitReader.takeBytes_eq_ok_iff ..).mp hread
    refine ⟨hsize, ?_⟩
    cases hfault : zlibFault? (Bytes.get (data.extract 0 2) 0) (Bytes.get (data.extract 0 2) 1) with
    | none => rfl
    | some fault =>
      rw [show (0 + 7) / 8 = 0 from rfl, Nat.zero_add, hfault] at h
      cases h
  · rintro ⟨hsize, hfault⟩
    refine ⟨_, _, (BitReader.takeBytes_eq_ok_iff ..).mpr ⟨hsize, rfl, rfl⟩, ?_⟩
    rw [show (0 + 7) / 8 = 0 from rfl, Nat.zero_add, hfault]
    rfl

/-! ### Overwritten bytes -/

/-- Bits that come next stay if the stream changes only behind them. -/
theorem prefix_drop_of_take_eq {l l' w : List Bool} {p k : Nat} (h : l.take k = l'.take k)
    (hk : p + w.length ≤ k) (hw : w <+: l.drop p) : w <+: l'.drop p := by
  have hcomes : w <+: (l'.drop p).take (k - p) := by
    rw [← List.drop_take, ← h, List.drop_take]
    exact List.prefix_take_iff.mpr ⟨hw, by omega⟩
  exact (List.prefix_take_iff.mp hcomes).1

/-- The bits in front of what is overwritten stay. -/
theorem stream_overlay {data piece : ByteArray} {k : Nat} (h : k + piece.size ≤ data.size) :
    (BitOrder.lowFirst.stream (Bytes.overlay data k piece)).take (8 * k)
      = (BitOrder.lowFirst.stream data).take (8 * k) := by
  have htake (bytes : ByteArray) : bytes.data.toList.take k = (bytes.extract 0 k).data.toList := by
    rw [← cut_toList]
    rfl
  rw [take_stream, take_stream, htake, htake, Bytes.extract_overlay h]

/-! ### The checksum -/

/-- After the header come blocks that stand for `bytes`, of which the last one is marked.  Decoding
    into `n` bytes reaches its end, and `k` is the next byte boundary. -/
def ReachesEnd (data : ByteArray) (n : Nat) (bytes : ByteArray) (k : Nat) : Prop :=
  ∃ blocks w, StreamBits 16 blocks w ∧ w <+: (BitOrder.lowFirst.stream data).drop 16 ∧
    expand blocks = some bytes.data.toList ∧
    Inflater.blocks n (state n data 16 [])
      = .ok .reached (state n data (16 + w.length) bytes.data.toList) ∧
    k = (16 + w.length + 7) / 8

/-- Behind the header and the blocks, only the checksum matters. -/
theorem inflateZlib_overlay {data bytes trailer : ByteArray} {n k : Nat}
    (hheader : 2 ≤ data.size ∧ GoodHeader (Bytes.get data 0) (Bytes.get data 1))
    (hend : ReachesEnd data n bytes k) (hroom : bytes.size ≤ n) (hfits : k + 4 ≤ data.size)
    (hsize : trailer.size = 4)
    (hne : UInt32.ofNat (Bytes.ofBigEndian trailer.toList) ≠ Checksum.adler32 bytes) :
    inflateZlib (Bytes.overlay data k trailer) n
      = ⟨bytes, .error (.adlerMismatch (UInt32.ofNat (Bytes.ofBigEndian trailer.toList))
          (Checksum.adler32 bytes))⟩ := by
  obtain ⟨blocks, w, hbits, hcomes, hexpand, -, hk⟩ := hend
  have hfits' : k + trailer.size ≤ data.size := by omega
  have hsame : (Bytes.overlay data k trailer).size = data.size := Bytes.size_overlay hfits'
  -- The blocks end before the bytes that are overwritten.
  have hcomes' : w <+: (BitOrder.lowFirst.stream (Bytes.overlay data k trailer)).drop 16 :=
    prefix_drop_of_take_eq (stream_overlay hfits').symm (by omega) hcomes
  have hget (i : Nat) (hi : i < 2) :
      Bytes.get (Bytes.overlay data k trailer) i = Bytes.get data i := by
    rw [Bytes.get_overlay hfits', if_neg (by omega)]
  have hheader' : Inflater.zlibHeader (.atBit (Bytes.overlay data k trailer) .lowFirst 0)
      = .ok () (.atBit (Bytes.overlay data k trailer) .lowFirst 16) := by
    rw [zlibHeader_eq_ok_iff, hsame, hget 0 (by decide), hget 1 (by decide)]
    exact hheader
  have hread : BitReader.takeBytes 4
      (.atBit (Bytes.overlay data k trailer) .lowFirst (16 + w.length))
      = .ok trailer (.atBit (Bytes.overlay data k trailer) .lowFirst (8 * (k + 4))) := by
    rw [BitReader.takeBytes_eq_ok_iff, ← hk, hsame]
    have hstands := (Bytes.standsAt_overlay hfits').extract_eq
    rw [hsize] at hstands
    exact ⟨hfits, hstands.symm, rfl⟩
  have hle : 16 ≤ 8 * (Bytes.overlay data k trailer).size := by omega
  have hwhole : cut n bytes.data.toList = bytes := cut_of_length_le hroom
  rw [inflateZlib_of_header hheader',
    zlibBody_of_fits hle hbits hcomes' hexpand ((fits_iff hbits hexpand).mpr (.inl hroom)),
    zlibTrailer_eq hread, hwhole, if_pos hne]
  rfl

/-- **A result that does not fill its buffer is verified.**  The header is good, the last block is
    decoded to its end, and the four bytes from the next byte boundary on are the checksum of the
    output.  With any other four bytes in their place, the same call fails and tells both
    checksums. -/
theorem exists_trailer_of_inflateZlib {data out : ByteArray} {w : Nat}
    (h : ((inflateZlib data out.size).into out).1 = .ok w) (hlt : w < out.size) :
    (2 ≤ data.size ∧ GoodHeader (Bytes.get data 0) (Bytes.get data 1)) ∧
    ∃ bytes k, bytes = ((inflateZlib data out.size).into out).2.extract 0 w ∧
      ReachesEnd data out.size bytes k ∧ k + 4 ≤ data.size ∧
      Bytes.ofBigEndian (data.extract k (k + 4)).toList = (Checksum.adler32 bytes).toNat ∧
      ∀ trailer : ByteArray, trailer.size = 4 → trailer ≠ data.extract k (k + 4) →
        ((inflateZlib (Bytes.overlay data k trailer) out.size).into out).1
          = .error (.adlerMismatch (UInt32.ofNat (Bytes.ofBigEndian trailer.toList))
              (Checksum.adler32 bytes)) := by
  obtain ⟨bytes, hdone, rfl⟩ := into_eq_ok_iff.mp h
  obtain ⟨hle, hheader, -⟩ := header_of_inflateZlib hdone
  obtain ⟨blocks, w, hbits, hcomes, hexpand, hreached, stored, r, hread, hsum⟩ :=
    exists_reached_of_inflateZlib hdone hlt
  obtain ⟨hfits, rfl, -⟩ := (BitReader.takeBytes_eq_ok_iff ..).mp hread
  have hgood := zlibHeader_eq_ok_iff.mp hheader
  have hend : ReachesEnd data out.size bytes ((16 + w.length + 7) / 8) :=
    ⟨blocks, w, hbits, hcomes, hexpand, hreached, rfl⟩
  generalize (16 + w.length + 7) / 8 = k at hfits hsum hend
  -- The number of four bytes is not cut when it becomes a word.
  have hnumber {four : ByteArray} (hfour : four.size = 4) :
      (UInt32.ofNat (Bytes.ofBigEndian four.toList)).toNat = Bytes.ofBigEndian four.toList := by
    have hlt := Bytes.ofBigEndian_lt four.toList
    rw [Bytes.toList_eq, show four.data.toList.length = 4 from hfour] at hlt
    rw [Bytes.toList_eq]
    exact UInt32.toNat_ofNat_of_lt hlt
  have hstored : (data.extract k (k + 4)).size = 4 := by
    rw [ByteArray.size_extract]
    omega
  refine ⟨hgood, bytes, k, ?_, hend, hfits, ?_, fun trailer hsize hne => ?_⟩
  · rw [hdone, extract_into_ok _ _ le_rfl, ByteArray.extract_zero_size]
  · rw [← hsum, hnumber hstored]
  · -- Four bytes are determined by their number.
    have hne' : UInt32.ofNat (Bytes.ofBigEndian trailer.toList) ≠ Checksum.adler32 bytes := by
      intro heq
      apply hne
      rw [← hsum] at heq
      have hnumbers := congrArg UInt32.toNat heq
      rw [hnumber hsize, hnumber hstored, Bytes.toList_eq, Bytes.toList_eq] at hnumbers
      apply ByteArray.ext
      apply Array.toList_inj.mp
      exact Bytes.ofBigEndian_inj (hsize.trans hstored.symm) hnumbers
    rw [inflateZlib_overlay hgood hend (Nat.le_of_lt hlt) hfits hsize hne']
    rfl

/-- With zeros in place of its checksum, a stream of four bytes is refused. -/
theorem exists_trailer_literalAndCopy :
    let out : ByteArray := ⟨#[0, 0, 0, 0, 0]⟩
    let zeros : ByteArray := ⟨#[0, 0, 0, 0]⟩
    ((inflateZlib literalAndCopy out.size).into out).1 = .ok 4 ∧ 4 < out.size ∧
      ∃ k, ReachesEnd literalAndCopy out.size fourBytes k ∧
        ((inflateZlib (Bytes.overlay literalAndCopy k zeros) out.size).into out).1
          = .error (.adlerMismatch 0 0x03ce0185) := by
  intro out zeros
  have hdone : inflateZlib literalAndCopy out.size = .ok fourBytes := inflateZlib_literalAndCopy
  have hok : ((inflateZlib literalAndCopy out.size).into out).1 = .ok 4 :=
    into_eq_ok_iff.mpr ⟨fourBytes, hdone, rfl⟩
  have hlt : 4 < out.size := by decide
  have hsum : Checksum.adler32 fourBytes = 0x03ce0185 := by cbv
  obtain ⟨-, bytes, k, hbytes, hend, -, hstored, hother⟩ := exists_trailer_of_inflateZlib hok hlt
  rw [hdone, extract_into_ok _ _ (by decide)] at hbytes
  obtain rfl : bytes = fourBytes := hbytes
  have hnumber : Bytes.ofBigEndian zeros.toList = 0 := by cbv
  refine ⟨hok, hlt, k, hend, ?_⟩
  rw [hother zeros rfl, hnumber, hsum]
  · rfl
  · intro heq
    rw [← heq, hnumber, hsum] at hstored
    cases hstored

end Apfs.Deflate
