import Apfs.Proofs.Bytes.Pieces
import Apfs.Proofs.Compression.LimitedOutput

namespace Apfs.Deflate

/-!
# Decoding stored blocks

The bytes of a stored block stand at a byte boundary, after their number and its complement.

* `bitsOf_eq_lowBits` — the bits of bytes are those of a number.
* `storedBlock_eq_ok_iff`, `decodes_storedBlock` — decoding stored bytes.
-/

/-! ### Numbers in bytes -/

/-- Bytes whose bits start with the least significant one are the low bits of a number. -/
theorem bitsOf_eq_lowBits (bytes : List UInt8) :
    BitOrder.lowFirst.bitsOf bytes = lowBits (8 * bytes.length) (Bytes.ofLittleEndian bytes) := by
  have hnumber : ofLowBits (BitOrder.lowFirst.bitsOf bytes) = Bytes.ofLittleEndian bytes := by
    induction bytes with
    | nil => rfl
    | cons b bytes ih =>
      have hb : ofLowBits (BitOrder.lowFirst.bits b) = b.toNat := BitOrder.number_bits .lowFirst b
      rw [BitOrder.bitsOf] at ih
      rw [BitOrder.bitsOf, List.flatMap_cons, ofLowBits_append, hb, ih, BitOrder.length_bits]
      rfl
  exact (eq_lowBits_iff.mp ⟨BitOrder.length_bitsOf .., hnumber.symm⟩).2

/-! ### Stored blocks -/

/-- The bits of stored bytes, from the padding on. -/
def StoredBits (p : Nat) (bytes : List UInt8) (w : List Bool) : Prop :=
  ∃ pad, pad.length = padding p ∧ bytes.length < 2 ^ 16 ∧
    w = pad ++ (lowBits 16 bytes.length ++
      (lowBits 16 (2 ^ 16 - 1 - bytes.length) ++ BitOrder.lowFirst.bitsOf bytes))

/-- The number of stored bytes and its complement. -/
theorem stream_eq_lowBits {header : ByteArray} (hsize : header.size = 4) :
    BitOrder.lowFirst.stream header
      = lowBits 16 (Bytes.ofLittleEndian (header.extract 0 2).toList) ++
        lowBits 16 (Bytes.ofLittleEndian (header.extract 2 4).toList) := by
  have hlen : header.data.toList.length = 4 := hsize
  have hfirst : (header.extract 0 2).toList = header.data.toList.take 2 := by
    rw [Bytes.toList_eq]
    exact toList_extract header 0 2
  have hlast : (header.extract 2 4).toList = header.data.toList.drop 2 := by
    rw [Bytes.toList_eq, toList_extract header 2 2]
    exact List.take_of_length_le (by rw [List.length_drop, hlen])
  have hbits (l : List UInt8) (h : l.length = 2) :
      lowBits 16 (Bytes.ofLittleEndian l) = BitOrder.lowFirst.bitsOf l := by
    rw [bitsOf_eq_lowBits, h]
  rw [hfirst, hlast, hbits _ (by rw [List.length_take, hlen]; rfl),
    hbits _ (by rw [List.length_drop, hlen]), BitOrder.stream, BitOrder.bitsOf, BitOrder.bitsOf,
    BitOrder.bitsOf, ← List.flatMap_append, List.take_append_drop]

/-- The number of stored bytes is read together with its complement. -/
theorem exists_header {a b : Nat} (ha : a < 2 ^ 16) (hb : b < 2 ^ 16) :
    ∃ header : ByteArray, header.size = 4 ∧
      Bytes.ofLittleEndian (header.extract 0 2).toList = a ∧
      Bytes.ofLittleEndian (header.extract 2 4).toList = b := by
  let header : ByteArray := ⟨(Bytes.littleEndian 2 a ++ Bytes.littleEndian 2 b).toArray⟩
  have hfirst : (header.extract 0 2).toList = Bytes.littleEndian 2 a := by
    rw [Bytes.toList_eq]
    rfl
  have hlast : (header.extract 2 4).toList = Bytes.littleEndian 2 b := by
    rw [Bytes.toList_eq]
    rfl
  refine ⟨header, rfl, ?_, ?_⟩
  · rw [hfirst, Bytes.ofLittleEndian_littleEndian]
    exact Nat.mod_eq_of_lt ha
  · rw [hlast, Bytes.ofLittleEndian_littleEndian]
    exact Nat.mod_eq_of_lt hb

/-- After a padding and whole bytes there is no more padding. -/
theorem padding_add (p : Nat) : padding (p + (padding p + 32)) = 0 := by
  unfold padding
  omega

/-- Stored bytes are written as far as there is room. -/
theorem write_stored (n : Nat) (data : ByteArray) (p : Nat) (l : List UInt8) (bytes : ByteArray) :
    (do
      let room := n - (← get).output.size
      Inflater.write (· ++ bytes.extract 0 room)
      return if bytes.size ≤ room then .reached else .outputFull : Inflating BlockEnd)
        (state n data p l)
      = .ok (if bytes.size ≤ n - l.length then .reached else .outputFull)
          (state n data p (l ++ bytes.data.toList)) := by
  have hroom : n - (cut n l).size = n - l.length := by
    rw [size_cut]
    omega
  show EStateM.Result.ok (if bytes.size ≤ n - (cut n l).size then _ else _)
    (⟨_, cut n l ++ bytes.extract 0 (n - (cut n l).size)⟩ : Inflater) = _
  rw [← cut_toList, cut_append, hroom]
  rfl

/-- **Decoding stored bytes** copies as many of them as there is room for. -/
theorem storedBlock_eq_ok_iff {n : Nat} {data : ByteArray} {p : Nat} {l : List UInt8}
    (hp : p ≤ 8 * data.size) {stop : BlockEnd} {s' : Inflater} :
    Inflater.storedBlock n (state n data p l) = .ok stop s' ↔
      ∃ bytes w, StoredBits p bytes w ∧ w <+: (BitOrder.lowFirst.stream data).drop p ∧
        stop = (if bytes.length ≤ n - l.length then .reached else .outputFull) ∧
        s' = state n data (p + w.length) (l ++ bytes) := by
  constructor
  · intro h
    obtain ⟨header, w, ⟨hsize, pad, hpad, rfl⟩, hcomes, h⟩ :=
      (reading_bind_eq_ok_iff (reads_takeBytes .lowFirst 4) hp).mp h
    have hp₁ := le_of_isPrefix hp hcomes
    rw [stream_eq_lowBits hsize] at hcomes h hp₁
    generalize Bytes.ofLittleEndian (header.extract 0 2).toList = length at hcomes h hp₁
    generalize Bytes.ofLittleEndian (header.extract 2 4).toList = inverse at hcomes h hp₁
    dsimp only at h
    -- A number and its complement add up to a number all of whose bits are set.
    by_cases hsum : length + inverse ≠ 0xffff
    · rw [if_pos hsum] at h
      cases h
    · rw [if_neg hsum] at h
      obtain ⟨bytes, w, ⟨hbytes, pad', hpad', rfl⟩, hcomes', h⟩ :=
        (reading_bind_eq_ok_iff (reads_takeBytes .lowFirst length) hp₁).mp h
      rw [write_stored] at h
      obtain ⟨hstop, hs⟩ := EStateM.Result.ok.inj h
      have hinverse : inverse = 2 ^ 16 - 1 - length := by omega
      -- The bytes follow the numbers without padding.
      have hlen : (pad ++ (lowBits 16 length ++ lowBits 16 inverse)).length = padding p + 32 := by
        rw [List.length_append, List.length_append, length_lowBits, length_lowBits, hpad]
      have hnil : pad' = [] := by
        rw [hlen, padding_add] at hpad'
        exact List.eq_nil_of_length_eq_zero hpad'
      rw [hnil, List.nil_append] at hcomes' hs
      have hcount : bytes.data.toList.length = length := hbytes
      rw [hbytes] at hstop
      refine ⟨bytes.data.toList, pad ++ (lowBits 16 length ++ (lowBits 16 inverse ++
        BitOrder.lowFirst.stream bytes)), ⟨pad, hpad, by omega, ?_⟩, ?_, ?_, ?_⟩
      · rw [hcount, hinverse]
        rfl
      · rw [← List.append_assoc (lowBits 16 length), ← List.append_assoc pad]
        exact append_prefix_drop.mpr ⟨hcomes, hcomes'⟩
      · rw [hcount]
        exact hstop.symm
      · rw [← hs, Nat.add_assoc, ← List.length_append, List.append_assoc, List.append_assoc]
  · rintro ⟨bytes, w, ⟨pad, hpad, hlt, rfl⟩, hcomes, rfl, rfl⟩
    obtain ⟨header, hsize, hfirst, hlast⟩ :=
      exists_header hlt (show 2 ^ 16 - 1 - bytes.length < 2 ^ 16 by omega)
    have hstream := stream_eq_lowBits hsize
    rw [hfirst, hlast] at hstream
    rw [← List.append_assoc (lowBits 16 _), ← hstream, ← List.append_assoc pad] at hcomes ⊢
    obtain ⟨hcomes, hcomes'⟩ := append_prefix_drop.mp hcomes
    have hp₁ := le_of_isPrefix hp hcomes
    have hlen : (pad ++ BitOrder.lowFirst.stream header).length = padding p + 32 := by
      rw [List.length_append, BitOrder.length_stream, hsize, hpad]
    have hstored : BitOrder.lowFirst.bitsOf bytes
        = [] ++ BitOrder.lowFirst.stream ⟨bytes.toArray⟩ := rfl
    refine (reading_bind_eq_ok_iff (reads_takeBytes .lowFirst 4) hp).mpr
      ⟨header, _, ⟨hsize, pad, hpad, rfl⟩, hcomes, ?_⟩
    dsimp only
    rw [hfirst, hlast, if_neg (by omega)]
    refine (reading_bind_eq_ok_iff (reads_takeBytes .lowFirst bytes.length) hp₁).mpr
      ⟨⟨bytes.toArray⟩, _, ⟨List.size_toArray, [], ?_, hstored⟩, hcomes', ?_⟩
    · rw [hlen, padding_add]
      rfl
    · rw [write_stored, Nat.add_assoc, ← List.length_append]
      rfl

theorem decodes_storedBlock (n : Nat) :
    Decodes n (Inflater.storedBlock n) StoredBits (fun l bytes => some (l ++ bytes))
      fun m bytes => bytes.length ≤ n - m where
  reached_iff {data p l s'} hp := by
    rw [storedBlock_eq_ok_iff hp]
    constructor
    · rintro ⟨bytes, w, hbits, hcomes, hstop, rfl⟩
      have hfits : bytes.length ≤ n - l.length := by
        by_contra hfull
        rw [if_neg hfull] at hstop
        cases hstop
      exact ⟨bytes, w, _, hbits, hcomes, rfl, hfits, rfl⟩
    · rintro ⟨bytes, w, l', hbits, hcomes, hl, hfits, rfl⟩
      cases hl
      exact ⟨bytes, w, hbits, hcomes, (if_pos hfits).symm, rfl⟩
  outputFull {data p l s'} hp h := by
    obtain ⟨bytes, w, -, -, hstop, rfl⟩ := (storedBlock_eq_ok_iff hp).mp h
    have hfull : ¬ bytes.length ≤ n - l.length := by
      intro hfits
      rw [if_pos hfits] at hstop
      cases hstop
    refine ⟨_, l ++ bytes, ?_, rfl⟩
    rw [List.length_append]
    omega
  of_not_fits {data p l bytes w l'} hp hbits hcomes hl hfull := by
    cases hl
    exact ⟨_, (storedBlock_eq_ok_iff hp).mpr
      ⟨bytes, w, hbits, hcomes, (if_neg hfull).symm, rfl⟩⟩

end Apfs.Deflate
