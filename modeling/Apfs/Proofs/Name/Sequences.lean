import Apfs.Name.CodePoints
import Apfs.Proofs.Bytes.Pieces
import Mathlib

namespace Apfs

/-!
# UTF-8 sequences

A code point is encoded in one to four bytes.  The first byte tells how many there are, and each of
the others holds six bits of the number.  So a decoder knows from the first byte where the sequence
ends, and whether it is valid depends on these bytes alone.

* `Utf8Form` — the bytes of a number, by its size.
* `form_utf8EncodeChar` — the encoding of a character has one of these forms.
* `Utf8Form.sequenceLength?_eq` — the first byte tells the number of bytes.
* `CodePoints.decodeSequence?_eq_some_iff` — a code point is decoded exactly where its encoding
  stands.
-/

/-- The bytes of the number `v` of a code point.  The first holds the high bits, and each of the
    others six bits. -/
inductive Utf8Form (v : Nat) : List UInt8 → Prop
  | one : v ≤ 0x7f → Utf8Form v [.ofNat v]
  | two : 0x7f < v → v ≤ 0x7ff → Utf8Form v [.ofNat (v / 64 + 0xc0), .ofNat (v % 64 + 0x80)]
  | three : 0x7ff < v → v ≤ 0xffff →
    Utf8Form v
      [.ofNat (v / 4096 + 0xe0), .ofNat (v / 64 % 64 + 0x80), .ofNat (v % 64 + 0x80)]
  | four : 0xffff < v → v < 0x110000 →
    Utf8Form v
      [.ofNat (v / 262144 + 0xf0), .ofNat (v / 4096 % 64 + 0x80), .ofNat (v / 64 % 64 + 0x80),
        .ofNat (v % 64 + 0x80)]

/-- No character has the number of a surrogate. -/
theorem toNat_lt_or_lt (c : Char) :
    c.toNat < 0xd800 ∨ 0xdfff < c.toNat ∧ c.toNat < 0x110000 := by
  have h := c.valid
  simp only [UInt32.isValidChar, Nat.isValidChar] at h
  exact h

/-- The encoding of a character has the form of its number. -/
theorem form_utf8EncodeChar (c : Char) : Utf8Form c.toNat (String.utf8EncodeChar c) := by
  have hvalid : c.val.toNat < 0x110000 := by
    rcases toNat_lt_or_lt c with hlow | ⟨-, hhigh⟩
    · exact hlow.trans (by decide)
    · exact hhigh
  show Utf8Form c.val.toNat (String.utf8EncodeChar c)
  unfold String.utf8EncodeChar
  generalize c.val.toNat = v at hvalid
  dsimp only
  split_ifs with h₁ h₂ h₃
  · exact .one h₁
  · -- The remainders leave the high bits as they are, since the number is small enough.
    have hhigh : v / 64 % 32 = v / 64 := Nat.mod_eq_of_lt (by omega)
    rw [hhigh]
    exact .two (by omega) h₂
  · have hhigh : v / 4096 % 16 = v / 4096 := Nat.mod_eq_of_lt (by omega)
    rw [hhigh]
    exact .three (by omega) h₃
  · have hhigh : v / 262144 % 8 = v / 262144 := Nat.mod_eq_of_lt (by omega)
    rw [hhigh]
    exact .four (by omega) hvalid

/-- The number of bytes of a sequence, as a condition on the number of its first byte. -/
theorem sequenceLength?_ofNat {n : Nat} (hn : n < 256) :
    CodePoints.sequenceLength? (.ofNat n)
      = if n ≤ 0x7f then some 1
        else if 0xc2 ≤ n ∧ n ≤ 0xdf then some 2
        else if 0xe0 ≤ n ∧ n ≤ 0xef then some 3
        else if 0xf0 ≤ n ∧ n ≤ 0xf4 then some 4
        else none := by
  simp [CodePoints.sequenceLength?, UInt8.le_iff_toNat_le, Nat.mod_eq_of_lt hn]

/-- **The first byte** of a sequence tells the number of its bytes. -/
theorem Utf8Form.sequenceLength?_eq {v : Nat} {lead : UInt8} {tail : List UInt8}
    (h : Utf8Form v (lead :: tail)) :
    CodePoints.sequenceLength? lead = some (tail.length + 1) := by
  -- Each form has a range of first bytes of its own.
  cases h with
  | one hle =>
    rw [sequenceLength?_ofNat (by omega), if_pos hle]
    rfl
  | two hlt hle =>
    rw [sequenceLength?_ofNat (by omega), if_neg (by omega), if_pos (by omega)]
    rfl
  | three hlt hle =>
    rw [sequenceLength?_ofNat (by omega), if_neg (by omega), if_neg (by omega), if_pos (by omega)]
    rfl
  | four hlt hle =>
    rw [sequenceLength?_ofNat (by omega), if_neg (by omega), if_neg (by omega), if_neg (by omega),
      if_pos (by omega)]
    rfl

/-! ### Decoding -/

/-- The bytes of a text are the encoding of its characters. -/
theorem eq_utf8Encode_of_fromUTF8? {bytes : ByteArray} {text : String}
    (h : String.fromUTF8? bytes = some text) : bytes = text.toList.utf8Encode := by
  unfold String.fromUTF8? at h
  split at h
  · cases h
    rw [String.utf8Encode_toList]
    rfl
  · contradiction

/-- The encoding of a character is a text of just this character. -/
theorem fromUTF8?_singleton (c : Char) : String.fromUTF8? [c].utf8Encode = some (.ofList [c]) := by
  rw [String.fromUTF8?, dif_pos ByteArray.isValidUTF8_utf8Encode]
  rfl

namespace CodePoints

variable {bytes front rest : ByteArray} {offset : Nat} {c : Char}

/-- **Decoding** finds the character whose encoding stands at the offset.  What is cut out by the
    length that the first byte tells is exactly this encoding. -/
theorem decodeSequence?_eq_some_iff :
    decodeSequence? bytes offset = some c ↔ Bytes.StandsAt bytes offset [c].utf8Encode := by
  constructor
  · intro h
    simp only [decodeSequence?, Option.bind_eq_bind, Option.bind_eq_some_iff] at h
    obtain ⟨length, -, sequence, hslice, text, htext, hhead⟩ := h
    obtain ⟨chars, hchars⟩ := List.head?_eq_some_iff.mp hhead
    -- The sequence starts with the encoding of its first character.
    have hsequence : sequence = [c].utf8Encode ++ chars.utf8Encode := by
      rw [eq_utf8Encode_of_fromUTF8? htext, hchars, List.utf8Encode_cons]
    have hstands := (Bytes.standsAt_of_slice? hslice).2
    rw [hsequence] at hstands
    exact (Bytes.standsAt_append.mp hstands).1
  · intro h
    obtain ⟨lead, tail, hencode⟩ := List.exists_cons_of_ne_nil (@String.utf8EncodeChar_ne_nil c)
    have hform := form_utf8EncodeChar c
    rw [hencode] at hform
    have hbytes : [c].utf8Encode = (lead :: tail).toByteArray := by
      rw [List.utf8Encode_singleton, hencode]
    have hsize : [c].utf8Encode.size = tail.length + 1 := by
      rw [hbytes, List.size_toByteArray, List.length_cons]
    have hlead : Bytes.get bytes offset = lead := by
      rw [← Nat.add_zero offset, (Bytes.standsAt_iff.mp h).2 0 (by omega), hbytes]
      simp [Bytes.get, ByteArray.getElem_eq_getElem_data]
    rw [Bytes.StandsAt, hsize] at h
    -- The length that the first byte tells cuts out the encoding, and nothing behind it.
    simp [decodeSequence?, hlead, hform.sequenceLength?_eq, h, fromUTF8?_singleton]

end CodePoints

end Apfs
