import Apfs.Bytes
import Apfs.Name.CodePoints
import Apfs.Proofs.Name.Sequences
import Mathlib

namespace Apfs

/-!
# Names as lists of characters

Names come as UTF-8 or as UTF-16 and count up to their first NUL.  Whatever the encoding, what
matters about a name is the list of its characters.

* `utf16Units` — the code units of a character in UTF-16.
* `EncodedName.Spells` — a name encodes certain characters, up to its end or its first NUL.
* `CodePoints.Delivers` — a cursor delivers certain characters, one after the other.
* `delivers_utf8`, `delivers_utf16` — a cursor delivers the characters whose encodings it is at.
* `toList_of_spells` — the code points of such a name are those characters, without an error.
-/

/-- The code units of a character in UTF-16: one, or the two halves of a surrogate pair. -/
def utf16Units (c : Char) : List UInt16 :=
  if c.toNat < 0x10000 then [UInt16.ofNat c.toNat]
  else [UInt16.ofNat (0xd800 + (c.toNat - 0x10000) / 0x400),
    UInt16.ofNat (0xdc00 + (c.toNat - 0x10000) % 0x400)]

/-- The name starts with the encoding of `chars`, none of which is NUL.  It ends there, or a NUL
    follows and then anything, malformed data included. -/
inductive EncodedName.Spells : EncodedName → List Char → Prop
  /-- A byte string reads as 0 past its end, so one condition says that it ends or goes on with a
      NUL. -/
  | utf8 {chars : List Char} {rest : ByteArray} : '\x00' ∉ chars → Bytes.get rest 0 = 0 →
    Spells (.utf8 (chars.utf8Encode ++ rest)) chars
  /-- Surrogate pairs stand for the characters that do not fit in one code unit. -/
  | utf16 {chars : List Char} {rest : List UInt16} : '\x00' ∉ chars → (∀ u ∈ rest.head?, u = 0) →
    Spells (.utf16 (chars.flatMap utf16Units ++ rest)) chars

namespace CodePoints

/-! ### One step of the cursor -/

/-- Where a code point is delivered, the list starts with it. -/
theorem toList_of_some {c rest : CodePoints} {char : Char}
    (h : c.step = .ok (some (char, rest))) :
    c.toList = (char :: rest.toList.1, rest.toList.2) := by
  rw [toList]
  split <;> simp_all

/-- Where the name ends, the list does. -/
theorem toList_of_none {c : CodePoints} (h : c.step = .ok none) : c.toList = ([], none) := by
  rw [toList]
  split <;> simp_all

/-- A list that does not end in an error starts with the code point that is delivered. -/
theorem step_of_toList_cons {c : CodePoints} {char : Char} {chars : List Char}
    (h : c.toList = (char :: chars, none)) :
    ∃ rest, c.step = .ok (some (char, rest)) ∧ rest.toList = (chars, none) := by
  rw [toList] at h
  split at h
  · next char' rest hstep =>
    simp only [Prod.mk.injEq, List.cons.injEq] at h
    obtain ⟨⟨rfl, hchars⟩, hfault⟩ := h
    exact ⟨rest, hstep, Prod.ext hchars hfault⟩
  all_goals simp at h

/-- An empty list without an error says that the name ends. -/
theorem step_of_toList_nil {c : CodePoints} (h : c.toList = ([], none)) : c.step = .ok none := by
  rw [toList] at h
  split at h
  · simp at h
  · next hstep => exact hstep
  · simp at h

/-! ### Runs of the cursor -/

/-- The cursor delivers the characters, one after the other, and is then at `last`. -/
def Delivers : CodePoints → List Char → CodePoints → Prop
  | c, [], last => c = last
  | c, char :: chars, last => ∃ rest, c.step = .ok (some (char, rest)) ∧ Delivers rest chars last

/-- What is delivered stands in front of what the cursor is at then. -/
theorem Delivers.toList_eq {c last : CodePoints} {chars : List Char}
    (h : c.Delivers chars last) : c.toList = (chars ++ last.toList.1, last.toList.2) := by
  induction chars generalizing c with
  | nil =>
    obtain rfl : c = last := h
    rfl
  | cons char chars ih =>
    obtain ⟨rest, hstep, hrest⟩ := h
    rw [toList_of_some hstep, ih hrest]
    rfl

/-! ### UTF-8 -/

section

variable {bytes : ByteArray} {offset : Nat}

theorem size_utf8Encode_singleton (c : Char) : [c].utf8Encode.size = c.utf8Size := by
  simp [List.utf8Encode_singleton]

theorem step_utf8_of_standsAt {c : Char} (hc : c ≠ '\x00')
    (h : Bytes.StandsAt bytes offset [c].utf8Encode) :
    (CodePoints.utf8 bytes offset).step
      = .ok (some (c, .utf8 bytes (offset + [c].utf8Encode.size))) := by
  have hlt : offset < bytes.size := by
    have := h.le
    have := c.utf8Size_pos
    rw [size_utf8Encode_singleton] at *
    omega
  rw [step, next, if_pos hlt, decodeSequence?_eq_some_iff.mpr h]
  simp [deliver, hc, size_utf8Encode_singleton]

/-- A zero byte is the encoding of NUL. -/
theorem standsAt_nul (hlt : offset < bytes.size) (h : Bytes.get bytes offset = 0) :
    Bytes.StandsAt bytes offset ['\x00'].utf8Encode := by
  have hsize : ['\x00'].utf8Encode.size = 1 := by rfl
  apply Bytes.standsAt_iff.mpr
  refine ⟨by omega, fun i hi => ?_⟩
  obtain rfl : i = 0 := by omega
  exact h

theorem step_utf8_end (h : Bytes.get bytes offset = 0) :
    (CodePoints.utf8 bytes offset).step = .ok none := by
  by_cases hlt : offset < bytes.size
  · rw [step, next, if_pos hlt, decodeSequence?_eq_some_iff.mpr (standsAt_nul hlt h)]
    rfl
  · rw [step, next, if_neg hlt]

/-- The cursor delivers the characters whose encodings stand where it is.  By induction on them,
    with the offset moving on. -/
theorem delivers_utf8 {chars : List Char} (hchars : '\x00' ∉ chars)
    (h : Bytes.StandsAt bytes offset chars.utf8Encode) :
    (CodePoints.utf8 bytes offset).Delivers chars
      (.utf8 bytes (offset + chars.utf8Encode.size)) := by
  induction chars generalizing offset with
  | nil => rfl
  | cons c chars ih =>
    obtain ⟨hc, hchars⟩ := not_or.mp (mt List.mem_cons.mpr hchars)
    rw [List.utf8Encode_cons] at h ⊢
    obtain ⟨hfirst, hrest⟩ := Bytes.standsAt_append.mp h
    rw [ByteArray.size_append, ← Nat.add_assoc]
    exact ⟨_, step_utf8_of_standsAt (Ne.symm hc) hfirst, ih hchars hrest⟩

end

/-! ### UTF-16 -/

theorem isHighSurrogate_iff {u : UInt16} :
    isHighSurrogate u ↔ 0xd800 ≤ u.toNat ∧ u.toNat ≤ 0xdbff := by
  simp [isHighSurrogate, UInt16.le_iff_toNat_le]

theorem isLowSurrogate_iff {u : UInt16} :
    isLowSurrogate u ↔ 0xdc00 ≤ u.toNat ∧ u.toNat ≤ 0xdfff := by
  simp [isLowSurrogate, UInt16.le_iff_toNat_le]

/-- The code units of a character are decoded together, to this character. -/
theorem decodeUnit_utf16Units (c : Char) (rest : List UInt16) :
    ∃ u units, utf16Units c = u :: units ∧ decodeUnit u (units ++ rest) = (some c, rest) := by
  have hvalid := toNat_lt_or_lt c
  by_cases hlt : c.toNat < 0x10000
  · rw [utf16Units, if_pos hlt]
    generalize hu : UInt16.ofNat c.toNat = u
    have hunit : u.toNat = c.toNat := by rw [← hu, UInt16.toNat_ofNat', Nat.mod_eq_of_lt hlt]
    have hlow : ¬ isLowSurrogate u := by
      rw [isLowSurrogate_iff, hunit]
      omega
    have hhigh : ¬ isHighSurrogate u := by
      rw [isHighSurrogate_iff, hunit]
      omega
    refine ⟨u, [], rfl, ?_⟩
    simp [decodeUnit, hlow, hhigh, hunit]
  · -- Ten bits of what exceeds `0x10000` are in each half of the pair.
    have hdiv : (c.toNat - 0x10000) / 0x400 < 0x400 := by omega
    have hmod : (c.toNat - 0x10000) % 0x400 < 0x400 := Nat.mod_lt _ (by decide)
    rw [utf16Units, if_neg hlt]
    generalize hu : UInt16.ofNat (0xd800 + (c.toNat - 0x10000) / 0x400) = u
    generalize hv : UInt16.ofNat (0xdc00 + (c.toNat - 0x10000) % 0x400) = v
    have hfirst : u.toNat = 0xd800 + (c.toNat - 0x10000) / 0x400 := by
      rw [← hu, UInt16.toNat_ofNat', Nat.mod_eq_of_lt (by omega)]
    have hsecond : v.toNat = 0xdc00 + (c.toNat - 0x10000) % 0x400 := by
      rw [← hv, UInt16.toNat_ofNat', Nat.mod_eq_of_lt (by omega)]
    have hlow : ¬ isLowSurrogate u := by
      rw [isLowSurrogate_iff, hfirst]
      omega
    have hhigh : isHighSurrogate u := by
      rw [isHighSurrogate_iff, hfirst]
      omega
    have hnext : isLowSurrogate v := by
      rw [isLowSurrogate_iff, hsecond]
      omega
    have hchar : ofSurrogates u v = c := by
      have hsum : 0x10000 + (u.toNat - 0xd800) * 0x400 + (v.toNat - 0xdc00) = c.toNat := by omega
      rw [ofSurrogates, hsum, Char.ofNat_toNat]
    refine ⟨u, [v], rfl, ?_⟩
    simp [decodeUnit, hlow, hhigh, hnext, hchar]

theorem step_utf16_cons {c : Char} (hc : c ≠ '\x00') (rest : List UInt16) :
    (CodePoints.utf16 (utf16Units c ++ rest)).step = .ok (some (c, .utf16 rest)) := by
  obtain ⟨u, units, hunits, hdecode⟩ := decodeUnit_utf16Units c rest
  rw [hunits, List.cons_append, step, next, hdecode]
  simp [deliver, hc]

/-- The cursor delivers the characters whose code units it is at. -/
theorem delivers_utf16 {chars : List Char} {rest : List UInt16} (hchars : '\x00' ∉ chars) :
    (CodePoints.utf16 (chars.flatMap utf16Units ++ rest)).Delivers chars (.utf16 rest) := by
  induction chars with
  | nil => rfl
  | cons c chars ih =>
    obtain ⟨hc, hchars⟩ := not_or.mp (mt List.mem_cons.mpr hchars)
    rw [List.flatMap_cons, List.append_assoc]
    exact ⟨_, step_utf16_cons (Ne.symm hc) _, ih hchars⟩

theorem step_utf16_end {rest : List UInt16} (h : ∀ u ∈ rest.head?, u = 0) :
    (CodePoints.utf16 rest).step = .ok none := by
  cases rest with
  | nil => rfl
  | cons u rest =>
    obtain rfl : u = 0 := h u rfl
    rfl

end CodePoints

/-- The cursor delivers the characters that a name spells, and then the name ends. -/
theorem exists_delivers_of_spells {name : EncodedName} {chars : List Char}
    (h : name.Spells chars) :
    ∃ last, name.codePoints.Delivers chars last ∧ last.step = .ok none := by
  cases h with
  | @utf8 _ rest hchars hrest =>
    have hend : Bytes.get (chars.utf8Encode ++ rest) (0 + chars.utf8Encode.size) = 0 := by
      rw [Bytes.get_append, if_neg (by omega), Nat.zero_add, Nat.sub_self, hrest]
    exact ⟨_, CodePoints.delivers_utf8 hchars (Bytes.standsAt_zero _ rest),
      CodePoints.step_utf8_end hend⟩
  | @utf16 _ rest hchars hrest =>
    exact ⟨_, CodePoints.delivers_utf16 hchars, CodePoints.step_utf16_end hrest⟩

/-- **The code points of a name** are the characters that it spells. -/
theorem toList_of_spells {name : EncodedName} {chars : List Char} (h : name.Spells chars) :
    name.codePoints.toList = (chars, none) := by
  obtain ⟨last, hdelivers, hend⟩ := exists_delivers_of_spells h
  rw [hdelivers.toList_eq, CodePoints.toList_of_none hend, List.append_nil]

/-- The characters that a name spells are unique. -/
theorem EncodedName.Spells.unique {name : EncodedName} {chars chars' : List Char}
    (h : name.Spells chars) (h' : name.Spells chars') : chars = chars' :=
  congrArg Prod.fst ((toList_of_spells h).symm.trans (toList_of_spells h'))

end Apfs
