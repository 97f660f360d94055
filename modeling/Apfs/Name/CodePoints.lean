import Apfs.Bytes
import Apfs.Error

namespace Apfs

/-!
# Code points of names

Names come as UTF-8 or as UTF-16, and may be malformed.  They end at their first NUL.

* `EncodedName` — a name in one of the encodings.
* `CodePoints.decodeSequence?`, `CodePoints.decodeUnit` — decode one code point.
* `CodePoints` — a cursor in a name; `CodePoints.next` delivers the next code point.
* `CodePoints.step` — the same, with malformed data as an error.
* `CodePoints.toList` — the code points up to the end or to malformed data.
-/

/-- An encoded name. -/
inductive EncodedName where
  | utf8 (bytes : ByteArray)
  | utf16 (units : List UInt16)

/-- The UTF-8 encoding of a string. -/
def EncodedName.ofString (s : String) : EncodedName := .utf8 s.toUTF8

/-- A cursor in an encoded name. -/
inductive CodePoints where
  /-- A cursor in UTF-8, with the offset of the next byte. -/
  | utf8 (bytes : ByteArray) (offset : Nat)
  /-- A cursor in UTF-16, with the code units that are left. -/
  | utf16 (units : List UInt16)

/-- A cursor at the start of a name. -/
def EncodedName.codePoints : EncodedName → CodePoints
  | utf8 bytes => .utf8 bytes 0
  | utf16 units => .utf16 units

namespace CodePoints

/-! ### UTF-8 -/

/-- The number of bytes of a sequence, by its first byte.  No sequence starts with a continuation
    byte, or with a byte that only longer forms than necessary or numbers beyond the last code
    point would start with. -/
def sequenceLength? (lead : UInt8) : Option Nat :=
  if lead ≤ 0x7f then some 1
  else if 0xc2 ≤ lead && lead ≤ 0xdf then some 2
  else if 0xe0 ≤ lead && lead ≤ 0xef then some 3
  else if 0xf0 ≤ lead && lead ≤ 0xf4 then some 4
  else none

/-- The code point whose sequence starts at an offset, if the sequence is not cut off and valid. -/
def decodeSequence? (bytes : ByteArray) (offset : Nat) : Option Char := do
  let length ← sequenceLength? (Bytes.get bytes offset)
  let sequence ← Bytes.slice? bytes offset length
  let text ← String.fromUTF8? sequence
  text.toList.head?

/-! ### UTF-16 -/

/-- Whether a code unit is the first half of a surrogate pair. -/
def isHighSurrogate (u : UInt16) : Bool := 0xd800 ≤ u && u ≤ 0xdbff

/-- Whether a code unit is the second half of a surrogate pair. -/
def isLowSurrogate (u : UInt16) : Bool := 0xdc00 ≤ u && u ≤ 0xdfff

/-- The code point of a surrogate pair. -/
def ofSurrogates (high low : UInt16) : Char :=
  .ofNat (0x10000 + (high.toNat - 0xd800) * 0x400 + (low.toNat - 0xdc00))

/-- The code point at the front of the code units, or none for half of a surrogate pair, and the
    code units after it. -/
def decodeUnit (u : UInt16) (rest : List UInt16) : Option Char × List UInt16 :=
  if isLowSurrogate u then (none, rest)
  else if isHighSurrogate u then
    match rest with
    | v :: rest' => if isLowSurrogate v then (ofSurrogates u v, rest') else (none, rest)
    | [] => (none, [])
  else (Char.ofNat u.toNat, rest)

/-! ### The cursor -/

/-- A code point as it is delivered: none for NUL, which ends a name. -/
def deliver (c : Char) : Option (Except Error Char) :=
  if c = '\x00' then none else some (.ok c)

/-- The next code point, an error where the data is malformed, or none at the end or at a NUL; and
    the cursor afterwards.  The cursor passes a NUL and half of a surrogate pair, but stays at
    malformed UTF-8. -/
def next : CodePoints → Option (Except Error Char) × CodePoints
  | utf8 bytes offset =>
    if offset < bytes.size then
      match decodeSequence? bytes offset with
      | some c => (deliver c, utf8 bytes (offset + c.utf8Size))
      | none => (some (.error .invalidUtf8), utf8 bytes offset)
    else (none, utf8 bytes offset)
  | utf16 [] => (none, utf16 [])
  | utf16 (u :: rest) =>
    match decodeUnit u rest with
    | (some c, rest) => (deliver c, utf16 rest)
    | (none, rest) => (some (.error .invalidUtf16), utf16 rest)

/-- The next code point and the cursor after it, or none where the name ends. -/
def step (c : CodePoints) : Except Error (Option (Char × CodePoints)) :=
  match c.next with
  | (some (.ok char), rest) => .ok (some (char, rest))
  | (some (.error e), _) => .error e
  | (none, _) => .ok none

/-- The number of code units that are left. -/
def unitsLeft : CodePoints → Nat
  | utf8 bytes offset => bytes.size - offset
  | utf16 units => units.length

theorem length_decodeUnit_le (u : UInt16) (rest : List UInt16) :
    (decodeUnit u rest).2.length ≤ rest.length := by
  simp only [decodeUnit]
  split
  · exact Nat.le_refl _
  split
  · split
    · split
      · exact Nat.le_succ _
      · exact Nat.le_refl _
    · exact Nat.le_refl _
  · exact Nat.le_refl _

/-- What a step delivers is what comes next. -/
theorem next_of_step {c rest : CodePoints} {char : Char} (h : c.step = .ok (some (char, rest))) :
    c.next = (some (.ok char), rest) := by
  simp only [step] at h
  split at h
  · simp_all
  · contradiction
  · simp at h

/-- Each code point takes at least one code unit. -/
theorem unitsLeft_lt_of_step {c rest : CodePoints} {char : Char}
    (h : c.step = .ok (some (char, rest))) : rest.unitsLeft < c.unitsLeft := by
  have hnext := next_of_step h
  cases c with
  | utf8 bytes offset =>
    simp only [next] at hnext
    split at hnext
    · split at hnext
      next c _ =>
        have := c.utf8Size_pos
        simp only [Prod.mk.injEq] at hnext
        simp only [← hnext.2, unitsLeft]
        omega
      · simp at hnext
    · simp at hnext
  | utf16 units =>
    cases units with
    | nil => simp [next] at hnext
    | cons u units =>
      have hle := length_decodeUnit_le u units
      simp only [next] at hnext
      split at hnext
      next hd =>
        simp only [Prod.mk.injEq] at hnext
        simp only [hd] at hle
        simp only [← hnext.2, unitsLeft, List.length_cons]
        omega
      next => simp at hnext

/-- The code points up to the end of the name or to malformed data, and the error there. -/
def toList (c : CodePoints) : List Char × Option Error :=
  match _h : c.step with
  | .ok (some (char, rest)) =>
    let (chars, fault) := rest.toList
    (char :: chars, fault)
  | .ok none => ([], none)
  | .error e => ([], some e)
termination_by c.unitsLeft
decreasing_by exact unitsLeft_lt_of_step _h

end CodePoints

end Apfs
