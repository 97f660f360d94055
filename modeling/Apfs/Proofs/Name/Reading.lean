import Apfs.Proofs.Name.Encodings

namespace Apfs

/-!
# What a name reads as

Every name reads in exactly one way, also if it is malformed: as characters up to its end or its
first NUL, or as characters up to data that no encoding of a character starts with.

* `EncodedName.Breaks` — a name encodes certain characters and goes on with malformed data.
* `Reading`, `EncodedName.Reads` — a name spells its characters, or breaks off after them.
* `exists_reads`, `EncodedName.Reads.unique` — a name reads in one way, and in no other.
* `reads_iff_toList` — the code points of a name are what it reads as.
-/

/-- The error of malformed data. -/
def EncodedName.fault : EncodedName → Error
  | utf8 _ => .invalidUtf8
  | utf16 _ => .invalidUtf16

/-- The name starts with the encoding of `chars`, none of which is NUL.  There it does not end, but
    no encoding of a character follows: a sequence is cut off, or it is none at all. -/
inductive EncodedName.Breaks : EncodedName → List Char → Prop
  | utf8 {chars : List Char} {rest : ByteArray} : '\x00' ∉ chars → 0 < rest.size →
    (∀ c : Char, ¬ Bytes.StandsAt rest 0 [c].utf8Encode) →
    Breaks (.utf8 (chars.utf8Encode ++ rest)) chars
  | utf16 {chars : List Char} {rest : List UInt16} : '\x00' ∉ chars → rest ≠ [] →
    (∀ c : Char, ¬ utf16Units c <+: rest) →
    Breaks (.utf16 (chars.flatMap utf16Units ++ rest)) chars

/-- Characters, and the error after them where a name does not end. -/
abbrev Reading := List Char × Option Error

/-- What a name reads as: the characters that it spells, or those in front of malformed data. -/
inductive EncodedName.Reads (name : EncodedName) : Reading → Prop
  | ends {chars : List Char} : name.Spells chars → Reads name (chars, none)
  | breaks {chars : List Char} : name.Breaks chars → Reads name (chars, some name.fault)

/-! ### Splitting names -/

/-- A byte string is the encoding of characters up to a NUL, to its end, or to malformed data.  By
    induction on its size, taking one character off its front. -/
theorem exists_split_utf8 (bytes : ByteArray) :
    ∃ (chars : List Char) (rest : ByteArray), bytes = chars.utf8Encode ++ rest ∧ '\x00' ∉ chars ∧
      (Bytes.get rest 0 = 0 ∨
        0 < rest.size ∧ ∀ c : Char, ¬ Bytes.StandsAt rest 0 [c].utf8Encode) := by
  induction hsize : bytes.size using Nat.strong_induction_on generalizing bytes with
  | _ n ih =>
    by_cases hchar : ∃ c : Char, c ≠ '\x00' ∧ Bytes.StandsAt bytes 0 [c].utf8Encode
    · obtain ⟨c, hc, hstands⟩ := hchar
      have hlt : (bytes.extract [c].utf8Encode.size bytes.size).size < n := by
        have := c.utf8Size_pos
        have := hstands.le
        rw [ByteArray.size_extract]
        rw [CodePoints.size_utf8Encode_singleton] at *
        omega
      obtain ⟨chars, rest, htail, hchars, hrest⟩ := ih _ hlt _ rfl
      refine ⟨c :: chars, rest, ?_, ?_, hrest⟩
      · rw [List.utf8Encode_cons, ByteArray.append_assoc, ← htail]
        exact hstands.eq_append
      · simp [Ne.symm hc, hchars]
    · refine ⟨[], bytes, by simp, by simp, ?_⟩
      by_cases hzero : Bytes.get bytes 0 = 0
      · exact .inl hzero
      · have hpos : 0 < bytes.size := by
          by_contra hempty
          exact hzero (Bytes.get_of_le (by omega))
        refine .inr ⟨hpos, fun c hstands => ?_⟩
        -- Only NUL is left to stand there, but its byte is zero.
        obtain rfl : c = '\x00' := by
          by_contra hc
          exact hchar ⟨c, hc, hstands⟩
        exact hzero ((Bytes.standsAt_iff.mp hstands).2 0 (by decide))

/-- Code units are those of characters up to a NUL, to their end, or to malformed data. -/
theorem exists_split_utf16 (units : List UInt16) :
    ∃ (chars : List Char) (rest : List UInt16),
      units = chars.flatMap utf16Units ++ rest ∧ '\x00' ∉ chars ∧
      ((∀ u ∈ rest.head?, u = 0) ∨ rest ≠ [] ∧ ∀ c : Char, ¬ utf16Units c <+: rest) := by
  induction hlength : units.length using Nat.strong_induction_on generalizing units with
  | _ n ih =>
    by_cases hchar : ∃ c : Char, c ≠ '\x00' ∧ utf16Units c <+: units
    · obtain ⟨c, hc, tail, rfl⟩ := hchar
      have hlt : tail.length < n := by
        have hpos : 0 < (utf16Units c).length := by
          unfold utf16Units
          split <;> simp
        rw [List.length_append] at hlength
        omega
      obtain ⟨chars, rest, htail, hchars, hrest⟩ := ih _ hlt tail rfl
      refine ⟨c :: chars, rest, ?_, ?_, hrest⟩
      · rw [htail, List.flatMap_cons, List.append_assoc]
      · simp [Ne.symm hc, hchars]
    · refine ⟨[], units, rfl, by simp, ?_⟩
      by_cases hzero : ∀ u ∈ units.head?, u = 0
      · exact .inl hzero
      · refine .inr ⟨?_, fun c hprefix => ?_⟩
        · rintro rfl
          exact hzero (by simp)
        · obtain rfl : c = '\x00' := by
            by_contra hc
            exact hchar ⟨c, hc, hprefix⟩
          obtain ⟨tail, rfl⟩ := hprefix
          exact hzero (by simp [utf16Units])

/-- **Every name** reads in some way. -/
theorem exists_reads (name : EncodedName) : ∃ reading, name.Reads reading := by
  cases name with
  | utf8 bytes =>
    obtain ⟨chars, rest, rfl, hchars, hend | ⟨hpos, hnone⟩⟩ := exists_split_utf8 bytes
    · exact ⟨_, .ends (.utf8 hchars hend)⟩
    · exact ⟨_, .breaks (.utf8 hchars hpos hnone)⟩
  | utf16 units =>
    obtain ⟨chars, rest, rfl, hchars, hend | ⟨hne, hnone⟩⟩ := exists_split_utf16 units
    · exact ⟨_, .ends (.utf16 hchars hend)⟩
    · exact ⟨_, .breaks (.utf16 hchars hne hnone)⟩

namespace CodePoints

/-! ### The cursor at malformed data -/

/-- Where the cursor fails, the list ends with its error. -/
theorem toList_of_error {c : CodePoints} {e : Error} (h : c.step = .error e) :
    c.toList = ([], some e) := by
  rw [toList]
  split <;> simp_all

/-- The cursor fails at malformed UTF-8, and stays there. -/
theorem next_utf8_of_breaks {front rest : ByteArray} (hpos : 0 < rest.size)
    (h : ∀ c : Char, ¬ Bytes.StandsAt rest 0 [c].utf8Encode) :
    (CodePoints.utf8 (front ++ rest) front.size).next
      = (some (.error .invalidUtf8), .utf8 (front ++ rest) front.size) := by
  have hlt : front.size < (front ++ rest).size := by
    rw [ByteArray.size_append]
    omega
  have hdecode : decodeSequence? (front ++ rest) front.size = none := by
    rw [Option.eq_none_iff_forall_ne_some]
    intro c hc
    exact h c ((Bytes.standsAt_append_left front).mp (decodeSequence?_eq_some_iff.mp hc))
  rw [next, if_pos hlt, hdecode]

/-- The number of a character that is made from a number. -/
theorem toNat_ofNat_of_valid {n : Nat} (h : n < 0xd800 ∨ 0xdfff < n ∧ n < 0x110000) :
    (Char.ofNat n).toNat = n := by
  rw [Char.ofNat, dif_pos h]
  rfl

theorem utf16Units_ofNat {u : UInt16} (hlow : ¬ isLowSurrogate u) (hhigh : ¬ isHighSurrogate u) :
    utf16Units (Char.ofNat u.toNat) = [u] := by
  have hu := u.toNat_lt
  rw [isLowSurrogate_iff] at hlow
  rw [isHighSurrogate_iff] at hhigh
  have hnumber : (Char.ofNat u.toNat).toNat = u.toNat := toNat_ofNat_of_valid (by omega)
  rw [utf16Units, hnumber, if_pos hu, UInt16.ofNat_toNat]

theorem utf16Units_ofSurrogates {u v : UInt16} (hu : isHighSurrogate u) (hv : isLowSurrogate v) :
    utf16Units (ofSurrogates u v) = [u, v] := by
  rw [isHighSurrogate_iff] at hu
  rw [isLowSurrogate_iff] at hv
  have hnumber : (ofSurrogates u v).toNat
      = 0x10000 + (u.toNat - 0xd800) * 0x400 + (v.toNat - 0xdc00) := by
    unfold ofSurrogates
    exact toNat_ofNat_of_valid (by omega)
  -- What exceeds `0x10000` is the ten bits of each half, one after the other.
  have hhigh : 0xd800 + ((ofSurrogates u v).toNat - 0x10000) / 0x400 = u.toNat := by omega
  have hlow : 0xdc00 + ((ofSurrogates u v).toNat - 0x10000) % 0x400 = v.toNat := by omega
  rw [utf16Units, if_neg (by omega), hhigh, hlow, UInt16.ofNat_toNat, UInt16.ofNat_toNat]

/-- A character is only decoded from its own code units. -/
theorem eq_of_decodeUnit {u : UInt16} {units rest : List UInt16} {c : Char}
    (h : decodeUnit u units = (some c, rest)) : u :: units = utf16Units c ++ rest := by
  unfold decodeUnit at h
  split at h
  · cases h
  · next hlow =>
    split at h
    · next hhigh =>
      split at h
      · split at h
        · next hnext =>
          simp only [Prod.mk.injEq, Option.some.injEq] at h
          rw [← h.1, ← h.2, utf16Units_ofSurrogates hhigh hnext]
          rfl
        · cases h
      · cases h
    · next hhigh =>
      simp only [Prod.mk.injEq, Option.some.injEq] at h
      rw [← h.1, ← h.2, utf16Units_ofNat hlow hhigh]
      rfl

/-- The cursor fails at malformed UTF-16. -/
theorem step_utf16_of_breaks {units : List UInt16} (hne : units ≠ [])
    (h : ∀ c : Char, ¬ utf16Units c <+: units) :
    (CodePoints.utf16 units).step = .error .invalidUtf16 := by
  obtain ⟨u, units, rfl⟩ := List.exists_cons_of_ne_nil hne
  cases hdecode : decodeUnit u units with
  | mk char rest =>
    cases char with
    | none => rw [step, next, hdecode]
    | some c => exact absurd ⟨rest, (eq_of_decodeUnit hdecode).symm⟩ (h c)

end CodePoints

/-- The cursor delivers the characters up to malformed data, and then fails. -/
theorem exists_delivers_of_breaks {name : EncodedName} {chars : List Char}
    (h : name.Breaks chars) :
    ∃ last, name.codePoints.Delivers chars last ∧ last.step = .error name.fault := by
  cases h with
  | @utf8 _ rest hchars hpos hnone =>
    refine ⟨_, CodePoints.delivers_utf8 hchars (Bytes.standsAt_zero _ rest), ?_⟩
    rw [CodePoints.step, Nat.zero_add, CodePoints.next_utf8_of_breaks hpos hnone]
    rfl
  | @utf16 _ rest hchars hne hnone =>
    exact ⟨_, CodePoints.delivers_utf16 hchars, CodePoints.step_utf16_of_breaks hne hnone⟩

/-- **The code points of a name** are what it reads as. -/
theorem reads_iff_toList {name : EncodedName} {reading : Reading} :
    name.Reads reading ↔ name.codePoints.toList = reading := by
  have hlist {reading : Reading} (h : name.Reads reading) :
      name.codePoints.toList = reading := by
    cases h with
    | ends h => exact toList_of_spells h
    | breaks h =>
      obtain ⟨last, hdelivers, hfails⟩ := exists_delivers_of_breaks h
      rw [hdelivers.toList_eq, CodePoints.toList_of_error hfails, List.append_nil]
  refine ⟨hlist, fun h => ?_⟩
  obtain ⟨reading', hreads⟩ := exists_reads name
  rw [← h, hlist hreads]
  exact hreads

/-- A name reads in one way only. -/
theorem EncodedName.Reads.unique {name : EncodedName} {reading reading' : Reading}
    (h : name.Reads reading) (h' : name.Reads reading') : reading = reading' := by
  rw [reads_iff_toList] at h h'
  exact h.symm.trans h'

end Apfs
