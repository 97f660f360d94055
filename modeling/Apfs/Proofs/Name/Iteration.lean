import Apfs.Proofs.Name.Reading

namespace Apfs

/-!
# Asking for all code points

A cursor may be asked for the next code point until it answers that there is none, also after an
error.  In UTF-16 this ends, since every answer takes a code unit at least.  Malformed UTF-8 is
never passed, and so the error is given again and again.

* `CodePoints.answer` — the answer to each question.
* `exists_answer_eq_none_utf16` — in UTF-16, one question more than there are code units is enough.
* `answer_of_spells_utf8`, `answer_of_breaks_utf8` — all answers for UTF-8.
* `answers_end_iff` — the names for which the answers end.
-/

namespace CodePoints

/-- The answer when the cursor is asked for the next code point for the `n`-th time, from 0 on. -/
def answer : CodePoints → Nat → Option (Except Error Char)
  | c, 0 => c.next.1
  | c, n + 1 => c.next.2.answer n

/-! ### Progress -/

/-- In UTF-16 every answer takes a code unit at least, whatever the answer is. -/
theorem exists_next_utf16 (u : UInt16) (units : List UInt16) :
    ∃ item rest, (CodePoints.utf16 (u :: units)).next = (item, .utf16 rest) ∧
      rest.length ≤ units.length := by
  have hle := length_decodeUnit_le u units
  rw [next]
  split
  · next c rest hdecode =>
    rw [hdecode] at hle
    exact ⟨_, rest, rfl, hle⟩
  · next rest hdecode =>
    rw [hdecode] at hle
    exact ⟨_, rest, rfl, hle⟩

/-- **In UTF-16** the answers end, and every code unit is needed for one of them at most. -/
theorem exists_answer_eq_none_utf16 (units : List UInt16) :
    ∃ n ≤ units.length, (CodePoints.utf16 units).answer n = none := by
  induction hlength : units.length using Nat.strong_induction_on generalizing units with
  | _ length ih =>
    cases units with
    | nil => exact ⟨0, Nat.zero_le _, rfl⟩
    | cons u units =>
      obtain ⟨item, rest, hnext, hle⟩ := exists_next_utf16 u units
      rw [List.length_cons] at hlength
      obtain ⟨n, hn, hnone⟩ := ih rest.length (by omega) rest rfl
      refine ⟨n + 1, by omega, ?_⟩
      rw [answer, hnext]
      exact hnone

/-! ### Runs -/

variable {c last : CodePoints} {chars : List Char}

/-- What is delivered takes a code unit for each character at least. -/
theorem Delivers.length_le (h : c.Delivers chars last) :
    chars.length + last.unitsLeft ≤ c.unitsLeft := by
  induction chars generalizing c with
  | nil =>
    obtain rfl : c = last := h
    simp
  | cons char chars ih =>
    obtain ⟨rest, hstep, hrest⟩ := h
    have hlt := unitsLeft_lt_of_step hstep
    have hle := ih hrest
    rw [List.length_cons]
    omega

/-- The first answers are the characters that are delivered. -/
theorem Delivers.answer_of_lt (h : c.Delivers chars last) {n : Nat} (hn : n < chars.length) :
    c.answer n = some (.ok chars[n]) := by
  induction chars generalizing c n with
  | nil => simp at hn
  | cons char chars ih =>
    obtain ⟨rest, hstep, hrest⟩ := h
    cases n with
    | zero =>
      rw [answer, next_of_step hstep]
      rfl
    | succ n =>
      rw [answer, next_of_step hstep]
      exact ih hrest (Nat.lt_of_succ_lt_succ hn)

/-- The answers after those are the ones of the cursor that is left. -/
theorem Delivers.answer_add (h : c.Delivers chars last) (n : Nat) :
    c.answer (chars.length + n) = last.answer n := by
  induction chars generalizing c with
  | nil =>
    obtain rfl : c = last := h
    rw [List.length_nil, Nat.zero_add]
  | cons char chars ih =>
    obtain ⟨rest, hstep, hrest⟩ := h
    rw [List.length_cons, Nat.add_right_comm, answer, next_of_step hstep]
    exact ih hrest

/-- A cursor that stays where it is gives one answer for ever. -/
theorem answer_of_stays {item : Option (Except Error Char)} (h : c.next = (item, c)) (n : Nat) :
    c.answer n = item := by
  induction n with
  | zero => rw [answer, h]
  | succ n ih => rw [answer, h, ih]

/-- Where the name ends, the answer is that there is no code point. -/
theorem answer_zero_of_end (h : c.step = .ok none) : c.answer 0 = none := by
  simp only [step] at h
  split at h
  · cases h
  · cases h
  · next hnext => rw [answer, hnext]

theorem deliver_ne_error (char : Char) (e : Error) : deliver char ≠ some (.error e) := by
  unfold deliver
  split <;> simp

/-- The cursor stays at malformed UTF-8. -/
theorem next_of_step_invalidUtf8 (h : c.step = .error .invalidUtf8) :
    c.next = (some (.error .invalidUtf8), c) := by
  have hitem : c.next.1 = some (.error .invalidUtf8) := by
    simp only [step] at h
    split at h
    · cases h
    · next hnext =>
      rw [hnext, Except.error.inj h]
    · cases h
  -- Of the places where a cursor fails, this error is given at one only.
  cases c with
  | utf8 bytes offset =>
    rw [next] at hitem ⊢
    split at hitem
    · next hlt =>
      rw [if_pos hlt]
      split at hitem
      · exact absurd hitem (deliver_ne_error _ _)
      · rfl
    · cases hitem
  | utf16 units =>
    cases units with
    | nil => cases hitem
    | cons u units =>
      rw [next] at hitem
      split at hitem
      · exact absurd hitem (deliver_ne_error _ _)
      · cases hitem

end CodePoints

variable {bytes : ByteArray} {chars : List Char}

/-- The answers for UTF-8 that is valid up to its first NUL end. -/
theorem exists_answer_eq_none_of_spells {name : EncodedName} (h : name.Spells chars) :
    ∃ n ≤ name.codePoints.unitsLeft, name.codePoints.answer n = none := by
  obtain ⟨last, hdelivers, hend⟩ := exists_delivers_of_spells h
  have hle := hdelivers.length_le
  refine ⟨chars.length, by omega, ?_⟩
  rw [← Nat.add_zero chars.length, hdelivers.answer_add, CodePoints.answer_zero_of_end hend]

/-- The answers for malformed UTF-8 are the characters before, and then the error for ever. -/
theorem answer_of_breaks_utf8 (h : (EncodedName.utf8 bytes).Breaks chars) (n : Nat) :
    (EncodedName.utf8 bytes).codePoints.answer n
      = some (chars[n]?.elim (.error .invalidUtf8) .ok) := by
  obtain ⟨last, hdelivers, hfails⟩ := exists_delivers_of_breaks h
  by_cases hn : n < chars.length
  · rw [hdelivers.answer_of_lt hn, List.getElem?_eq_getElem hn]
    rfl
  · obtain ⟨k, rfl⟩ := Nat.exists_eq_add_of_le (Nat.not_lt.mp hn)
    rw [hdelivers.answer_add,
      CodePoints.answer_of_stays (CodePoints.next_of_step_invalidUtf8 hfails),
      List.getElem?_eq_none (Nat.not_lt.mp hn)]
    rfl

/-- **Asking again and again** ends for names in UTF-16, malformed or not, and for names in UTF-8
    that are valid up to their first NUL; one question more than there are code units is enough.
    For other names in UTF-8 it never ends: after the characters in front of the malformed data,
    every answer is the error. -/
theorem answers_end_iff (name : EncodedName) :
    ((∃ n ≤ name.codePoints.unitsLeft, name.codePoints.answer n = none) ↔
      ∀ bytes, name = .utf8 bytes → ∃ chars, name.Spells chars) ∧
    ∀ bytes chars, name = .utf8 bytes → name.Breaks chars → ∀ n,
      name.codePoints.answer n = some (chars[n]?.elim (.error .invalidUtf8) .ok) := by
  constructor
  · constructor
    · rintro ⟨n, -, hnone⟩ bytes rfl
      obtain ⟨reading, hreads⟩ := exists_reads (.utf8 bytes)
      cases hreads with
      | ends hspells => exact ⟨_, hspells⟩
      | breaks hbreaks =>
        rw [answer_of_breaks_utf8 hbreaks] at hnone
        cases hnone
    · intro h
      cases name with
      | utf8 bytes =>
        obtain ⟨chars, hspells⟩ := h bytes rfl
        exact exists_answer_eq_none_of_spells hspells
      | utf16 units => exact CodePoints.exists_answer_eq_none_utf16 units
  · rintro bytes chars rfl hbreaks n
    exact answer_of_breaks_utf8 hbreaks n

/-- No encoding of a character starts with the byte `0xff`. -/
theorem not_standsAt_malformedByte (c : Char) :
    ¬ Bytes.StandsAt ⟨#[0xff]⟩ 0 [c].utf8Encode := by
  intro h
  have hsome := CodePoints.decodeSequence?_eq_some_iff.mpr h
  have hnone : CodePoints.decodeSequence? ⟨#[0xff]⟩ 0 = none := by rfl
  rw [hnone] at hsome
  cases hsome

/-- After `a`, a byte that is no UTF-8 gives an error however often one asks; half of a surrogate
    pair gives one error only. -/
theorem answers_letterAndMalformed :
    (∀ n, (EncodedName.utf8 ⟨#[0x61, 0xff]⟩).codePoints.answer (n + 1)
      = some (.error .invalidUtf8)) ∧
    ∃ n ≤ 2, (EncodedName.utf16 [0x61, 0xd800]).codePoints.answer n = none := by
  have hbreaks : EncodedName.Breaks (.utf8 (['a'].utf8Encode ++ ⟨#[0xff]⟩)) ['a'] :=
    .utf8 (by decide) (by decide) not_standsAt_malformedByte
  have hbytes : ['a'].utf8Encode ++ ⟨#[0xff]⟩ = ⟨#[0x61, 0xff]⟩ := by rfl
  rw [hbytes] at hbreaks
  constructor
  · intro n
    exact (answers_end_iff (.utf8 ⟨#[0x61, 0xff]⟩)).2 _ _ rfl hbreaks (n + 1)
  · exact (answers_end_iff (.utf16 [0x61, 0xd800])).1.mpr (by simp)

/-- **Asking again and again does not end** for a single byte that is no UTF-8. -/
theorem not_ends_malformedByte :
    ¬ ∃ n ≤ (EncodedName.utf8 ⟨#[0xff]⟩).codePoints.unitsLeft,
      (EncodedName.utf8 ⟨#[0xff]⟩).codePoints.answer n = none := by
  rintro ⟨n, -, hnone⟩
  have hstays : (EncodedName.utf8 ⟨#[0xff]⟩).codePoints.next
      = (some (.error .invalidUtf8), (EncodedName.utf8 ⟨#[0xff]⟩).codePoints) := by
    rfl
  rw [CodePoints.answer_of_stays hstays] at hnone
  cases hnone

end Apfs
