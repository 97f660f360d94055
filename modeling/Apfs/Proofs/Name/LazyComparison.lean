import Apfs.Proofs.Name.Order
import Apfs.Proofs.Name.Reading

namespace Apfs

/-!
# Where a comparison of names is decided

Two names are compared character by character, and nothing is decoded beyond the first position
where they differ or where one of them does not go on.  What is found there decides, and malformed
data behind it does not matter.

* `Reading.shown` — what is found at a position of a name.
* `PartsAt` — the first position where two names do not show the same character.
* `orderOf` — the result of a comparison, by what is found at that position.
* `compareFolded_eq_orderOf` — a comparison has this result.
* `foldedOrder` — the order of the names without malformed data.
* `compareNames_eq_orderOf_and_foldedOrder` — both for names.
-/

/-! ### Positions -/

/-- What is found at a position: the folded character there, nothing where the name has ended, or an
    error where it is malformed. -/
def Reading.shown (fold : Char → Char) (reading : Reading) (p : Nat) :
    Except Error (Option Char) :=
  match reading.1[p]?, reading.2 with
  | some c, _ => .ok (some (fold c))
  | none, none => .ok none
  | none, some e => .error e

/-- Both sides show the same characters before the position, but not at it. -/
structure PartsAt (left right : Nat → Except Error (Option Char)) (p : Nat) : Prop where
  /-- Before the position, both sides show a character, and it is the same one. -/
  before : ∀ i < p, ∃ c, left i = .ok (some c) ∧ right i = .ok (some c)
  /-- At the position, the characters differ, or one of the sides does not show any. -/
  here : ¬ ∃ c, left p = .ok (some c) ∧ right p = .ok (some c)

/-- The result of a comparison.  The fault of the first side counts before that of the second, and
    both count before the order. -/
def orderOf : Except Error (Option Char) → Except Error (Option Char) → Except Error Ordering
  | .error e, _ => .error e
  | .ok _, .error e => .error e
  | .ok none, .ok none => .ok .eq
  | .ok none, .ok (some _) => .ok .lt
  | .ok (some _), .ok none => .ok .gt
  | .ok (some c), .ok (some d) => .ok (compare c d)

section

variable {left right left' right' : Nat → Except Error (Option Char)} {p : Nat}

/-- One position later counts from the second characters on. -/
theorem PartsAt.tail (h : PartsAt left right (p + 1)) :
    PartsAt (fun i => left (i + 1)) (fun i => right (i + 1)) p :=
  ⟨fun i hi => h.before (i + 1) (Nat.succ_lt_succ hi), h.here⟩

/-- What is found behind the position does not matter. -/
theorem PartsAt.congr (h : PartsAt left right p)
    (hsame : ∀ i ≤ p, left' i = left i ∧ right' i = right i) : PartsAt left' right' p := by
  constructor
  · intro i hi
    rw [(hsame i hi.le).1, (hsame i hi.le).2]
    exact h.before i hi
  · rw [(hsame p le_rfl).1, (hsame p le_rfl).2]
    exact h.here

/-- There is such a position if one side does not go on for ever. -/
theorem exists_partsAt {n : Nat} (h : ∀ c, left n ≠ .ok (some c)) : ∃ p, PartsAt left right p := by
  classical
  have hex : ∃ p, ¬ ∃ c, left p = .ok (some c) ∧ right p = .ok (some c) :=
    ⟨n, fun ⟨c, hc, _⟩ => h c hc⟩
  exact ⟨Nat.find hex, fun i hi => not_not.mp (Nat.find_min hex hi), Nat.find_spec hex⟩

end

/-- No character is shown where the characters have come to an end. -/
theorem Reading.shown_length_ne (fold : Char → Char) (reading : Reading) (c : Char) :
    reading.shown fold reading.1.length ≠ .ok (some c) := by
  unfold shown
  rw [List.getElem?_eq_none (Nat.le_refl _)]
  split <;> simp_all

namespace CodePoints

variable {fold : Char → Char} {left right rest : CodePoints} {char : Char} {p : Nat}

/-! ### Comparisons -/

/-- At the first position stands what the cursor delivers. -/
theorem shown_zero (fold : Char → Char) (c : CodePoints) :
    Reading.shown fold c.toList 0 = c.step.map (Option.map fun next => fold next.1) := by
  rw [toList]
  split
  · next hstep => rw [hstep]; rfl
  · next hstep => rw [hstep]; rfl
  · next hstep => rw [hstep]; rfl

/-- At the other positions stands what the cursor delivers later. -/
theorem shown_succ (h : left.step = .ok (some (char, rest))) (p : Nat) :
    Reading.shown fold left.toList (p + 1) = Reading.shown fold rest.toList p := by
  rw [toList_of_some h]
  rfl

/-- Where a character is shown, the cursor delivers one that is folded to it. -/
theorem exists_step_of_map_eq {c : CodePoints}
    (h : c.step.map (Option.map fun next => fold next.1) = .ok (some char)) :
    ∃ d rest, c.step = .ok (some (d, rest)) ∧ fold d = char := by
  rcases hstep : c.step with e | _ | ⟨d, rest⟩
  · rw [hstep] at h
    cases h
  · rw [hstep] at h
    cases h
  · rw [hstep] at h
    cases h
    exact ⟨d, rest, rfl, rfl⟩

/-- **A comparison** is decided at the first position where the folded characters are not the same.
    By induction on this position, one step of both cursors at a time. -/
theorem compareFolded_eq_orderOf
    (h : PartsAt (Reading.shown fold left.toList) (Reading.shown fold right.toList) p) :
    left.compareFolded fold right
      = orderOf (Reading.shown fold left.toList p) (Reading.shown fold right.toList p) := by
  induction p generalizing left right with
  | zero =>
    -- Both cursors are at the position, so what they deliver decides.
    have hhere := h.here
    rw [shown_zero, shown_zero] at hhere ⊢
    rw [compareFolded]
    generalize left.step = first at hhere ⊢
    generalize right.step = second at hhere ⊢
    rcases first with e | _ | ⟨c, left'⟩
    · rfl
    · rcases second with e | _ | ⟨d, right'⟩ <;> rfl
    · rcases second with e | _ | ⟨d, right'⟩
      · rfl
      · rfl
      · -- Both deliver a character, so the characters differ.
        have hne : fold c ≠ fold d := fun heq => hhere ⟨fold d, by rw [← heq]; rfl, rfl⟩
        show _ = Except.ok (compare (fold c) (fold d))
        dsimp only
        cases hcompare : compare (fold c) (fold d) with
        | lt => rfl
        | eq => exact absurd (Std.compare_eq_iff_eq.mp hcompare) hne
        | gt => rfl
  | succ p ih =>
    -- Both deliver characters that fold to the same one, and the comparison goes on behind them.
    obtain ⟨char, hl, hr⟩ := h.before 0 p.succ_pos
    rw [shown_zero] at hl hr
    obtain ⟨c, left', hleft, rfl⟩ := exists_step_of_map_eq hl
    obtain ⟨d, right', hright, hsame⟩ := exists_step_of_map_eq hr
    have htail : PartsAt (Reading.shown fold left'.toList) (Reading.shown fold right'.toList) p :=
      h.tail.congr fun i _ => ⟨(shown_succ hleft i).symm, (shown_succ hright i).symm⟩
    rw [shown_succ hleft, shown_succ hright, ← ih htail, compareFolded, hleft, hright]
    dsimp only
    rw [hsame, Std.compare_self]

/-- Comparisons give the same if the cursors deliver the same up to this position. -/
theorem compareFolded_congr {left' right' : CodePoints}
    (h : PartsAt (Reading.shown fold left.toList) (Reading.shown fold right.toList) p)
    (hsame : ∀ i ≤ p, Reading.shown fold left'.toList i = Reading.shown fold left.toList i ∧
      Reading.shown fold right'.toList i = Reading.shown fold right.toList i) :
    left'.compareFolded fold right' = left.compareFolded fold right := by
  rw [compareFolded_eq_orderOf h, compareFolded_eq_orderOf (h.congr hsame),
    (hsame p le_rfl).1, (hsame p le_rfl).2]

end CodePoints

/-! ### Names -/

/-- The lexicographic order of lists of characters, after folding. -/
def foldedOrder (sensitivity : CaseSensitivity) : List Char → List Char → Ordering :=
  compareOn (List.map sensitivity.fold)

instance (sensitivity : CaseSensitivity) : Std.TransCmp (foldedOrder sensitivity) :=
  inferInstanceAs (Std.TransCmp (compareOn (List.map sensitivity.fold)))

/-- Lists of characters that compare equal are those that fold to the same list. -/
theorem foldedOrder_eq_eq_iff {sensitivity : CaseSensitivity} {l r : List Char} :
    foldedOrder sensitivity l r = .eq ↔ l.map sensitivity.fold = r.map sensitivity.fold :=
  Std.compare_eq_iff_eq

/-- **Comparing names** is lexicographic and reads no further than it has to.  Of any two names,
    what is found at the first position where they part decides, and so names that show the same up
    to there compare in the same way, whatever comes after it.  On names without malformed data
    this is a total preorder, in which the names with the same folded characters are equal. -/
theorem compareNames_eq_orderOf_and_foldedOrder (sensitivity : CaseSensitivity) :
    (∀ (stored : ByteArray) (name : EncodedName), ∃ (left right : Reading) (p : Nat),
      (EncodedName.utf8 stored).Reads left ∧ name.Reads right ∧
        PartsAt (left.shown sensitivity.fold) (right.shown sensitivity.fold) p) ∧
    (∀ (stored : ByteArray) (name : EncodedName) (left right : Reading) (p : Nat),
      (EncodedName.utf8 stored).Reads left → name.Reads right →
      PartsAt (left.shown sensitivity.fold) (right.shown sensitivity.fold) p →
      compareNames sensitivity stored name
          = orderOf (left.shown sensitivity.fold p) (right.shown sensitivity.fold p) ∧
        ∀ (stored' : ByteArray) (name' : EncodedName) (left' right' : Reading),
          (EncodedName.utf8 stored').Reads left' → name'.Reads right' →
          (∀ i ≤ p, left'.shown sensitivity.fold i = left.shown sensitivity.fold i ∧
            right'.shown sensitivity.fold i = right.shown sensitivity.fold i) →
          compareNames sensitivity stored' name' = compareNames sensitivity stored name) ∧
    (Std.TransCmp (foldedOrder sensitivity) ∧
      (∀ l r, foldedOrder sensitivity l r = .eq ↔
        l.map sensitivity.fold = r.map sensitivity.fold) ∧
      ∀ (stored : ByteArray) (name : EncodedName) (l r : List Char),
        (EncodedName.utf8 stored).Spells l → name.Spells r →
        compareNames sensitivity stored name = .ok (foldedOrder sensitivity l r)) := by
  refine ⟨?_, ?_, inferInstance, fun l r => foldedOrder_eq_eq_iff, ?_⟩
  · -- The stored name does not go on for ever, so the names part somewhere.
    intro stored name
    obtain ⟨left, hleft⟩ := exists_reads (.utf8 stored)
    obtain ⟨right, hright⟩ := exists_reads name
    obtain ⟨p, hp⟩ := exists_partsAt (left.shown_length_ne sensitivity.fold)
    exact ⟨left, right, p, hleft, hright, hp⟩
  · -- What names read as is what their cursors deliver.
    intro stored name left right p hleft hright hp
    obtain rfl := reads_iff_toList.mp hleft
    obtain rfl := reads_iff_toList.mp hright
    refine ⟨CodePoints.compareFolded_eq_orderOf hp, ?_⟩
    intro stored' name' left' right' hleft' hright' hsame
    obtain rfl := reads_iff_toList.mp hleft'
    obtain rfl := reads_iff_toList.mp hright'
    exact CodePoints.compareFolded_congr hp hsame
  · intro stored name l r hl hr
    exact compareNames_of_spells hl hr

/-- `b` comes after `a`, and it does not matter whether malformed data follows in both names. -/
theorem compareNames_lettersAndMalformed :
    compareNames .sensitive ⟨#[0x62, 0xff]⟩ (.utf16 [0x61, 0xd800]) = .ok .gt ∧
      compareNames .sensitive ⟨#[0x62]⟩ (.utf16 [0x61])
        = compareNames .sensitive ⟨#[0x62, 0xff]⟩ (.utf16 [0x61, 0xd800]) ∧
      compareNames .sensitive ⟨#[0x62]⟩ (.utf16 [0x61])
        = .ok (foldedOrder .sensitive ['b'] ['a']) := by
  obtain ⟨-, hdecides, -, -, horder⟩ := compareNames_eq_orderOf_and_foldedOrder .sensitive
  have hmalformed : (EncodedName.utf8 ⟨#[0x62, 0xff]⟩).Reads (['b'], some .invalidUtf8) :=
    reads_iff_toList.mpr (by cbv)
  have hhalf : (EncodedName.utf16 [0x61, 0xd800]).Reads (['a'], some .invalidUtf16) :=
    reads_iff_toList.mpr (by cbv)
  have hstored : (EncodedName.utf8 ⟨#[0x62]⟩).Spells ['b'] := by
    have h : EncodedName.Spells (.utf8 (['b'].utf8Encode ++ .empty)) ['b'] := .utf8 (by decide) rfl
    exact h
  have hname : (EncodedName.utf16 [0x61]).Spells ['a'] :=
    @EncodedName.Spells.utf16 ['a'] [] (by decide) (by simp)
  have hparts : PartsAt (Reading.shown CaseSensitivity.sensitive.fold (['b'], some .invalidUtf8))
      (Reading.shown CaseSensitivity.sensitive.fold (['a'], some .invalidUtf16)) 0 := by
    refine ⟨by simp, ?_⟩
    rintro ⟨c, hb, ha⟩
    cases hb
    cases ha
  obtain ⟨horderOf, hsame⟩ := hdecides _ _ _ _ 0 hmalformed hhalf hparts
  refine ⟨horderOf, hsame _ _ _ _ (.ends hstored) (.ends hname) ?_, horder _ _ _ _ hstored hname⟩
  intro i hi
  obtain rfl : i = 0 := Nat.le_zero.mp hi
  exact ⟨rfl, rfl⟩

end Apfs
