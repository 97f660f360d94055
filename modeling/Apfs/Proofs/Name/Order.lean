import Apfs.Name.Compare
import Apfs.Name.Hash
import Apfs.Proofs.Name.Encodings

namespace Apfs

/-!
# The order and the hash of names

Comparing and hashing names decodes them as far as needed.  On names without malformed data, both
are functions of the lists of folded characters.

* `compareFolded_eq` — a comparison is the lexicographic order of the folded lists.
* `toList_of_compareFolded_eq` — only names with the same folded list compare equal.
* `foldedHash`, `hash_of_toList` — the hash as a function of the folded list.
* `compareNames_of_spells`, `hash_of_spells` — both for names that spell characters.
* `hash_of_compareNames_eq` — names that compare equal have equal hashes.
-/

namespace CodePoints

variable {fold : Char → Char}

/-- **Comparing** two cursors without malformed data compares the folded lists.  By induction on
    the first list, one step of both cursors at a time. -/
theorem compareFolded_eq {left right : CodePoints} {l r : List Char}
    (hl : left.toList = (l, none)) (hr : right.toList = (r, none)) :
    left.compareFolded fold right = .ok (compare (l.map fold) (r.map fold)) := by
  induction l generalizing left right r with
  | nil =>
    have hleft := step_of_toList_nil hl
    cases r with
    | nil =>
      rw [compareFolded, hleft, step_of_toList_nil hr]
      rfl
    | cons d r =>
      obtain ⟨rest, hright, -⟩ := step_of_toList_cons hr
      rw [compareFolded, hleft, hright]
      rfl
  | cons c l ih =>
    obtain ⟨left', hleft, hl'⟩ := step_of_toList_cons hl
    cases r with
    | nil =>
      rw [compareFolded, hleft, step_of_toList_nil hr]
      rfl
    | cons d r =>
      obtain ⟨right', hright, hr'⟩ := step_of_toList_cons hr
      rw [compareFolded, hleft, hright, List.map_cons, List.map_cons, List.compare_cons_cons]
      dsimp only
      -- Only where the first characters are equal does the comparison go on.
      cases compare (fold c) (fold d) with
      | eq => exact ih hl' hr'
      | lt => rfl
      | gt => rfl

/-- **Comparing equal** means that both names end without malformed data and have the same folded
    list.  By induction along the comparison, which goes on only while the folded characters are
    equal. -/
theorem toList_of_compareFolded_eq {left right : CodePoints}
    (h : left.compareFolded fold right = .ok .eq) :
    ∃ l r, left.toList = (l, none) ∧ right.toList = (r, none) ∧ l.map fold = r.map fold := by
  fun_induction compareFolded fold left right with
  | case1 => contradiction
  | case2 => contradiction
  | case3 left right hl hr =>
    -- Both names end here.
    exact ⟨[], [], toList_of_none hl, toList_of_none hr, rfl⟩
  | case4 => contradiction
  | case5 => contradiction
  | case6 left right c left' d right' hl hr hcompare ih =>
    obtain ⟨l, r, hl', hr', hfold⟩ := ih h
    have hchar : fold c = fold d := Std.compare_eq_iff_eq.mp hcompare
    refine ⟨c :: l, d :: r, ?_, ?_, ?_⟩
    · simp [toList_of_some hl, hl']
    · simp [toList_of_some hr, hr']
    · simp [hchar, hfold]
  | case7 left right c left' d right' hl hr hne => exact absurd (Except.ok.inj h) hne

/-- The register after the characters that a cursor without malformed data delivers. -/
theorem crc_eq {c : CodePoints} {chars : List Char} (h : c.toList = (chars, none))
    (register : UInt32) :
    c.crc fold register = .ok ((chars.map fold).foldl
      (fun register char => Checksum.crc32c (encoded char.val) register) register) := by
  induction chars generalizing c register with
  | nil => rw [crc, step_of_toList_nil h]; rfl
  | cons char chars ih =>
    obtain ⟨rest, hstep, hrest⟩ := step_of_toList_cons h
    rw [crc, hstep, List.map_cons, List.foldl_cons]
    exact ih hrest _

end CodePoints

/-- The hash of a name with the given folded characters. -/
def foldedHash (folded : List Char) : UInt32 :=
  ~~~(folded.foldl (fun register char => Checksum.crc32c (encoded char.val) register) 0xffffffff)
    &&& nameHashMask

variable {sensitivity : CaseSensitivity} {name : EncodedName} {chars : List Char}

/-- A name has a hash if its code points end without malformed data. -/
theorem hash_of_toList (h : name.codePoints.toList = (chars, none)) :
    name.hash sensitivity = .ok (foldedHash (chars.map sensitivity.fold)) := by
  rw [EncodedName.hash, CodePoints.crc_eq h]
  rfl

/-- **The hash** of a name depends on its folded characters only. -/
theorem hash_of_spells (h : name.Spells chars) :
    name.hash sensitivity = .ok (foldedHash (chars.map sensitivity.fold)) :=
  hash_of_toList (toList_of_spells h)

/-- **Comparing names** compares their folded characters. -/
theorem compareNames_of_spells {stored : ByteArray} {chars' : List Char}
    (hstored : (EncodedName.utf8 stored).Spells chars') (h : name.Spells chars) :
    compareNames sensitivity stored name
      = .ok (compare (chars'.map sensitivity.fold) (chars.map sensitivity.fold)) :=
  CodePoints.compareFolded_eq (toList_of_spells hstored) (toList_of_spells h)

/-- **Equal names have equal hashes.**  That they compare equal says that both have a hash. -/
theorem hash_of_compareNames_eq {stored : ByteArray}
    (h : compareNames sensitivity stored name = .ok .eq) :
    ∃ hash, (EncodedName.utf8 stored).hash sensitivity = .ok hash ∧
      name.hash sensitivity = .ok hash := by
  obtain ⟨l, r, hl, hr, hfold⟩ := CodePoints.toList_of_compareFolded_eq h
  refine ⟨_, hash_of_toList hl, ?_⟩
  rw [hfold]
  exact hash_of_toList hr

end Apfs
