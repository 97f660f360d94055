import Apfs.Proofs.Block.Steady
import Apfs.Proofs.Directory.KeyOrder
import Apfs.Proofs.Name.LazyComparison

namespace Apfs

/-!
# The encoding of a name does not matter

Characters in UTF-8 and in UTF-16 give the same code points, those in front of the first NUL.  Names
are only used through their code points, so that it makes no difference in which encoding a name is
searched for, also if names in the tree are malformed.

* `utf8Name`, `utf16Name` — characters as a name, in each encoding.
* `spells_utf8Name`, `spells_utf16Name` — both spell the characters in front of the first NUL.
* `compareNames_congr`, `compareWith_congr`, `lookupEntry_congr` — comparisons and lookups depend on
  what a name spells only.
* `utf16Name_same` — both encodings give the same.
-/

/-! ### Encodings -/

/-- The characters as a name in UTF-8. -/
def utf8Name (chars : List Char) : EncodedName := .ofString (.ofList chars)

/-- The characters as a name in UTF-16. -/
def utf16Name (chars : List Char) : EncodedName := .utf16 (chars.flatMap utf16Units)

/-- The characters of a name that count. -/
def beforeNul (chars : List Char) : List Char := chars.takeWhile (· ≠ '\x00')

theorem not_mem_beforeNul (chars : List Char) : '\x00' ∉ beforeNul chars := by
  intro hmem
  have h := List.mem_takeWhile_imp hmem
  simp at h

/-- What comes after those characters is nothing, or starts with a NUL. -/
theorem exists_eq_beforeNul_append (chars : List Char) :
    ∃ rest, chars = beforeNul chars ++ rest ∧ ∀ c ∈ rest.head?, c = '\x00' := by
  refine ⟨chars.dropWhile (· ≠ '\x00'), List.takeWhile_append_dropWhile.symm, fun c hc => ?_⟩
  have h := List.head?_dropWhile_not (· ≠ '\x00') chars
  rw [hc] at h
  simpa using h

theorem spells_utf8Name (chars : List Char) : (utf8Name chars).Spells (beforeNul chars) := by
  obtain ⟨rest, hchars, hrest⟩ := exists_eq_beforeNul_append chars
  have hbytes : chars.utf8Encode = (beforeNul chars).utf8Encode ++ rest.utf8Encode := by
    rw [← List.utf8Encode_append, ← hchars]
  show (EncodedName.utf8 chars.utf8Encode).Spells _
  rw [hbytes]
  refine .utf8 (not_mem_beforeNul chars) ?_
  cases rest with
  | nil => rfl
  | cons c rest =>
    obtain rfl : c = '\x00' := hrest c rfl
    rw [List.utf8Encode_cons, Bytes.get_append, if_pos (by decide)]
    rfl

theorem spells_utf16Name (chars : List Char) : (utf16Name chars).Spells (beforeNul chars) := by
  obtain ⟨rest, hchars, hrest⟩ := exists_eq_beforeNul_append chars
  have hunits : chars.flatMap utf16Units
      = (beforeNul chars).flatMap utf16Units ++ rest.flatMap utf16Units := by
    rw [← List.flatMap_append, ← hchars]
  rw [utf16Name, hunits]
  refine .utf16 (not_mem_beforeNul chars) ?_
  cases rest with
  | nil => simp
  | cons c rest =>
    obtain rfl : c = '\x00' := hrest c rfl
    intro u hu
    exact (Option.some.inj hu).symm

/-! ### What depends on the characters only -/

section

variable {σ : Type} {sensitivity : CaseSensitivity} {a b : EncodedName} {chars : List Char}

/-- Comparisons with names that have the same code points give the same, whatever name is stored. -/
theorem compareNames_congr (ha : a.Spells chars) (hb : b.Spells chars) (stored : ByteArray) :
    compareNames sensitivity stored a = compareNames sensitivity stored b := by
  have hlist : a.codePoints.toList = b.codePoints.toList :=
    (toList_of_spells ha).trans (toList_of_spells hb).symm
  -- The names part at the same position from the stored one, where they show the same.
  obtain ⟨p, hp⟩ := exists_partsAt
    (Reading.shown_length_ne sensitivity.fold (EncodedName.utf8 stored).codePoints.toList)
  refine CodePoints.compareFolded_congr hp fun i _ => ⟨rfl, ?_⟩
  rw [hlist]

theorem compareWith_congr (ha : a.Spells chars) (hb : b.Spells chars) (k : DirectoryKey)
    (parent : UInt64) (hash : Option UInt32) :
    k.compareWith { parent, hash, name := a, sensitivity }
      = k.compareWith { parent, hash, name := b, sensitivity } := by
  unfold DirectoryKey.compareWith
  dsimp only
  rw [compareNames_congr ha hb]

/-- Searches with names of the same characters are the same. -/
theorem lookupEntry_congr (ha : a.Spells chars) (hb : b.Spells chars) (t : Tree)
    (reader : BlockReader σ) (lookup : ObjectLookup σ) (format : EntryFormat) (parent : UInt64) :
    t.lookupEntry reader lookup format sensitivity parent a
      = t.lookupEntry reader lookup format sensitivity parent b := by
  have horder (hash : Option UInt32) :
      EntryQuery.order { parent, hash, name := a, sensitivity } format
        = EntryQuery.order { parent, hash, name := b, sensitivity } format := by
    funext key
    simp only [EntryQuery.order, compareWith_congr ha hb]
  unfold Tree.lookupEntry
  -- What is left of both lookups is the search with the query.
  rw [lift_bind_of_ok (ofName_of_spells ha ..), lift_bind_of_ok (ofName_of_spells hb ..), horder]

end

/-- **The encoding of a name** does not matter.  The code points of the characters in UTF-8 and in
    UTF-16 are the characters in front of the first NUL, without an error, and all that is done with
    a name gives the same for both. -/
theorem utf16Name_same (chars : List Char) :
    (utf8Name chars).codePoints.toList = (chars.takeWhile (· ≠ '\x00'), none) ∧
    (utf16Name chars).codePoints.toList = (chars.takeWhile (· ≠ '\x00'), none) ∧
    ∀ sensitivity : CaseSensitivity,
      (∀ stored : ByteArray, compareNames sensitivity stored (utf16Name chars)
        = compareNames sensitivity stored (utf8Name chars)) ∧
      (utf16Name chars).hash sensitivity = (utf8Name chars).hash sensitivity ∧
      (∀ (k : DirectoryKey) (parent : UInt64) (hash : Option UInt32),
        k.compareWith { parent, hash, name := utf16Name chars, sensitivity }
          = k.compareWith { parent, hash, name := utf8Name chars, sensitivity }) ∧
      ∀ (σ : Type) (t : Tree) (reader : BlockReader σ) (lookup : ObjectLookup σ)
        (format : EntryFormat) (parent : UInt64),
        t.lookupEntry reader lookup format sensitivity parent (utf16Name chars)
          = t.lookupEntry reader lookup format sensitivity parent (utf8Name chars) := by
  have hutf8 := spells_utf8Name chars
  have hutf16 := spells_utf16Name chars
  refine ⟨toList_of_spells hutf8, toList_of_spells hutf16, fun sensitivity => ⟨?_, ?_, ?_, ?_⟩⟩
  · exact compareNames_congr hutf16 hutf8
  · rw [hash_of_spells hutf16, hash_of_spells hutf8]
  · exact compareWith_congr hutf16 hutf8
  · intro σ t reader lookup format parent
    exact lookupEntry_congr hutf16 hutf8 t reader lookup format parent

end Apfs
