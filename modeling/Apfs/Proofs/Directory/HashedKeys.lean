import Apfs.Proofs.Directory.Lookup

namespace Apfs

/-!
# The hash of a directory key is a shortcut

Keys that hold a hash are compared by it before their names are.  A name that would compare equal
is never passed over for that, as equal names have equal hashes.

* `compareWith_eq_iff` — when a key compares equal with a query.
* `hash_eq_and_compareWith_iff` — equal names have equal hashes, and the hash in a query does not
  change which keys compare equal with it.
-/

/-- A key compares equal with a query if the words in front do, if the hashes are equal where both
    have one, and if the names compare equal. -/
theorem DirectoryKey.compareWith_eq_iff (k : DirectoryKey) (query : EntryQuery) :
    k.compareWith query = .ok .eq ↔
      compare k.record (.ofParts query.parent .directoryRecord) = .eq ∧
        (∀ stored ∈ k.hash, ∀ wanted ∈ query.hash, stored = wanted) ∧
        compareNames query.sensitivity k.nameBytes query.name = .ok .eq := by
  unfold compareWith
  dsimp only
  cases compare k.record (.ofParts query.parent .directoryRecord) with
  | lt => simp
  | gt => simp
  | eq =>
    cases k.hash with
    | none => simp
    | some stored =>
      cases query.hash with
      | none => simp
      | some wanted =>
        -- The names are compared only where the hashes are equal.
        have hhashes : compare stored wanted = .eq ↔ stored = wanted := Std.compare_eq_iff_eq
        cases hcompare : compare stored wanted <;> simp_all

/-- **The hash never hides a name.**  Names that compare equal both have a hash, and it is the same.
    So where a key holds the hash of its name, the hash of a valid name in a query makes no
    difference to whether the key compares equal with the query. -/
theorem hash_eq_and_compareWith_iff (sensitivity : CaseSensitivity) :
    (∀ (stored : ByteArray) (name : EncodedName), compareNames sensitivity stored name = .ok .eq →
      ∃ hash, (EncodedName.utf8 stored).hash sensitivity = .ok hash ∧
        name.hash sensitivity = .ok hash) ∧
    (∀ (key : DirectoryKey) (stored : UInt32), key.hash = some stored →
      (EncodedName.utf8 key.nameBytes).hash sensitivity = .ok stored →
      ∀ (name : EncodedName) (chars : List Char), name.Spells chars → ∀ parent : UInt64,
      ∃ wanted, name.hash sensitivity = .ok wanted ∧
        (key.compareWith { parent, hash := some wanted, name, sensitivity } = .ok .eq ↔
          key.compareWith { parent, hash := none, name, sensitivity } = .ok .eq)) := by
  constructor
  · intro stored name h
    exact hash_of_compareNames_eq h
  · intro key stored hkey hstored name chars hname parent
    refine ⟨_, hash_of_spells hname, ?_⟩
    rw [DirectoryKey.compareWith_eq_iff, DirectoryKey.compareWith_eq_iff]
    dsimp only
    constructor
    · rintro ⟨hrecord, -, hnames⟩
      exact ⟨hrecord, by simp, hnames⟩
    · rintro ⟨hrecord, -, hnames⟩
      refine ⟨hrecord, ?_, hnames⟩
      -- The names compare equal, so both have the same hash, which is the one that the key holds.
      obtain ⟨hash, hleft, hright⟩ := hash_of_compareNames_eq hnames
      rw [hstored] at hleft
      rw [hash_of_spells hname] at hright
      intro a ha b hb
      rw [hkey] at ha
      rw [← Option.some.inj ha, ← Option.some.inj hb, Except.ok.inj hleft, Except.ok.inj hright]

/-- An entry called `A` and a query for `a` on a volume that ignores case. -/
theorem compareWith_entryKey_iff :
    compareNames .insensitive entryKey.1.nameBytes (.utf16 [97]) = .ok .eq ∧
      (EncodedName.utf16 [97]).hash .insensitive = .ok 2206227 ∧
      (entryKey.1.compareWith
          { parent := 2, hash := some 2206227, name := .utf16 [97], sensitivity := .insensitive }
        = .ok .eq ↔
        entryKey.1.compareWith
          { parent := 2, hash := none, name := .utf16 [97], sensitivity := .insensitive }
          = .ok .eq) := by
  have hfold : ['A'].map CaseSensitivity.insensitive.fold = ['a'] := by decide +kernel
  have hfold' : ['a'].map CaseSensitivity.insensitive.fold = ['a'] := by decide +kernel
  have hvalue : foldedHash ['a'] = 2206227 := by decide +kernel
  have hquery : (EncodedName.utf16 [97]).Spells ['a'] :=
    @EncodedName.Spells.utf16 ['a'] [] (by decide) (by simp)
  have hnames : compareNames .insensitive entryKey.1.nameBytes (.utf16 [97]) = .ok .eq := by
    rw [compareNames_of_spells spells_entryKey hquery, hfold, hfold']
    decide
  obtain ⟨hequal, hiff⟩ := hash_eq_and_compareWith_iff .insensitive
  obtain ⟨hash, hleft, hright⟩ := hequal _ _ hnames
  have hhash : hash = 2206227 := by
    rw [hash_of_spells hquery, hfold', hvalue] at hright
    exact (Except.ok.inj hright).symm
  rw [hhash] at hleft hright
  obtain ⟨wanted, hwanted, h⟩ := hiff entryKey.1 2206227 rfl hleft _ _ hquery 2
  rw [hright] at hwanted
  rw [← Except.ok.inj hwanted] at h
  exact ⟨hnames, hright, h⟩

end Apfs
