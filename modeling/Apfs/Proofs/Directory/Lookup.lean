import Apfs.Proofs.Directory.KeyOrder
import Apfs.Proofs.Tree.Scan

namespace Apfs

/-!
# Looking up directory entries

A file system tree holds records of many types, of which directory entries are found by their
names.  If the records are sorted, a lookup finds the entry of a directory with a given name
whenever there is one, and nothing else.

* `Stores` — an entry of the tree holds a record.
* `DirectoryKey.Answers` — the entry of a directory that has a name, up to folding.
* `KeysSorted` — the keys of a tree are sorted, and their hashes are right.
* `monotone_of_keysSorted` — comparisons with a query are monotone along sorted keys.
* `lookupEntry_eq` — a lookup gives the record that answers, if there is one.
-/

variable {σ : Type} {format : EntryFormat} {sensitivity : CaseSensitivity}

/-! ### Sorted keys -/

/-- The key and the value of a record, stored in an entry of the tree. -/
def Stores (format : EntryFormat) (e : Entry) (record : DirectoryKey × ByteArray) : Prop :=
  DirectoryKey.ofBytes format e.key = .ok record.1 ∧ e.value = record.2

namespace DirectoryKey

/-- The key is that of an entry in the directory `parent`, of which only the low 60 bits count, and
    its name differs from `wanted` by no more than folding. -/
def Answers (k : DirectoryKey) (sensitivity : CaseSensitivity) (parent : UInt64)
    (wanted : List Char) : Prop :=
  k.IsEntry ∧ k.parent.toNat = parent.toNat % 2 ^ 60 ∧
    ∃ chars, k.Spells chars ∧ chars.map sensitivity.fold = wanted.map sensitivity.fold

/-- The hash of `a`, if keys hold hashes, and then the folded name of `a` is before that of `b`. -/
def NameBefore (sensitivity : CaseSensitivity) (a b : DirectoryKey) : Prop :=
  ∀ ⦃chars chars'⦄, a.Spells chars → b.Spells chars' →
    (compare a.hash b.hash).then
      (compare (chars.map sensitivity.fold) (chars'.map sensitivity.fold)) = .lt

end DirectoryKey

/-- Keys in the order of a file system tree. -/
structure KeysSorted (sensitivity : CaseSensitivity) (keys : List DirectoryKey) : Prop where
  /-- The names of directory entries are valid up to their first NUL. -/
  spells : ∀ k ∈ keys, k.IsEntry → ∃ chars, k.Spells chars
  /-- A hash is that of the name. -/
  hash_eq : ∀ k ∈ keys, k.IsEntry → ∀ h ∈ k.hash,
    (EncodedName.utf8 k.nameBytes).hash sensitivity = .ok h
  /-- Keys are sorted by object and type. -/
  record_le : keys.Pairwise fun a b => compare a.record b.record ≠ .gt
  /-- The entries of one directory are sorted strictly, by hash and name. -/
  name_lt : keys.Pairwise fun a b =>
    a.IsEntry → b.IsEntry → a.parent = b.parent → a.NameBefore sensitivity b

/-! ### Comparing along sorted keys -/

namespace DirectoryKey

/-- What is looked for, as a sort key. -/
def target (format : EntryFormat) (sensitivity : CaseSensitivity) (parent : UInt64)
    (wanted : List Char) : SortKey :=
  (.ofParts parent .directoryRecord, format.hash (wanted.map sensitivity.fold),
    wanted.map sensitivity.fold)

/-- What a key that spells `chars` is sorted by. -/
def sortKey (k : DirectoryKey) (sensitivity : CaseSensitivity) (chars : List Char) : SortKey :=
  (k.record, k.hash, chars.map sensitivity.fold)

end DirectoryKey

/-- The order in which a lookup compares stored keys. -/
def lookupOrder (format : EntryFormat) (sensitivity : CaseSensitivity) (parent : UInt64)
    (name : EncodedName) (wanted : List Char) : KeyOrder :=
  EntryQuery.order
    { parent, hash := format.hash (wanted.map sensitivity.fold), name, sensitivity } format

section Comparisons

variable {keys : List DirectoryKey} {k a b : DirectoryKey} {parent : UInt64} {name : EncodedName}
  {wanted chars : List Char} {bytes : ByteArray}

/-- The keys of all records have valid names; those of records that are no directory entries have
    empty ones. -/
theorem KeysSorted.exists_spells (h : KeysSorted sensitivity keys) (hk : k ∈ keys)
    (hbytes : DirectoryKey.ofBytes format bytes = .ok k) : ∃ chars, k.Spells chars := by
  rcases DirectoryKey.ofBytes_cases hbytes with ⟨hentry, -⟩ | ⟨-, -, hempty⟩
  · exact h.spells k hk hentry
  · exact ⟨[], DirectoryKey.spells_of_empty hempty⟩

/-- A lookup compares stored keys by their sort keys. -/
theorem lookupOrder_eq (hname : name.Spells wanted)
    (hbytes : DirectoryKey.ofBytes format bytes = .ok k) (hspells : k.Spells chars) :
    lookupOrder format sensitivity parent name wanted bytes
      = .ok (SortKey.order (k.sortKey sensitivity chars)
          (DirectoryKey.target format sensitivity parent wanted)) := by
  have hhash : k.IsEntry →
      k.hash.isSome = (format.hash (wanted.map sensitivity.fold)).isSome := by
    intro hentry
    rcases DirectoryKey.ofBytes_cases hbytes with ⟨-, hhash⟩ | ⟨hother, -⟩
    · cases format <;> simpa [EntryFormat.hash] using hhash
    · exact absurd hentry hother
  rw [lookupOrder, EntryQuery.order, hbytes]
  exact DirectoryKey.compareWith_eq hspells hname hhash

/-- The hash of a sorted key is the one that a query for the same name has. -/
theorem KeysSorted.hash_eq_of_spells (h : KeysSorted sensitivity keys) (hk : k ∈ keys)
    (hentry : k.IsEntry) (hbytes : DirectoryKey.ofBytes format bytes = .ok k)
    (hspells : k.Spells chars) : k.hash = format.hash (chars.map sensitivity.fold) := by
  rcases DirectoryKey.ofBytes_cases hbytes with ⟨-, hformat⟩ | ⟨hother, -⟩
  · cases hhash : k.hash with
    | none =>
      cases format with
      | plain => rfl
      | hashed => simp [hhash] at hformat
    | some stored =>
      have heq := h.hash_eq k hk hentry stored hhash
      rw [hash_of_spells hspells] at heq
      cases format with
      | plain => simp [hhash] at hformat
      | hashed => simpa [EntryFormat.hash] using heq.symm
  · exact absurd hentry hother

/-- **The entry that is looked for** is the one whose sort key compares equal. -/
theorem order_eq_eq_iff_answers (h : KeysSorted sensitivity keys) (hk : k ∈ keys)
    (hbytes : DirectoryKey.ofBytes format bytes = .ok k) (hspells : k.Spells chars) :
    SortKey.order (k.sortKey sensitivity chars)
        (DirectoryKey.target format sensitivity parent wanted) = .eq ↔
      k.Answers sensitivity parent wanted := by
  rw [SortKey.order_eq_eq_iff]
  show (k.record.object = _ ∧ k.record.type = _) ∧ k.hash = _ ∧ chars.map _ = _ ↔ _
  rw [DirectoryKey.target, RecordKey.object_ofParts, RecordKey.type_ofParts, ← UInt64.toNat_inj,
    RecordKey.toNat_and_objectMask]
  constructor
  · rintro ⟨⟨hobject, htype⟩, -, hname⟩
    exact ⟨htype, hobject, chars, hspells, hname⟩
  · rintro ⟨hentry, hparent, chars', hspells', hname⟩
    obtain rfl := hspells'.unique hspells
    refine ⟨⟨hparent, hentry⟩, ?_, hname⟩
    rw [h.hash_eq_of_spells hk hentry hbytes hspells, hname]

/-- **Keys next to each other.**  Of two sorted keys, the first compares less than what is looked
    for or the second greater.  Records of other types may have the same word in front, but it is
    not the word of a directory entry. -/
theorem lt_or_gt_of_sorted {chars' : List Char} (hrecord : compare a.record b.record ≠ .gt)
    (hname : a.IsEntry → b.IsEntry → a.parent = b.parent → a.NameBefore sensitivity b)
    (ha : a.Spells chars) (hb : b.Spells chars') :
    SortKey.order (a.sortKey sensitivity chars)
        (DirectoryKey.target format sensitivity parent wanted) = .lt ∨
      SortKey.order (b.sortKey sensitivity chars')
        (DirectoryKey.target format sensitivity parent wanted) = .gt := by
  by_cases hlt : SortKey.order (a.sortKey sensitivity chars) (b.sortKey sensitivity chars') = .lt
  · exact lt_or_gt_of_cmp_eq_lt hlt _
  · -- The words in front are equal, and they are not those of directory entries.
    have heq : compare a.record b.record = .eq := by
      rw [SortKey.order_eq] at hlt
      cases hcase : compare a.record b.record with
      | lt => simp [DirectoryKey.sortKey, hcase] at hlt
      | eq => rfl
      | gt => exact absurd hcase hrecord
    obtain ⟨hobject, htype⟩ := RecordKey.compare_eq_iff.mp heq
    have hother : ¬ a.IsEntry := by
      intro hentry
      have hbefore := hname hentry (htype.symm.trans hentry) hobject ha hb
      rw [SortKey.order_eq] at hlt
      simp only [DirectoryKey.sortKey, heq, Ordering.eq_then] at hlt
      exact hlt hbefore
    have hne : compare a.record (.ofParts parent .directoryRecord) ≠ .eq := by
      intro h
      exact hother ((RecordKey.compare_eq_iff.mp h).2.trans (RecordKey.type_ofParts _))
    have hsame : compare b.record (.ofParts parent .directoryRecord)
        = compare a.record (.ofParts parent .directoryRecord) :=
      (Std.TransCmp.congr_left heq).symm
    simp only [SortKey.order_eq, DirectoryKey.sortKey, DirectoryKey.target, hsame]
    cases hcase : compare a.record (.ofParts parent .directoryRecord) with
    | lt => exact .inl rfl
    | eq => exact absurd hcase hne
    | gt => exact .inr rfl

/-- **Comparisons with a query** are monotone along sorted keys. -/
theorem monotone_of_keysSorted {entries : List Entry} {records : List (DirectoryKey × ByteArray)}
    (hrecords : List.Forall₂ (Stores format) entries records)
    (hsorted : KeysSorted sensitivity (records.map Prod.fst)) (hname : name.Spells wanted)
    (parent : UInt64) :
    (lookupOrder format sensitivity parent name wanted).Monotone entries := by
  have hspells : ∀ record ∈ records, ∃ chars, record.1.Spells chars := by
    intro record hmem
    obtain ⟨e, -, hstores⟩ := exists_mem_of_forall₂ hrecords.flip hmem
    exact hsorted.exists_spells (List.mem_map_of_mem hmem) hstores.1
  constructor
  · intro e he
    obtain ⟨record, hmem, hstores⟩ := exists_mem_of_forall₂ hrecords he
    obtain ⟨chars, hchars⟩ := hspells record hmem
    exact ⟨_, lookupOrder_eq hname hstores.1 hchars⟩
  · have hpair : records.Pairwise fun a b =>
        ∃ chars chars', a.1.Spells chars ∧ b.1.Spells chars' ∧
          (SortKey.order (a.1.sortKey sensitivity chars)
              (DirectoryKey.target format sensitivity parent wanted) = .lt ∨
            SortKey.order (b.1.sortKey sensitivity chars')
              (DirectoryKey.target format sensitivity parent wanted) = .gt) := by
      have hboth := hsorted.record_le.and hsorted.name_lt
      rw [List.pairwise_map] at hboth
      refine hboth.imp_of_mem ?_
      rintro a b ha hb ⟨hrecord, hbefore⟩
      obtain ⟨chars, hchars⟩ := hspells a ha
      obtain ⟨chars', hchars'⟩ := hspells b hb
      exact ⟨chars, chars', hchars, hchars', lt_or_gt_of_sorted hrecord hbefore hchars hchars'⟩
    -- Entries of the tree are in the same order as the records that they store.
    refine pairwise_of_forall₂ hrecords hpair ?_
    rintro e e' a b ha hb ⟨chars, chars', hchars, hchars', h⟩
    unfold Apart
    rw [lookupOrder_eq hname ha.1 hchars, lookupOrder_eq hname hb.1 hchars', Except.ok.injEq,
      Except.ok.injEq]
    exact h

end Comparisons

/-! ### Lookups -/

section Lookups

variable {t : Tree} {reader : BlockReader σ} {lookup : ObjectLookup σ} {parent : UInt64}
  {name : EncodedName} {wanted : List Char} {s : σ}

/-- A lookup is a search with the query for the name. -/
theorem lookupEntry_of_spells (hname : name.Spells wanted) :
    outcome (t.lookupEntry reader lookup format sensitivity parent name) s
      = outcome (do
          match ← t.search reader lookup (lookupOrder format sensitivity parent name wanted)
            .exact with
          | none => return none
          | some e => return some (← lift (DirectoryKey.ofBytes format e.key), e.value)) s := by
  unfold Tree.lookupEntry
  rw [outcome_bind, outcome_lift, after_lift, ofName_of_spells hname]
  rfl

/-- A lookup gives nothing where its search finds nothing. -/
theorem outcome_lookupEntry_of_none (hname : name.Spells wanted)
    (h : outcome (t.search reader lookup (lookupOrder format sensitivity parent name wanted)
      .exact) s = .ok none) :
    outcome (t.lookupEntry reader lookup format sensitivity parent name) s = .ok none := by
  rw [lookupEntry_of_spells hname, outcome_bind, h]
  rfl

/-- A lookup gives the record that is stored where its search ends. -/
theorem outcome_lookupEntry_of_some (hname : name.Spells wanted) {e : Entry}
    {record : DirectoryKey × ByteArray} (hstores : Stores format e record)
    (h : outcome (t.search reader lookup (lookupOrder format sensitivity parent name wanted)
      .exact) s = .ok (some e)) :
    outcome (t.lookupEntry reader lookup format sensitivity parent name) s
      = .ok (some record) := by
  rw [lookupEntry_of_spells hname, outcome_bind, h]
  dsimp only
  rw [outcome_bind, outcome_lift, hstores.1, hstores.2]
  rfl

end Lookups

/-- **Looking up an entry.**  If a walk visits the records of a well-indexed tree in their order,
    then a lookup of a valid name gives the record that answers, if there is one, and otherwise
    nothing. -/
theorem lookupEntry_eq {S : Storage σ} {t : Tree} {entries : List Entry}
    {records : List (DirectoryKey × ByteArray)} {s s' : σ} (hs : S.Valid s)
    (hwalk : S.entries t s = .ok entries s')
    (hindexed : S.WellIndexed t (DirectoryKey.ofBytes format))
    (hrecords : List.Forall₂ (Stores format) entries records)
    (hsorted : KeysSorted sensitivity (records.map Prod.fst)) (parent : UInt64)
    {name : EncodedName} {wanted : List Char} (hname : name.Spells wanted) {r : σ}
    (hr : S.Valid r) :
    (∀ record ∈ records, record.1.Answers sensitivity parent wanted →
      outcome (t.lookupEntry S.reader S.lookup format sensitivity parent name) r
        = .ok (some record)) ∧
    ((∀ record ∈ records, ¬ record.1.Answers sensitivity parent wanted) →
      outcome (t.lookupEntry S.reader S.lookup format sensitivity parent name) r = .ok none) := by
  have hmono := monotone_of_keysSorted hrecords hsorted hname parent
  have hsearch : outcome (t.search S.reader S.lookup
      (lookupOrder format sensitivity parent name wanted) .exact) r
        = .ok (SearchMode.exact.scan (lookupOrder format sensitivity parent name wanted)
            entries) := by
    refine (outcome_searchFrom hindexed (fun a b hab => ?_) hr .root
      (spans_of_entriesFrom hs hwalk) hmono).1
    rw [lookupOrder, EntryQuery.order, EntryQuery.order, hab]
  -- An entry compares equal exactly if its record answers.
  have hanswers {e : Entry} {record : DirectoryKey × ByteArray} (hmem : record ∈ records)
      (hstores : Stores format e record) :
      lookupOrder format sensitivity parent name wanted e.key = .ok .eq ↔
        record.1.Answers sensitivity parent wanted := by
    obtain ⟨chars, hspells⟩ := hsorted.exists_spells (List.mem_map_of_mem hmem) hstores.1
    rw [lookupOrder_eq hname hstores.1 hspells, Except.ok.injEq]
    exact order_eq_eq_iff_answers hsorted (List.mem_map_of_mem hmem) hstores.1 hspells
  constructor
  · intro record hmem hanswer
    obtain ⟨e, he, hstores⟩ := exists_mem_of_forall₂ hrecords.flip hmem
    rw [scan_exact_eq_some hmono he ((hanswers hmem hstores).mpr hanswer)] at hsearch
    exact outcome_lookupEntry_of_some hname hstores hsearch
  · intro hnone
    have hscan : SearchMode.exact.scan (lookupOrder format sensitivity parent name wanted) entries
        = none := by
      apply scan_exact_eq_none
      intro e he heq
      obtain ⟨record, hmem, hstores⟩ := exists_mem_of_forall₂ hrecords he
      exact hnone record hmem ((hanswers hmem hstores).mp heq)
    rw [hscan] at hsearch
    exact outcome_lookupEntry_of_none hname hsearch

/-! A directory that ignores case, with its inode and an entry called `A`, each in a leaf of its own.
The entry is looked up as `a`. -/

/-- The key of an inode of object 2, and its bytes. -/
def inodeKey : DirectoryKey × ByteArray :=
  ({ record := .ofParts 2 ⟨3⟩, hash := none, nameBytes := .empty },
    ⟨#[2, 0, 0, 0, 0, 0, 0, 48]⟩)

/-- The key of an entry called `A` of directory 2, with the hash of `a`, and its bytes. -/
def entryKey : DirectoryKey × ByteArray :=
  ({ record := .ofParts 2 .directoryRecord, hash := some 2206227, nameBytes := ⟨#[65, 0]⟩ },
    ⟨#[2, 0, 0, 0, 0, 0, 0, 144, 2, 76, 168, 134, 65, 0]⟩)

/-- Leaves with these keys, the second of which has a value. -/
def inodeAndEntry : List (List Entry) := [[⟨inodeKey.2, .empty⟩], [⟨entryKey.2, ⟨#[7]⟩⟩]]

theorem ofBytes_inodeKey : DirectoryKey.ofBytes .hashed inodeKey.2 = .ok inodeKey.1 := by
  have hrecord : (decode inodeKey.2 : Except Error RecordKey) = .ok (.ofParts 2 ⟨3⟩) := by
    decide +kernel
  rw [DirectoryKey.ofBytes, hrecord]
  rfl

theorem ofBytes_entryKey : DirectoryKey.ofBytes .hashed entryKey.2 = .ok entryKey.1 := by
  have hrecord : (decode entryKey.2 : Except Error RecordKey)
      = .ok (.ofParts 2 .directoryRecord) := by
    decide +kernel
  have hheader : (decode entryKey.2 : Except Error HashedEntryHeader)
      = .ok ⟨.ofParts 2 .directoryRecord, .ofParts 2206227 2⟩ := by
    decide +kernel
  have htype : ¬ (RecordKey.ofParts 2 .directoryRecord).type ≠ .directoryRecord := by decide
  have hhash : (LengthAndHash.ofParts 2206227 2).hash = 2206227 := by decide
  have hlength : (LengthAndHash.ofParts 2206227 2).length.toNat = 2 := by decide
  simp only [DirectoryKey.ofBytes, hrecord, bind, Except.bind, if_neg htype, hheader, hhash,
    hlength]
  rfl

theorem spells_entryKey : entryKey.1.Spells ['A'] := by
  have h : EncodedName.Spells (.utf8 (['A'].utf8Encode ++ ⟨#[0]⟩)) ['A'] := .utf8 (by decide) rfl
  have hbytes : ['A'].utf8Encode ++ ⟨#[0]⟩ = entryKey.1.nameBytes := by rfl
  rwa [hbytes] at h

/-- Upper and lower case make no difference, and of the directory only 60 bits count. -/
theorem lookupEntry_inodeAndEntry :
    ∃ d t, writtenTree ⟨14⟩ 256 inodeAndEntry = .ok (d, t) ∧
      outcome (t.lookupEntry d.reader .empty .hashed .insensitive 0x1000000000000002
        (.utf16 [97])) () = .ok (some (entryKey.1, ⟨#[7]⟩)) := by
  have hfits : ∀ c ∈ treeContents ⟨14⟩ 0 inodeAndEntry, c.requiredSize ≤ 256 := by
    decide +kernel
  obtain ⟨d, t, hwritten, hleaves, -⟩ :=
    exists_writtenTree hfits (by decide) (by decide) (by decide)
  obtain ⟨_, -, hwalk⟩ := hleaves.entries_eq (s := ()) trivial
  have hindexed := hleaves.wellIndexed
    (forall₂_indexEntries (DirectoryKey.ofBytes .hashed) (by decide))
  have hstores : List.Forall₂ (Stores .hashed) inodeAndEntry.flatten
      [(inodeKey.1, .empty), (entryKey.1, ⟨#[7]⟩)] :=
    .cons ⟨ofBytes_inodeKey, rfl⟩ (.cons ⟨ofBytes_entryKey, rfl⟩ .nil)
  have hfold : ['A'].map CaseSensitivity.insensitive.fold = ['a'] := by decide +kernel
  have hinode : ¬ inodeKey.1.IsEntry := by unfold DirectoryKey.IsEntry; decide
  have hentry : entryKey.1.IsEntry := by unfold DirectoryKey.IsEntry; decide
  have hsorted : KeysSorted .insensitive [inodeKey.1, entryKey.1] := by
    refine ⟨?_, ?_, ?_, ?_⟩
    · rintro k hk hentry
      rcases List.mem_pair.mp hk with rfl | rfl
      · exact absurd hentry hinode
      · exact ⟨_, spells_entryKey⟩
    · rintro k hk - h hh
      rcases List.mem_pair.mp hk with rfl | rfl
      · cases hh
      · have hhash : foldedHash ['a'] = 2206227 := by decide +kernel
        rw [hash_of_spells spells_entryKey, hfold, hhash]
        exact congrArg _ (Option.some.inj hh)
    · exact List.pairwise_pair.mpr (by decide)
    · exact List.pairwise_pair.mpr fun h => absurd h hinode
  have hquery : (EncodedName.utf16 [97]).Spells ['a'] :=
    @EncodedName.Spells.utf16 ['a'] [] (by decide) (by simp)
  refine ⟨d, t, hwritten, (lookupEntry_eq trivial hwalk hindexed hstores hsorted
    0x1000000000000002 hquery trivial).1 (entryKey.1, ⟨#[7]⟩) ?_
    ⟨hentry, ?_, ['A'], spells_entryKey, ?_⟩⟩
  · exact .tail _ (.head _)
  · decide
  · rw [hfold]
    decide +kernel

end Apfs
