import Apfs.Directory.Lookup
import Apfs.Proofs.Name.Order

namespace Apfs

/-!
# The order of directory keys

The keys of a file system tree are sorted by the word in front, which holds an object and the type
of a record.  The entries of one directory share that word; they are sorted by the hashes of their
names, if keys hold them, and then by their folded names.

* `object_ofParts`, `type_ofParts` — the parts of the word that entries of a directory share.
* `SortKey`, `SortKey.order` — all that keys are sorted by, as one order.
* `ofBytes_cases` — what a key holds, by the type of its record.
* `compareWith_eq` — a key compares with a query as their sort keys do.
-/

/-! ### The word in front -/

namespace RecordKey

instance : Std.TransOrd RecordKey :=
  inferInstanceAs (Std.TransCmp (compareLex (compareOn object) (compareOn fun k => k.type.code)))

/-- Two words compare equal if they hold the same object and the same type. -/
theorem compare_eq_iff {a b : RecordKey} :
    compare a b = .eq ↔ a.object = b.object ∧ a.type = b.type := by
  show (compare a.object b.object).then (compare a.type.code b.type.code) = .eq ↔ _
  rw [Ordering.then_eq_eq, Std.compare_eq_iff_eq, Std.compare_eq_iff_eq]
  constructor
  · rintro ⟨hobject, hcode⟩
    exact ⟨hobject, congrArg RecordType.mk hcode⟩
  · rintro ⟨hobject, htype⟩
    exact ⟨hobject, congrArg RecordType.code htype⟩

/-- Of the object, a word holds the bits below the type. -/
theorem object_ofParts (object : UInt64) :
    (ofParts object .directoryRecord).object = object &&& objectMask := by
  have htype : (RecordType.directoryRecord.code.toUInt64 <<< typeShift) &&& objectMask = 0 := by
    decide
  have hor (a b m : UInt64) : (a ||| b) &&& m = a &&& m ||| b &&& m :=
    UInt64.toBitVec_inj.mp BitVec.and_or_distrib_right
  rw [ofParts, RecordKey.object, hor, htype, UInt64.or_zero, UInt64.and_assoc, UInt64.and_self]

/-- The object does not reach into the bits of the type. -/
theorem type_ofParts (object : UInt64) :
    (ofParts object .directoryRecord).type = .directoryRecord := by
  have hmask : objectMask >>> typeShift = 0 := by decide
  have htype : (RecordType.directoryRecord.code.toUInt64 <<< typeShift) >>> typeShift = 9 := by
    decide
  rw [ofParts, type, UInt64.shiftRight_or, UInt64.shiftRight_and, hmask, htype, UInt64.and_zero,
    UInt64.zero_or]
  rfl

/-- Masking an object leaves its remainder modulo `2 ^ 60`. -/
theorem toNat_and_objectMask (object : UInt64) :
    (object &&& objectMask).toNat = object.toNat % 2 ^ 60 := by
  rw [UInt64.toNat_and]
  exact Nat.and_two_pow_sub_one_eq_mod _ 60

end RecordKey

/-! ### Sort keys -/

/-- What a key is sorted by: the word in front, and the hash and the folded name of a directory
    entry. -/
abbrev SortKey := RecordKey × Option UInt32 × List Char

namespace SortKey

/-- Sort keys are ordered by the word, then by the hash, and then by the name. -/
def order : SortKey → SortKey → Ordering :=
  compareLex (compareOn fun k => k.1)
    (compareLex (compareOn fun k => k.2.1) (compareOn fun k => k.2.2))

instance : Std.TransCmp order :=
  inferInstanceAs (Std.TransCmp (compareLex (compareOn fun k : SortKey => k.1)
    (compareLex (compareOn fun k => k.2.1) (compareOn fun k => k.2.2))))

theorem order_eq (a b : SortKey) :
    order a b = (compare a.1 b.1).then ((compare a.2.1 b.2.1).then (compare a.2.2 b.2.2)) := rfl

/-- Sort keys compare equal if nothing tells them apart. -/
theorem order_eq_eq_iff {a b : SortKey} :
    order a b = .eq ↔
      (a.1.object = b.1.object ∧ a.1.type = b.1.type) ∧ a.2.1 = b.2.1 ∧ a.2.2 = b.2.2 := by
  rw [order_eq, Ordering.then_eq_eq, Ordering.then_eq_eq, RecordKey.compare_eq_iff,
    Std.compare_eq_iff_eq, Std.compare_eq_iff_eq]

end SortKey

/-- The hash that the key of an entry holds, given its folded name. -/
def EntryFormat.hash : EntryFormat → List Char → Option UInt32
  | plain, _ => none
  | hashed, folded => some (foldedHash folded)

namespace DirectoryKey

/-- The key is that of a directory entry. -/
def IsEntry (k : DirectoryKey) : Prop := k.record.type = .directoryRecord

/-- The name of the key is a valid encoding of characters. -/
def Spells (k : DirectoryKey) (chars : List Char) : Prop :=
  (EncodedName.utf8 k.nameBytes).Spells chars

/-- An empty name has no characters. -/
theorem spells_of_empty {k : DirectoryKey} (h : k.nameBytes = .empty) : k.Spells [] := by
  have hname : EncodedName.Spells (.utf8 ([].utf8Encode ++ .empty)) [] := .utf8 (by simp) rfl
  rw [Spells, h]
  simpa using hname

/-- Either a key is that of a directory entry, and holds a hash if the format says so, or it holds
    neither a hash nor a name. -/
theorem ofBytes_cases {format : EntryFormat} {bytes : ByteArray} {k : DirectoryKey}
    (h : ofBytes format bytes = .ok k) :
    k.IsEntry ∧ (k.hash.isSome ↔ format = .hashed) ∨
      ¬ k.IsEntry ∧ k.hash = none ∧ k.nameBytes = .empty := by
  have hname {record : RecordKey} {hash : Option UInt32} {start length : Nat}
      (h : withName bytes record hash start length = .ok k) :
      k.record = record ∧ k.hash = hash := by
    unfold withName at h
    split at h
    · cases h
      exact ⟨rfl, rfl⟩
    · cases h
  unfold ofBytes at h
  cases hrecord : (decode bytes : Except Error RecordKey) with
  | error e => simp [hrecord, bind, Except.bind] at h
  | ok record =>
    simp only [hrecord, bind, Except.bind, pure, Except.pure] at h
    by_cases htype : record.type = .directoryRecord
    · rw [if_neg (not_not.mpr htype)] at h
      left
      cases format with
      | plain =>
        cases hheader : (decode bytes : Except Error PlainEntryHeader) with
        | error e => simp [hheader] at h
        | ok header =>
          simp only [hheader] at h
          obtain ⟨rfl, hhash⟩ := hname h
          exact ⟨htype, by simp [hhash]⟩
      | hashed =>
        cases hheader : (decode bytes : Except Error HashedEntryHeader) with
        | error e => simp [hheader] at h
        | ok header =>
          simp only [hheader] at h
          obtain ⟨rfl, hhash⟩ := hname h
          exact ⟨htype, by simp [hhash]⟩
    · rw [if_pos htype] at h
      cases h
      exact .inr ⟨htype, rfl, rfl⟩

/-- **Comparing with a query** compares sort keys.  A key of another record never compares equal,
    so that it does not matter what hash and name it has. -/
theorem compareWith_eq {k : DirectoryKey} {query : EntryQuery} {chars wanted : List Char}
    (hk : k.Spells chars) (hquery : query.name.Spells wanted)
    (hhash : k.IsEntry → k.hash.isSome = query.hash.isSome) :
    k.compareWith query = .ok (SortKey.order
      (k.record, k.hash, chars.map query.sensitivity.fold)
      (.ofParts query.parent .directoryRecord, query.hash, wanted.map query.sensitivity.fold)) := by
  rw [SortKey.order_eq]
  unfold compareWith
  rw [compareNames_of_spells hk hquery]
  dsimp only
  cases hrecord : compare k.record (.ofParts query.parent .directoryRecord) with
  | lt => rfl
  | gt => rfl
  | eq =>
    have hentry : k.IsEntry := (RecordKey.compare_eq_iff.mp hrecord).2.trans
      (RecordKey.type_ofParts _)
    have hsome := hhash hentry
    cases hstored : k.hash with
    | none =>
      cases hwanted : query.hash with
      | none => rfl
      | some b => simp [hstored, hwanted] at hsome
    | some a =>
      cases hwanted : query.hash with
      | none => simp [hstored, hwanted] at hsome
      | some b =>
        have hpresent : compare (some a) (some b) = compare a b := rfl
        simp only [Ordering.eq_then, hpresent]
        cases compare a b <;> rfl

end DirectoryKey

/-- The query for a name that spells characters. -/
theorem ofName_of_spells {name : EncodedName} {chars : List Char} (h : name.Spells chars)
    (format : EntryFormat) (sensitivity : CaseSensitivity) (parent : UInt64) :
    EntryQuery.ofName format sensitivity parent name = .ok
      { parent, hash := format.hash (chars.map sensitivity.fold), name, sensitivity } := by
  cases format with
  | plain => rfl
  | hashed =>
    rw [EntryQuery.ofName, hash_of_spells h]
    rfl

end Apfs
