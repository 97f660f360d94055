import Apfs.Proofs.Directory.KeyOrder
import Apfs.Proofs.Layout.Structures

namespace Apfs

/-!
# Keys of directory entries as they are written

In the key of an entry, the directory shares a word with the type of the record, and the length of
the name may share one with its hash.  None of these reaches into its neighbour, and the length
tells where the name ends, whatever follows it.

* `RecordKey.type_eq_iff`, `LengthAndHash.length_ofParts`, `LengthAndHash.hash_ofParts` — the parts
  of packed words.
* `EntryFormat.HasRoom`, `DirectoryKey.bytes` — the hashes and names for which keys have room, and
  the key of an entry as it is written.
* `EntryFormat.start`, `EntryFormat.declaredLength` — where a name starts and how long it is, as
  numbers in the bytes of a key.
* `ofBytes_eq_ok_iff` — the keys that are taken apart, and what they hold.
* `ofBytes_bytes_and_ofBytes_iff` — keys that were written are read back, malformed ones are
  refused, and those of other records are never equal to an entry.
-/

open Bytes

/-! ### Packed words -/

namespace RecordKey

/-- The type stands in the four bits above the object. -/
theorem type_eq_iff {k : RecordKey} : k.type = .directoryRecord ↔ k.packed.toNat / 2 ^ 60 = 9 := by
  have hlt := k.packed.toNat_lt
  have htype : k.type.code.toNat = k.packed.toNat / 2 ^ 60 := by
    show ((k.packed >>> typeShift).toUInt8).toNat = _
    rw [UInt64.toNat_toUInt8, UInt64.toNat_shiftRight, Nat.shiftRight_eq_div_pow]
    exact Nat.mod_eq_of_lt (by show k.packed.toNat / 2 ^ 60 < 256; omega)
  rw [← htype]
  constructor
  · intro h
    rw [h]
    rfl
  · intro h
    exact congrArg RecordType.mk (UInt8.toNat_inj.mp h)

/-- An object that leaves the bits of the type free is held whole. -/
theorem object_ofParts_of_lt {object : UInt64} (h : object.toNat < 2 ^ 60) :
    (ofParts object .directoryRecord).object = object := by
  apply UInt64.toNat_inj.mp
  rw [object_ofParts, toNat_and_objectMask, Nat.mod_eq_of_lt h]

end RecordKey

namespace LengthAndHash

/-- The length is the remainder modulo `2 ^ 10`. -/
theorem toNat_length (w : LengthAndHash) : w.length.toNat = w.packed.toNat % 2 ^ 10 := by
  rw [length, UInt32.toNat_and]
  exact Nat.and_two_pow_sub_one_eq_mod _ 10

/-- The hash is what is left when the length is divided off. -/
theorem hash_eq (w : LengthAndHash) : w.hash = .ofNat (w.packed.toNat / 2 ^ 10) := by
  apply UInt32.toNat_inj.mp
  have hlt := w.packed.toNat_lt
  have hdiv : w.packed.toNat / 2 ^ 10 < 2 ^ 32 := by omega
  rw [hash, UInt32.toNat_shiftRight, UInt32.toNat_ofNat_of_lt' hdiv, Nat.shiftRight_eq_div_pow]
  rfl

/-- The hash does not reach into the length. -/
theorem length_ofParts {hash length : UInt32} (h : length.toNat < 2 ^ 10) :
    (ofParts hash length).length = length := by
  have hshift : hash <<< hashShift &&& lengthMask = 0 := by
    apply UInt32.toNat_inj.mp
    rw [UInt32.toNat_and, UInt32.toNat_shiftLeft]
    show (hash.toNat <<< 10 % 2 ^ 32) &&& (2 ^ 10 - 1) = 0
    rw [Nat.and_two_pow_sub_one_eq_mod, Nat.shiftLeft_eq]
    omega
  have hor (a b m : UInt32) : (a ||| b) &&& m = a &&& m ||| b &&& m :=
    UInt32.toBitVec_inj.mp BitVec.and_or_distrib_right
  have hmask : length &&& lengthMask = length := by
    apply UInt32.toNat_inj.mp
    rw [UInt32.toNat_and]
    exact (Nat.and_two_pow_sub_one_eq_mod _ 10).trans (Nat.mod_eq_of_lt h)
  rw [ofParts, LengthAndHash.length, hor, hshift, UInt32.zero_or, hmask, hmask]

/-- The length does not reach into the hash. -/
theorem hash_ofParts {hash length : UInt32} (h : hash.toNat < 2 ^ 22) :
    (ofParts hash length).hash = hash := by
  have hmask : lengthMask >>> hashShift = 0 := by decide
  have hshift : hash <<< hashShift >>> hashShift = hash := by
    apply UInt32.toNat_inj.mp
    rw [UInt32.toNat_shiftRight, UInt32.toNat_shiftLeft]
    show (hash.toNat <<< 10 % 2 ^ 32) >>> 10 = hash.toNat
    rw [Nat.shiftLeft_eq, Nat.shiftRight_eq_div_pow]
    omega
  rw [ofParts, LengthAndHash.hash, UInt32.shiftRight_or, UInt32.shiftRight_and, hmask, hshift,
    UInt32.and_zero, UInt32.or_zero]

end LengthAndHash

/-! ### Writing -/

/-- Keys of the format have room for the hash, and for the length of the name. -/
inductive EntryFormat.HasRoom : EntryFormat → Option UInt32 → (name : ByteArray) → Prop where
  | plain {name : ByteArray} : name.size < 2 ^ 16 → HasRoom .plain none name
  | hashed {hash : UInt32} {name : ByteArray} :
      hash.toNat < 2 ^ 22 → name.size < 2 ^ 10 → HasRoom .hashed (some hash) name

/-- The bytes of a key of a directory entry. -/
def DirectoryKey.bytes (k : DirectoryKey) : ByteArray :=
  match k.hash with
  | none => encoded (PlainEntryHeader.mk k.record (.ofNat k.nameBytes.size)) ++ k.nameBytes
  | some hash =>
    encoded (HashedEntryHeader.mk k.record (.ofParts hash (.ofNat k.nameBytes.size))) ++ k.nameBytes

namespace DirectoryKey

section

variable {α : Type} [Layout α] [Lossless α]

/-- What precedes the name in a key is read back, and the name is found behind it. -/
theorem decode_and_withName {header : α} {rest : ByteArray} {record : RecordKey}
    (hparts : encoded header = encoded record ++ rest) (hash : Option UInt32)
    (name extra : ByteArray) :
    decode (encoded header ++ name ++ extra) = .ok record ∧
      decode (encoded header ++ name ++ extra) = .ok header ∧
      withName (encoded header ++ name ++ extra) record hash (Layout.size α) name.size
        = .ok ⟨record, hash, name⟩ := by
  have hfront := standsAt_zero (encoded header ++ name) extra
  obtain ⟨hheader, hname⟩ := standsAt_append.mp hfront
  refine ⟨decode_of_standsAt ?_, decode_of_standsAt hheader, ?_⟩
  · rw [hparts] at hheader ⊢
    exact (standsAt_append.mp hheader).1
  · rw [size_encoded, Nat.zero_add] at hname
    rw [withName, hname]

end

/-- **A key is read back** as it was written, whatever follows it. -/
theorem ofBytes_bytes {format : EntryFormat} {parent : UInt64} {hash : Option UInt32}
    {name : ByteArray} (hroom : format.HasRoom hash name) (extra : ByteArray) :
    let key : DirectoryKey := ⟨.ofParts parent .directoryRecord, hash, name⟩
    ofBytes format (key.bytes ++ extra) = .ok key := by
  intro key
  have htype : ¬ key.record.type ≠ .directoryRecord :=
    not_not.mpr (RecordKey.type_ofParts parent)
  cases hroom with
  | plain hsize =>
    let header : PlainEntryHeader := ⟨key.record, .ofNat name.size⟩
    have hlength : header.nameLength.toNat = name.size := UInt16.toNat_ofNat_of_lt hsize
    have hparts : encoded header = encoded key.record ++ encoded header.nameLength := rfl
    obtain ⟨hrecord, hheader, hname⟩ := decode_and_withName hparts none name extra
    show ofBytes .plain (encoded header ++ name ++ extra) = _
    simp only [ofBytes, hrecord, hheader, hlength, hname, bind, Except.bind, if_neg htype]
    rfl
  | @hashed hash _ hhash hsize =>
    let header : HashedEntryHeader := ⟨key.record, .ofParts hash (.ofNat name.size)⟩
    have hofNat : (UInt32.ofNat name.size).toNat = name.size :=
      UInt32.toNat_ofNat_of_lt (Nat.lt_trans hsize (by decide))
    have hlength : header.name.length.toNat = name.size := by
      rw [LengthAndHash.length_ofParts (by rw [hofNat]; exact hsize), hofNat]
    have hstored : header.name.hash = hash := LengthAndHash.hash_ofParts hhash
    have hparts : encoded header = encoded key.record ++ encoded header.name := rfl
    obtain ⟨hrecord, hheader, hname⟩ := decode_and_withName hparts (some hash) name extra
    show ofBytes .hashed (encoded header ++ name ++ extra) = _
    simp only [ofBytes, hrecord, hheader, hlength, hstored, hname, bind, Except.bind,
      if_neg htype]
    rfl

end DirectoryKey

/-! ### Reading -/

namespace EntryFormat

/-- Where the name starts in a key of an entry. -/
def start : EntryFormat → Nat
  | plain => 10
  | hashed => 12

/-- The number of bytes that the key of an entry gives for its name. -/
def declaredLength : EntryFormat → (key : ByteArray) → Nat
  | plain, key => number key 8 10
  | hashed, key => number key 8 12 % 2 ^ 10

/-- The hash that the key of an entry gives for its name. -/
def declaredHash : EntryFormat → (key : ByteArray) → Option UInt32
  | plain, _ => none
  | hashed, key => some (.ofNat (number key 8 12 / 2 ^ 10))

end EntryFormat

/-- The word of a key is the number in its first eight bytes. -/
theorem decode_recordKey (data : ByteArray) :
    decode data = if data.size < 8 then .error (.inputTooSmall 8 data.size)
      else .ok (RecordKey.mk (.ofNat (number data 0 8))) := rfl

/-- The fields of a header are the numbers in its bytes. -/
theorem decode_plainEntryHeader (data : ByteArray) :
    decode data = if data.size < 10 then .error (.inputTooSmall 10 data.size)
      else .ok (PlainEntryHeader.mk ⟨.ofNat (number data 0 8)⟩ (.ofNat (number data 8 10))) := by
  rw [number_eq_take (show 8 ≤ 10 by decide), number_eq_drop]
  rfl

@[inherit_doc decode_plainEntryHeader]
theorem decode_hashedEntryHeader (data : ByteArray) :
    decode data = if data.size < 12 then .error (.inputTooSmall 12 data.size)
      else .ok (HashedEntryHeader.mk ⟨.ofNat (number data 0 8)⟩ ⟨.ofNat (number data 8 12)⟩) := by
  rw [number_eq_take (show 8 ≤ 12 by decide), number_eq_drop]
  rfl

namespace DirectoryKey

/-- A name is cut out of a key that is long enough for it. -/
theorem withName_eq_ok_iff {key : ByteArray} {record : RecordKey} {hash : Option UInt32}
    {start length : Nat} {k : DirectoryKey} :
    withName key record hash start length = .ok k ↔
      start + length ≤ key.size ∧ ⟨record, hash, key.extract start (start + length)⟩ = k := by
  unfold withName slice?
  by_cases hfits : start + length ≤ key.size <;> simp [hfits]

/-- Taking a key apart, with both formats as one. -/
theorem ofBytes_eq (format : EntryFormat) (key : ByteArray) :
    ofBytes format key =
      if key.size < 8 then .error (.inputTooSmall 8 key.size)
      else
        let record : RecordKey := ⟨.ofNat (number key 0 8)⟩
        if record.type ≠ .directoryRecord then .ok ⟨record, none, .empty⟩
        else if key.size < format.start then .error (.inputTooSmall format.start key.size)
        else
          withName key record (format.declaredHash key) format.start
            (format.declaredLength key) := by
  unfold ofBytes
  rw [decode_recordKey]
  by_cases hshort : key.size < 8
  · rw [if_pos hshort, if_pos hshort]
    rfl
  rw [if_neg hshort, if_neg hshort]
  dsimp only [bind, Except.bind]
  split
  · rfl
  cases format with
  | plain =>
    have hlength : (UInt16.ofNat (number key 8 10)).toNat = number key 8 10 :=
      UInt16.toNat_ofNat_of_lt (number_lt key 8 10)
    show _ = if key.size < 10 then _ else _
    by_cases hstart : key.size < 10
    · rw [decode_plainEntryHeader, if_pos hstart, if_pos hstart]
      rfl
    · rw [decode_plainEntryHeader, if_neg hstart, if_neg hstart]
      dsimp only
      rw [hlength]
      rfl
  | hashed =>
    have hpacked : (UInt32.ofNat (number key 8 12)).toNat = number key 8 12 :=
      UInt32.toNat_ofNat_of_lt (number_lt key 8 12)
    show _ = if key.size < 12 then _ else _
    by_cases hstart : key.size < 12
    · rw [decode_hashedEntryHeader, if_pos hstart, if_pos hstart]
      rfl
    · rw [decode_hashedEntryHeader, if_neg hstart, if_neg hstart]
      dsimp only
      rw [LengthAndHash.toNat_length, LengthAndHash.hash_eq, hpacked]
      rfl

/-- **The keys that are taken apart** are long enough for the word in front and, if that is of a
    directory entry, for the name of the length they give.  Keys of other records have no name. -/
theorem ofBytes_eq_ok_iff {format : EntryFormat} {key : ByteArray} {k : DirectoryKey} :
    ofBytes format key = .ok k ↔
      8 ≤ key.size ∧ k.record.packed.toNat = number key 0 8 ∧
        if number key 0 8 / 2 ^ 60 = 9 then
          format.start + format.declaredLength key ≤ key.size ∧
            k.hash = format.declaredHash key ∧
            k.nameBytes = key.extract format.start (format.start + format.declaredLength key)
        else k.hash = none ∧ k.nameBytes = .empty := by
  obtain ⟨record, hash, nameBytes⟩ := k
  have hpacked : (UInt64.ofNat (number key 0 8)).toNat = number key 0 8 :=
    UInt64.toNat_ofNat_of_lt (number_lt key 0 8)
  have hrecord : RecordKey.mk (.ofNat (number key 0 8)) = record ↔
      record.packed.toNat = number key 0 8 := by
    constructor
    · rintro rfl
      exact hpacked
    · intro h
      rw [← h, UInt64.ofNat_toNat]
  rw [ofBytes_eq]
  by_cases hshort : key.size < 8
  · simp [hshort, Nat.not_le.mpr hshort]
  rw [if_neg hshort, and_iff_right (Nat.le_of_not_lt hshort), ← hrecord]
  dsimp only
  have htype := @RecordKey.type_eq_iff ⟨.ofNat (number key 0 8)⟩
  rw [hpacked] at htype
  by_cases hentry : number key 0 8 / 2 ^ 60 = 9
  · rw [if_neg (not_not.mpr (htype.mpr hentry)), if_pos hentry]
    by_cases hstart : key.size < format.start
    · rw [if_pos hstart]
      have hfits : ¬ format.start + format.declaredLength key ≤ key.size := by omega
      simp [hfits]
    · rw [if_neg hstart, withName_eq_ok_iff, mk.injEq]
      constructor
      · rintro ⟨hfits, rfl, rfl, rfl⟩
        exact ⟨rfl, hfits, rfl, rfl⟩
      · rintro ⟨rfl, hfits, rfl, rfl⟩
        exact ⟨hfits, rfl, rfl, rfl⟩
  · rw [if_pos (hentry ∘ htype.mp), if_neg hentry, Except.ok.injEq, mk.injEq, eq_comm (a := none),
      eq_comm (a := ByteArray.empty)]

/-- The key of another record is less or greater than every entry. -/
theorem compareWith_of_not_isEntry {k : DirectoryKey} (h : ¬ k.IsEntry) (query : EntryQuery) :
    ∃ ordering, ordering ≠ .eq ∧ k.compareWith query = .ok ordering := by
  have hne : compare k.record (.ofParts query.parent .directoryRecord) ≠ .eq := by
    intro heq
    exact h ((RecordKey.compare_eq_iff.mp heq).2.trans (RecordKey.type_ofParts _))
  refine ⟨_, hne, ?_⟩
  unfold compareWith
  cases hrecord : compare k.record (.ofParts query.parent .directoryRecord) with
  | lt => simp only [hrecord, Ordering.then]
  | gt => simp only [hrecord, Ordering.then]
  | eq => exact absurd hrecord hne

/-- **Keys of directory entries are decoded as they were encoded.**  A key that was written, with a
    name and a hash for which the format has room, is read back whatever follows it.  Of all byte
    strings, those are refused that are too short for the word in front or, if that is of a
    directory entry, for what precedes the name or for the length it gives.  What is read as the key
    of another record has no hash and no name, and is never equal to an entry. -/
theorem ofBytes_bytes_and_ofBytes_iff :
    (∀ (format : EntryFormat) (parent : UInt64) (hash : Option UInt32) (name extra : ByteArray),
      parent.toNat < 2 ^ 60 → format.HasRoom hash name →
      let key : DirectoryKey := ⟨.ofParts parent .directoryRecord, hash, name⟩
      ofBytes format (key.bytes ++ extra) = .ok key ∧ key.parent = parent ∧
        key.record.type = .directoryRecord) ∧
    (∀ (format : EntryFormat) (key : ByteArray), (∃ k, ofBytes format key = .ok k) ↔
      8 ≤ key.size ∧ (number key 0 8 / 2 ^ 60 = 9 →
        format.start ≤ key.size ∧ format.start + format.declaredLength key ≤ key.size)) ∧
    ∀ (format : EntryFormat) (key : ByteArray) (k : DirectoryKey), ofBytes format key = .ok k →
      number key 0 8 / 2 ^ 60 ≠ 9 →
      k.hash = none ∧ k.nameBytes = .empty ∧
        ∀ query, ∃ ordering, ordering ≠ .eq ∧ k.compareWith query = .ok ordering := by
  refine ⟨?written, ?accepted, ?others⟩
  case written =>
    intro format parent hash name extra hparent hroom
    exact ⟨ofBytes_bytes hroom extra, RecordKey.object_ofParts_of_lt hparent,
      RecordKey.type_ofParts parent⟩
  case accepted =>
    intro format key
    constructor
    · rintro ⟨k, hk⟩
      obtain ⟨hsize, -, hk⟩ := ofBytes_eq_ok_iff.mp hk
      refine ⟨hsize, fun hentry => ?_⟩
      rw [if_pos hentry] at hk
      exact ⟨by omega, hk.1⟩
    · rintro ⟨hsize, hfits⟩
      have hpacked : (UInt64.ofNat (number key 0 8)).toNat = number key 0 8 :=
        UInt64.toNat_ofNat_of_lt (number_lt key 0 8)
      by_cases hentry : number key 0 8 / 2 ^ 60 = 9
      · refine ⟨⟨⟨.ofNat (number key 0 8)⟩, format.declaredHash key,
          key.extract format.start (format.start + format.declaredLength key)⟩,
          ofBytes_eq_ok_iff.mpr ⟨hsize, hpacked, ?_⟩⟩
        rw [if_pos hentry]
        exact ⟨(hfits hentry).2, rfl, rfl⟩
      · refine ⟨⟨⟨.ofNat (number key 0 8)⟩, none, .empty⟩,
          ofBytes_eq_ok_iff.mpr ⟨hsize, hpacked, ?_⟩⟩
        rw [if_neg hentry]
        exact ⟨rfl, rfl⟩
  case others =>
    intro format key k hk hother
    obtain ⟨-, hpacked, hk⟩ := ofBytes_eq_ok_iff.mp hk
    rw [if_neg hother] at hk
    have hnot : ¬ k.IsEntry := by
      rw [IsEntry, RecordKey.type_eq_iff, hpacked]
      exact hother
    exact ⟨hk.1, hk.2, compareWith_of_not_isEntry hnot⟩

/-- The key of the entry `a` with a byte too many, an empty key, and the key of an inode. -/
theorem ofBytes_bytes_and_ofBytes_iff_hashed :
    let key : DirectoryKey := ⟨.ofParts 2 .directoryRecord, some 0x3fffff, ⟨#[0x61, 0]⟩⟩
    let inode : RecordKey := ⟨0x3000000000000002⟩
    (ofBytes .hashed (key.bytes ++ ⟨#[7]⟩) = .ok key ∧ key.parent = 2) ∧
      (¬ ∃ k, ofBytes .hashed .empty = .ok k) ∧
      (∃ k, ofBytes .hashed (encoded inode) = .ok k ∧ k.nameBytes = .empty) := by
  intro key inode
  obtain ⟨hwritten, haccepted, hothers⟩ := ofBytes_bytes_and_ofBytes_iff
  have hroom : EntryFormat.HasRoom .hashed (some 0x3fffff) ⟨#[0x61, 0]⟩ :=
    .hashed (by decide) (by decide)
  obtain ⟨hread, hparent, -⟩ := hwritten .hashed 2 _ _ ⟨#[7]⟩ (by decide) hroom
  have hother : number (encoded inode) 0 8 / 2 ^ 60 ≠ 9 := by decide +kernel
  refine ⟨⟨hread, hparent⟩, fun h => ?_, ?_⟩
  · exact absurd ((haccepted .hashed .empty).mp h).1 (by decide)
  · obtain ⟨k, hk⟩ := (haccepted .hashed (encoded inode)).mpr
      ⟨Nat.le_refl 8, fun h => absurd h hother⟩
    exact ⟨k, hk, (hothers .hashed _ k hk hother).2.1⟩

end DirectoryKey

end Apfs
