import Apfs.Proofs.Directory.Lookup
import Apfs.Proofs.Name.Sequences

namespace Apfs

/-!
# Names in the order of their bytes

UTF-8 keeps the order of the code points.  Of two sequences of different lengths, the longer one has
the greater number and the greater first byte, and the bytes of two sequences of the same length
hold the digits of their numbers, the highest first.  So where case makes a difference, names can be
sorted by their bytes.

* `Utf8Form.compare_append` — byte strings that start with sequences compare first by their numbers.
* `compare_encoded_append` — encoded names compare as their characters do.
* `compareNames_sensitive_and_nameBefore` — names, and keys of directory entries, compare as their
  bytes do.
-/

/-! ### Digits -/

/-- Numbers compare by the digits in front first, and then by the last one. -/
theorem compare_eq_then_mod (v w : Nat) :
    compare v w = (compare (v / 64) (w / 64)).then (compare (v % 64) (w % 64)) := by
  cases hfront : compare (v / 64) (w / 64) with
  | lt =>
    rw [Nat.compare_eq_lt] at hfront
    rw [Nat.compare_eq_lt.mpr (by omega), Ordering.lt_then]
  | eq =>
    rw [Nat.compare_eq_eq] at hfront
    rw [Ordering.eq_then]
    cases hlast : compare (v % 64) (w % 64) with
    | lt =>
      rw [Nat.compare_eq_lt] at hlast ⊢
      omega
    | eq =>
      rw [Nat.compare_eq_eq] at hlast ⊢
      omega
    | gt =>
      rw [Nat.compare_eq_gt] at hlast ⊢
      omega
  | gt =>
    rw [Nat.compare_eq_gt] at hfront
    rw [Nat.compare_eq_gt.mpr (by omega), Ordering.gt_then]

/-- Bytes compare as their numbers do. -/
theorem compare_ofNat {m n : Nat} (hm : m < 256) (hn : n < 256) :
    compare (UInt8.ofNat m) (UInt8.ofNat n) = compare m n := by
  rw [UInt8.compare_eq_toNat_compare_toNat, UInt8.toNat_ofNat', UInt8.toNat_ofNat',
    Nat.mod_eq_of_lt hm, Nat.mod_eq_of_lt hn]

/-- What is added to both digits does not matter. -/
theorem compare_ofNat_add {m n k : Nat} (hm : m + k < 256) (hn : n + k < 256) :
    compare (UInt8.ofNat (m + k)) (UInt8.ofNat (n + k)) = compare m n := by
  have hmono : StrictMono fun i : Nat => i + k := fun i j h => Nat.add_lt_add_right h k
  rw [compare_ofNat hm hn, ← cmp_eq_compare, ← cmp_eq_compare]
  exact hmono.cmp_map_eq m n

/-! ### Sequences -/

section

variable {v w : Nat} {s t : List UInt8}

/-- Of two sequences of different lengths, the longer one has the greater number and starts with the
    greater byte. -/
theorem Utf8Form.compare_of_length_lt (hv : Utf8Form v s) (hw : Utf8Form w t)
    (h : s.length < t.length) (x y : List UInt8) :
    compare (s ++ x) (t ++ y) = .lt ∧ v < w := by
  have hfirst {m n : Nat} (hn : n < 256) (hlt : m < n) (x y : List UInt8) :
      compare (UInt8.ofNat m :: x) (UInt8.ofNat n :: y) = .lt := by
    rw [List.compare_cons_cons, compare_ofNat (by omega) hn, Nat.compare_eq_lt.mpr hlt,
      Ordering.lt_then]
  -- Of the pairs of forms, those in which the first is shorter are left.
  cases hv <;> cases hw <;> simp only [List.length_cons, List.length_nil] at h
  all_goals exact ⟨hfirst (by omega) (by omega) _ _, by omega⟩

/-- **Byte strings** that start with sequences compare by the numbers of these first. -/
theorem Utf8Form.compare_append (hv : Utf8Form v s) (hw : Utf8Form w t) (x y : List UInt8) :
    compare (s ++ x) (t ++ y) = (compare v w).then (compare x y) := by
  rcases Nat.lt_trichotomy s.length t.length with hlt | heq | hgt
  · obtain ⟨hbytes, hnumber⟩ := hv.compare_of_length_lt hw hlt x y
    rw [hbytes, Nat.compare_eq_lt.mpr hnumber, Ordering.lt_then]
  · -- The digits of the numbers are compared one after the other, as the bytes are.
    cases hv with
    | one hle =>
      cases hw with
      | one hle' =>
        show compare (_ :: x) (_ :: y) = _
        rw [List.compare_cons_cons, compare_ofNat (by omega) (by omega)]
      | _ => exact absurd heq (by simp)
    | two hlt hle =>
      cases hw with
      | two hlt' hle' =>
        show compare (_ :: _ :: x) (_ :: _ :: y) = _
        rw [compare_eq_then_mod v w]
        simp (disch := omega) only [List.compare_cons_cons, compare_ofNat_add, Ordering.then_assoc]
      | _ => exact absurd heq (by simp)
    | three hlt hle =>
      cases hw with
      | three hlt' hle' =>
        show compare (_ :: _ :: _ :: x) (_ :: _ :: _ :: y) = _
        rw [compare_eq_then_mod v w, compare_eq_then_mod (v / 64) (w / 64)]
        simp (disch := omega) only [List.compare_cons_cons, compare_ofNat_add, Ordering.then_assoc,
          Nat.div_div_eq_div_mul]
      | _ => exact absurd heq (by simp)
    | four hlt hle =>
      cases hw with
      | four hlt' hle' =>
        show compare (_ :: _ :: _ :: _ :: x) (_ :: _ :: _ :: _ :: y) = _
        rw [compare_eq_then_mod v w, compare_eq_then_mod (v / 64) (w / 64),
          compare_eq_then_mod (v / 64 / 64) (w / 64 / 64)]
        simp (disch := omega) only [List.compare_cons_cons, compare_ofNat_add, Ordering.then_assoc,
          Nat.div_div_eq_div_mul]
      | _ => exact absurd heq (by simp)
  · obtain ⟨hbytes, hnumber⟩ := hw.compare_of_length_lt hv hgt y x
    rw [Std.OrientedOrd.eq_swap, hbytes, Nat.compare_eq_gt.mpr hnumber]
    rfl

end

/-! ### Names -/

/-- Characters compare as their numbers do. -/
theorem compare_toNat (c d : Char) : compare c.toNat d.toNat = compare c d := by
  have hmono : StrictMono Char.toNat := fun c d h => h
  rw [← cmp_eq_compare, ← cmp_eq_compare, hmono.cmp_map_eq]

/-- Only the encoding of NUL starts with a zero byte. -/
theorem utf8EncodeChar_pos {c : Char} {lead : UInt8} {tail : List UInt8} (hc : c ≠ '\x00')
    (h : String.utf8EncodeChar c = lead :: tail) : 0 < lead := by
  have hform := form_utf8EncodeChar c
  have hpos : 0 < c.toNat := Nat.pos_of_ne_zero fun hzero => hc (Char.toNat_inj.mp hzero)
  rw [h] at hform
  generalize c.toNat = v at hform hpos
  rw [UInt8.lt_iff_toNat_lt]
  cases hform <;> rw [UInt8.toNat_ofNat', Nat.mod_eq_of_lt (by omega)] <;> show 0 < _ <;> omega

/-- Where a name has ended, it is before one that goes on with another character. -/
theorem compare_tail_encoded {tail : List UInt8} (htail : ∀ b ∈ tail.head?, b = 0) {c : Char}
    (hc : c ≠ '\x00') (rest : List UInt8) :
    compare tail (String.utf8EncodeChar c ++ rest) = .lt := by
  obtain ⟨lead, bytes, hencode⟩ := List.exists_cons_of_ne_nil (@String.utf8EncodeChar_ne_nil c)
  rw [hencode, List.cons_append]
  cases tail with
  | nil => rfl
  | cons b tail =>
    obtain rfl : b = 0 := htail b rfl
    have hlead : compare 0 lead = .lt := Std.compare_eq_lt.mpr (utf8EncodeChar_pos hc hencode)
    rw [List.compare_cons_cons, hlead, Ordering.lt_then]

/-- **Encoded names** compare as their characters do, also if both go on with the same bytes, of
    which the first is zero. -/
theorem compare_encoded_append {l r : List Char} (hl : '\x00' ∉ l) (hr : '\x00' ∉ r)
    {tail : List UInt8} (htail : ∀ b ∈ tail.head?, b = 0) :
    compare (l.flatMap String.utf8EncodeChar ++ tail) (r.flatMap String.utf8EncodeChar ++ tail)
      = compare l r := by
  induction l generalizing r with
  | nil =>
    cases r with
    | nil => exact Std.compare_self
    | cons d r =>
      obtain ⟨hd, -⟩ := not_or.mp (mt List.mem_cons.mpr hr)
      rw [List.flatMap_cons, List.append_assoc]
      exact compare_tail_encoded htail (Ne.symm hd) _
  | cons c l ih =>
    obtain ⟨hc, hl⟩ := not_or.mp (mt List.mem_cons.mpr hl)
    cases r with
    | nil =>
      rw [List.flatMap_cons, List.append_assoc, Std.OrientedOrd.eq_swap]
      exact congrArg Ordering.swap (compare_tail_encoded htail (Ne.symm hc) _)
    | cons d r =>
      obtain ⟨-, hr⟩ := not_or.mp (mt List.mem_cons.mpr hr)
      rw [List.flatMap_cons, List.flatMap_cons, List.append_assoc, List.append_assoc,
        (form_utf8EncodeChar c).compare_append (form_utf8EncodeChar d), compare_toNat, ih hl hr,
        List.compare_cons_cons]

/-- The bytes are valid UTF-8, and none of them is a NUL. -/
structure IsPlainName (bytes : ByteArray) : Prop where
  /-- The bytes are the encoding of some characters. -/
  valid : bytes.IsValidUTF8
  /-- No byte is zero. -/
  not_mem : 0 ∉ bytes.toList

/-- The bytes of encoded characters, as a list. -/
theorem toList_utf8Encode_append (chars : List Char) (tail : ByteArray) :
    (chars.utf8Encode ++ tail).toList
      = chars.flatMap String.utf8EncodeChar ++ tail.data.toList := by
  rw [Bytes.toList_eq, ByteArray.data_append, Array.toList_append, List.utf8Encode,
    List.data_toByteArray]

/-- Such bytes are the encoding of characters other than NUL. -/
theorem IsPlainName.exists_chars {bytes : ByteArray} (h : IsPlainName bytes) :
    ∃ chars : List Char, bytes = chars.utf8Encode ∧ '\x00' ∉ chars := by
  obtain ⟨⟨chars, rfl⟩, hzero⟩ := h
  -- The encoding of NUL is a zero byte.
  refine ⟨chars, rfl, fun hmem => hzero ?_⟩
  have hlist := toList_utf8Encode_append chars .empty
  rw [ByteArray.append_empty] at hlist
  rw [hlist]
  exact List.mem_append_left _ (List.mem_flatMap.mpr ⟨_, hmem, .head _⟩)

/-- The bytes of names that end in the same way compare as their characters do. -/
theorem compare_toList {l r : List Char} (hl : '\x00' ∉ l) (hr : '\x00' ∉ r) (tail : ByteArray)
    (htail : Bytes.get tail 0 = 0) :
    compare (l.utf8Encode ++ tail).toList (r.utf8Encode ++ tail).toList = compare l r := by
  rw [toList_utf8Encode_append, toList_utf8Encode_append]
  apply compare_encoded_append hl hr
  intro b hb
  obtain ⟨rest, hrest⟩ := List.head?_eq_some_iff.mp hb
  have hpos : 0 < tail.size := by
    rw [← ByteArray.size_data, ← Array.length_toList, hrest]
    exact Nat.succ_pos _
  rw [← htail, Bytes.get_of_lt hpos]
  simp [ByteArray.getElem_eq_getElem_data, ← Array.getElem_toList, hrest]

/-- Where case makes a difference, characters count as themselves. -/
theorem map_sensitive_fold (chars : List Char) :
    chars.map CaseSensitivity.sensitive.fold = chars :=
  List.map_id _

/-- **The order of names** is that of their bytes where case makes a difference.  For the keys of
    directory entries, it is also that of the bytes that they hold, which end in the same way: with
    or without a NUL. -/
theorem compareNames_sensitive_and_nameBefore :
    (∀ a b : ByteArray, IsPlainName a → IsPlainName b →
      compareNames .sensitive a (.utf8 b) = .ok (compare a.toList b.toList)) ∧
    ∀ (k k' : DirectoryKey) (a b tail : ByteArray), IsPlainName a → IsPlainName b →
      Bytes.get tail 0 = 0 → k.nameBytes = a ++ tail → k'.nameBytes = b ++ tail →
      (k.NameBefore .sensitive k' ↔
        (compare k.hash k'.hash).then (compare k.nameBytes.toList k'.nameBytes.toList) = .lt) := by
  constructor
  · intro a b ha hb
    obtain ⟨l, rfl, hl⟩ := ha.exists_chars
    obtain ⟨r, rfl, hr⟩ := hb.exists_chars
    have hspells {chars : List Char} (h : '\x00' ∉ chars) :
        (EncodedName.utf8 (chars.utf8Encode ++ .empty)).Spells chars := .utf8 h rfl
    -- The names are the case in which nothing comes after the characters.
    rw [← ByteArray.append_empty (b := l.utf8Encode), ← ByteArray.append_empty (b := r.utf8Encode),
      compareNames_of_spells (hspells hl) (hspells hr), map_sensitive_fold, map_sensitive_fold,
      compare_toList hl hr .empty rfl]
  · intro k k' a b tail ha hb htail hk hk'
    obtain ⟨l, rfl, hl⟩ := ha.exists_chars
    obtain ⟨r, rfl, hr⟩ := hb.exists_chars
    have hspells : k.Spells l := by
      rw [DirectoryKey.Spells, hk]
      exact .utf8 hl htail
    have hspells' : k'.Spells r := by
      rw [DirectoryKey.Spells, hk']
      exact .utf8 hr htail
    rw [hk, hk', compare_toList hl hr tail htail]
    constructor
    · intro h
      have hbefore := h hspells hspells'
      rwa [map_sensitive_fold, map_sensitive_fold] at hbefore
    · intro h chars chars' hchars hchars'
      obtain rfl := hspells.unique hchars
      obtain rfl := hspells'.unique hchars'
      rwa [map_sensitive_fold, map_sensitive_fold]

/-- The last code point of three bytes is before the first one of four, as a name and in the keys of
    entries. -/
theorem compareNames_threeAndFourBytes :
    compareNames .sensitive ⟨#[0xef, 0xbf, 0xbf]⟩ (.utf8 ⟨#[0xf0, 0x90, 0x80, 0x80]⟩) = .ok .lt ∧
      DirectoryKey.NameBefore .sensitive
        { record := .ofParts 2 .directoryRecord, hash := none
          nameBytes := ⟨#[0xef, 0xbf, 0xbf, 0]⟩ }
        { record := .ofParts 2 .directoryRecord, hash := none
          nameBytes := ⟨#[0xf0, 0x90, 0x80, 0x80, 0]⟩ } := by
  have hthree : IsPlainName ⟨#[0xef, 0xbf, 0xbf]⟩ :=
    ⟨⟨[Char.ofNat 0xffff], by rfl⟩, by rw [Bytes.toList_eq]; decide⟩
  have hfour : IsPlainName ⟨#[0xf0, 0x90, 0x80, 0x80]⟩ :=
    ⟨⟨[Char.ofNat 0x10000], by rfl⟩, by rw [Bytes.toList_eq]; decide⟩
  constructor
  · rw [compareNames_sensitive_and_nameBefore.1 _ _ hthree hfour, Bytes.toList_eq, Bytes.toList_eq]
    decide
  · apply (compareNames_sensitive_and_nameBefore.2 _ _ _ _ ⟨#[0]⟩ hthree hfour rfl rfl rfl).mpr
    rw [Bytes.toList_eq, Bytes.toList_eq]
    decide

end Apfs
