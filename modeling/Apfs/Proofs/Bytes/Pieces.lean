import Apfs.Bytes
import Mathlib

namespace Apfs.Bytes

/-!
# Pieces of byte strings

A byte string is determined by its size and its bytes, and what matters about writing into one is
which pieces it holds afterwards.

* `get_append`, `get_extract`, `get_overlay` — single bytes of byte strings that are put together.
* `number` — the number in a range of bytes.
* `StandsAt` — a piece stands at an offset of a byte string.
* `ofLittleEndian_inj`, `ofBigEndian_inj` — bytes are determined by the numbers they stand for.
* `standsAt_overlay`, `StandsAt.overlay` — a piece that was just written stands there, and pieces
  beside it stay.
-/

/-! ### Single bytes -/

theorem get_of_lt {data : ByteArray} {i : Nat} (h : i < data.size) : get data i = data[i] :=
  dif_pos h

theorem get_of_le {data : ByteArray} {i : Nat} (h : data.size ≤ i) : get data i = 0 :=
  dif_neg (Nat.not_lt.mpr h)

/-- Byte strings are equal if they have the same size and the same bytes. -/
theorem ext_get {a b : ByteArray} (hsize : a.size = b.size)
    (h : ∀ i < a.size, get a i = get b i) : a = b := by
  apply ByteArray.ext_getElem hsize
  intro i hi hi'
  rw [← get_of_lt hi, ← get_of_lt hi', h i hi]

theorem get_append (a b : ByteArray) (i : Nat) :
    get (a ++ b) i = if i < a.size then get a i else get b (i - a.size) := by
  by_cases hlt : i < a.size
  · have hi : i < (a ++ b).size := by
      rw [ByteArray.size_append]
      omega
    rw [if_pos hlt, get_of_lt hi, get_of_lt hlt, ByteArray.getElem_append_left hlt]
  · rw [if_neg hlt]
    by_cases hi : i < (a ++ b).size
    · have hb : i - a.size < b.size := by
        rw [ByteArray.size_append] at hi
        omega
      rw [get_of_lt hi, get_of_lt hb, ByteArray.getElem_append_right (Nat.not_lt.mp hlt)]
    · have hb : b.size ≤ i - a.size := by
        rw [ByteArray.size_append] at hi
        omega
      rw [get_of_le (Nat.not_lt.mp hi), get_of_le hb]

theorem get_extract (data : ByteArray) {start stop i : Nat} (h : start + i < stop) :
    get (data.extract start stop) i = get data (start + i) := by
  by_cases hi : start + i < data.size
  · have hi' : i < (data.extract start stop).size := by
      rw [ByteArray.size_extract]
      omega
    rw [get_of_lt hi, get_of_lt hi', ByteArray.getElem_extract]
  · have hi' : (data.extract start stop).size ≤ i := by
      rw [ByteArray.size_extract]
      omega
    rw [get_of_le (Nat.not_lt.mp hi), get_of_le hi']

/-- Data that ends before the end of a range is not cut by it. -/
theorem extract_of_size_le {data : ByteArray} {stop : Nat} (h : data.size ≤ stop) :
    data.extract 0 stop = data := by
  have hsize : (data.extract 0 stop).size = data.size := by
    rw [ByteArray.size_extract]
    omega
  apply ext_get hsize
  intro i hi
  rw [hsize] at hi
  rw [get_extract _ (by omega), Nat.zero_add]

/-- The bytes of a byte string, as a list. -/
theorem toList_eq (data : ByteArray) : data.toList = data.data.toList := by
  -- The loop goes through the bytes from an index on and collects them in reverse.
  have hloop (i : Nat) (r : List UInt8) :
      ByteArray.toList.loop data i r = r.reverse ++ data.data.toList.drop i := by
    fun_induction ByteArray.toList.loop data i r with
    | case1 i r hlt ih =>
      have hi : i < data.data.toList.length := hlt
      have hget : data.get! i = data.data.toList[i] := by
        show data.data[i]! = _
        rw [getElem!_pos data.data i hlt]
        rfl
      rw [ih, List.reverse_cons, List.append_assoc, List.singleton_append, hget,
        List.getElem_cons_drop]
    | case2 i r hge =>
      rw [List.drop_eq_nil_of_le (Nat.le_of_not_lt hge), List.append_nil]
  exact hloop 0 []

/-- The bytes of a byte string, one by one. -/
theorem toList_eq_map_get (data : ByteArray) :
    data.toList = (List.range data.size).map (get data) := by
  rw [toList_eq]
  apply List.ext_getElem
  · rw [List.length_map, List.length_range]
    rfl
  · intro i hi hi'
    rw [List.getElem_map, List.getElem_range, get_of_lt hi]
    rfl

/-- The bytes of a range, as a list. -/
theorem toList_extract (data : ByteArray) (start stop : Nat) :
    (data.extract start stop).toList = (data.toList.take stop).drop start := by
  rw [toList_eq, toList_eq, ByteArray.data_extract, Array.toList_extract,
    List.extract_eq_drop_take']

@[simp] theorem size_fill (n : Nat) (b : UInt8) : (fill n b).size = n := by
  -- The loop appends bytes to what it has.
  have hgo (n : Nat) (out : ByteArray) : (fill.go b n out).size = out.size + n := by
    induction n generalizing out with
    | zero => rfl
    | succ n ih => rw [fill.go, ih, ByteArray.size_push, Nat.add_assoc, Nat.add_comm 1]
  have hempty : (ByteArray.emptyWithCapacity n).size = 0 := rfl
  rw [fill, hgo, hempty, Nat.zero_add]

@[simp] theorem size_zeros (n : Nat) : (zeros n).size = n := size_fill n 0

theorem size_resize (data : ByteArray) (size : Nat) : (resize data size).size = size := by
  rw [resize, ByteArray.size_append, ByteArray.size_extract, size_zeros]
  omega

/-- The first pieces of data that has as many whole ones. -/
theorem take_wholePieces {data : ByteArray} {width count : Nat} (hwidth : 0 < width)
    (h : count * width ≤ data.size) :
    (wholePieces data width).take count
      = (List.range count).map fun i => data.extract (i * width) ((i + 1) * width) := by
  have hcount : count ≤ data.size / width := (Nat.le_div_iff_mul_le hwidth).mpr h
  rw [wholePieces, ← List.map_take, List.take_range, Nat.min_eq_left hcount]

/-! ### Writing -/

section

variable {data piece : ByteArray} {start : Nat}

theorem size_overlay (h : start + piece.size ≤ data.size) :
    (overlay data start piece).size = data.size := by
  simp only [overlay, ByteArray.size_append, ByteArray.size_extract]
  omega

/-- Where the piece is written stand its bytes, and elsewhere those of the data. -/
theorem get_overlay (h : start + piece.size ≤ data.size) (i : Nat) :
    get (overlay data start piece) i =
      if start ≤ i ∧ i < start + piece.size then get piece (i - start) else get data i := by
  have hfront : (data.extract 0 start).size = start := by
    rw [ByteArray.size_extract]
    omega
  rw [overlay, get_append, get_append, ByteArray.size_append, hfront]
  -- The byte is in front of the piece, in it, behind it, or past the end of the data.
  by_cases hlow : i < start
  · rw [if_pos (by omega), if_pos hlow, if_neg (by omega), get_extract _ (by omega), Nat.zero_add]
  · by_cases hhigh : i < start + piece.size
    · rw [if_pos hhigh, if_neg hlow, if_pos ⟨by omega, hhigh⟩]
    · rw [if_neg hhigh, if_neg fun hin => hhigh hin.2]
      by_cases hi : i < data.size
      · rw [get_extract _ (by omega)]
        congr 1
        omega
      · rw [get_of_le (Nat.not_lt.mp hi), get_of_le]
        rw [ByteArray.size_extract]
        omega

/-- Writing nothing changes nothing. -/
theorem overlay_empty (h : start ≤ data.size) : overlay data start .empty = data := by
  apply ext_get
  · exact size_overlay h
  · intro i _
    rw [get_overlay h, if_neg]
    show ¬ (start ≤ i ∧ i < start + 0)
    omega

/-- The bytes in front of what is written stay. -/
theorem extract_overlay (h : start + piece.size ≤ data.size) :
    (overlay data start piece).extract 0 start = data.extract 0 start := by
  apply ext_get
  · rw [ByteArray.size_extract, ByteArray.size_extract, size_overlay h]
  · intro i hi
    rw [ByteArray.size_extract] at hi
    rw [get_extract _ (by omega), get_extract _ (by omega), get_overlay h, if_neg (by omega)]

end

/-! ### Numbers -/

/-- The number that the bytes of a range stand for, least significant first. -/
def number (data : ByteArray) (start stop : Nat) : Nat :=
  ofLittleEndian (data.extract start stop).toList

/-- A number is found in any piece from the front that reaches as far. -/
theorem number_eq_take {data : ByteArray} {stop size : Nat} (h : stop ≤ size) :
    number data 0 stop = ofLittleEndian ((data.extract 0 size).toList.take stop) := by
  rw [number, toList_extract, toList_extract, List.drop_zero, List.drop_zero, List.take_take,
    Nat.min_eq_left h]

theorem number_eq_drop (data : ByteArray) (start stop : Nat) :
    number data start stop = ofLittleEndian ((data.extract 0 stop).toList.drop start) := by
  rw [number, toList_extract, toList_extract, List.drop_zero]

theorem ofLittleEndian_lt (bytes : List UInt8) :
    ofLittleEndian bytes < 2 ^ (8 * bytes.length) := by
  rw [← littleEndian_ofLittleEndian bytes, ofLittleEndian_littleEndian, length_littleEndian,
    Nat.one_shiftLeft]
  exact Nat.mod_lt _ (Nat.two_pow_pos _)

theorem number_lt (data : ByteArray) (start stop : Nat) :
    number data start stop < 2 ^ (8 * (stop - start)) := by
  have hlength : (data.extract start stop).toList.length ≤ stop - start := by
    rw [toList_extract, List.length_drop, List.length_take]
    omega
  exact Nat.lt_of_lt_of_le (ofLittleEndian_lt _)
    (Nat.pow_le_pow_right (by decide) (Nat.mul_le_mul_left 8 hlength))

/-- Bytes are determined by their number, if it is known how many there are. -/
theorem ofLittleEndian_inj {a b : List UInt8} (hlen : a.length = b.length)
    (h : ofLittleEndian a = ofLittleEndian b) : a = b := by
  rw [← littleEndian_ofLittleEndian a, ← littleEndian_ofLittleEndian b, hlen, h]

theorem ofBigEndian_lt (bytes : List UInt8) : ofBigEndian bytes < 2 ^ (8 * bytes.length) := by
  rw [← List.length_reverse]
  exact ofLittleEndian_lt bytes.reverse

theorem ofBigEndian_inj {a b : List UInt8} (hlen : a.length = b.length)
    (h : ofBigEndian a = ofBigEndian b) : a = b := by
  apply List.reverse_injective
  apply ofLittleEndian_inj
  · rw [List.length_reverse, List.length_reverse, hlen]
  · exact h

/-! ### Pieces -/

/-- The piece stands in the data, with its first byte at the offset. -/
def StandsAt (data : ByteArray) (offset : Nat) (piece : ByteArray) : Prop :=
  slice? data offset piece.size = some piece

instance (data : ByteArray) (offset : Nat) (piece : ByteArray) :
    Decidable (StandsAt data offset piece) :=
  inferInstanceAs (Decidable (_ = _))

section

variable {data piece other : ByteArray} {offset start : Nat}

/-- A piece stands where its bytes do. -/
theorem standsAt_iff : StandsAt data offset piece ↔
    offset + piece.size ≤ data.size ∧ ∀ i < piece.size, get data (offset + i) = get piece i := by
  unfold StandsAt slice?
  by_cases hfits : offset + piece.size ≤ data.size
  · rw [if_pos hfits, Option.some.injEq, and_iff_right hfits]
    constructor
    · intro heq i hi
      rw [← @get_extract data offset (offset + piece.size) i (by omega), heq]
    · intro hget
      have hsize : (data.extract offset (offset + piece.size)).size = piece.size := by
        rw [ByteArray.size_extract]
        omega
      apply ext_get hsize
      intro i hi
      rw [hsize] at hi
      rw [get_extract _ (by omega), hget i hi]
  · simp [hfits]

theorem StandsAt.le (h : StandsAt data offset piece) : offset + piece.size ≤ data.size :=
  (standsAt_iff.mp h).1

theorem StandsAt.extract_eq (h : StandsAt data offset piece) :
    data.extract offset (offset + piece.size) = piece := by
  unfold StandsAt slice? at h
  rw [if_pos (standsAt_iff.mp h).1] at h
  exact Option.some.inj h

/-- What is cut out of the data stands in it. -/
theorem standsAt_of_slice? {length : Nat} (h : slice? data offset length = some piece) :
    piece.size = length ∧ StandsAt data offset piece := by
  unfold slice? at h
  split at h
  · next hfits =>
    have hsize : piece.size = length := by
      rw [← Option.some.inj h, ByteArray.size_extract]
      omega
    refine ⟨hsize, ?_⟩
    rw [StandsAt, slice?, hsize, if_pos hfits, Option.some.inj h]
  · contradiction

/-- A range that lies in the data has a piece. -/
theorem exists_standsAt {length : Nat} (h : offset + length ≤ data.size) :
    ∃ piece, piece.size = length ∧ StandsAt data offset piece := by
  have hslice : slice? data offset length = some (data.extract offset (offset + length)) := if_pos h
  exact ⟨_, standsAt_of_slice? hslice⟩

/-- At one offset stands only one piece of a given size. -/
theorem StandsAt.unique (h : StandsAt data offset piece) (h' : StandsAt data offset other)
    (hsize : piece.size = other.size) : piece = other := by
  rw [StandsAt, hsize, h'] at h
  exact (Option.some.inj h).symm

/-- A piece that was just written stands there. -/
theorem standsAt_overlay (h : start + piece.size ≤ data.size) :
    StandsAt (overlay data start piece) start piece := by
  apply standsAt_iff.mpr
  rw [size_overlay h]
  refine ⟨h, fun i hi => ?_⟩
  rw [get_overlay h, if_pos (by omega), Nat.add_sub_cancel_left]

/-- **Frame.**  Writing beside a piece leaves it where it stands. -/
theorem StandsAt.overlay (h : StandsAt data offset piece) (hfits : start + other.size ≤ data.size)
    (hbeside : start + other.size ≤ offset ∨ offset + piece.size ≤ start) :
    StandsAt (overlay data start other) offset piece := by
  obtain ⟨hle, hget⟩ := standsAt_iff.mp h
  apply standsAt_iff.mpr
  rw [size_overlay hfits]
  refine ⟨hle, fun i hi => ?_⟩
  rw [get_overlay hfits, if_neg (by omega), hget i hi]

/-- Two pieces that stand one after the other are one piece. -/
theorem standsAt_append : StandsAt data offset (piece ++ other) ↔
    StandsAt data offset piece ∧ StandsAt data (offset + piece.size) other := by
  simp only [standsAt_iff, ByteArray.size_append]
  constructor
  · rintro ⟨hle, hget⟩
    refine ⟨⟨by omega, fun i hi => ?_⟩, by omega, fun i hi => ?_⟩
    · rw [hget i (by omega), get_append, if_pos hi]
    · rw [Nat.add_assoc, hget _ (by omega), get_append, if_neg (by omega), Nat.add_sub_cancel_left]
  · rintro ⟨⟨-, hget⟩, hle, hget'⟩
    refine ⟨by omega, fun i hi => ?_⟩
    rw [get_append]
    split
    · next hlt => exact hget i hlt
    · next hge =>
      rw [← hget' _ (by omega)]
      congr 1
      omega

/-- A piece stands at the front of what it is put in front of. -/
theorem standsAt_zero (piece other : ByteArray) : StandsAt (piece ++ other) 0 piece := by
  apply standsAt_iff.mpr
  rw [ByteArray.size_append, Nat.zero_add]
  refine ⟨Nat.le_add_right _ _, fun i hi => ?_⟩
  rw [Nat.zero_add, get_append, if_pos hi]

theorem standsAt_self (data : ByteArray) : StandsAt data 0 data := by
  rw [StandsAt, slice?, Nat.zero_add, if_pos (Nat.le_refl _), ByteArray.extract_zero_size]

/-- What comes after the data does not move its pieces. -/
theorem StandsAt.append (h : StandsAt data offset piece) (rest : ByteArray) :
    StandsAt (data ++ rest) offset piece := by
  obtain ⟨hle, hget⟩ := standsAt_iff.mp h
  apply standsAt_iff.mpr
  rw [ByteArray.size_append]
  refine ⟨by omega, fun i hi => ?_⟩
  rw [get_append, if_pos (by omega), hget i hi]

/-- Data is the piece at its front, and what comes after it. -/
theorem StandsAt.eq_append (h : StandsAt data 0 piece) :
    data = piece ++ data.extract piece.size data.size := by
  have hsize : data.size = (piece ++ data.extract piece.size data.size).size := by
    have := h.le
    rw [ByteArray.size_append, ByteArray.size_extract]
    omega
  apply ext_get hsize
  intro i hi
  rw [get_append]
  split
  · next hlt => rw [← (standsAt_iff.mp h).2 i hlt, Nat.zero_add]
  · next hge =>
    rw [get_extract _ (by omega)]
    congr 1
    omega

/-- What is put in front of the data moves its pieces. -/
theorem standsAt_append_left (front : ByteArray) :
    StandsAt (front ++ data) (front.size + offset) piece ↔ StandsAt data offset piece := by
  simp only [standsAt_iff, ByteArray.size_append]
  refine and_congr (by omega) (forall₂_congr fun i _ => ?_)
  rw [get_append, if_neg (by omega), Nat.add_assoc, Nat.add_sub_cancel_left]

/-- A piece stands in what is cut out around it. -/
theorem StandsAt.extract {stop : Nat} (h : StandsAt data (start + offset) piece)
    (hstop : start + offset + piece.size ≤ stop) :
    StandsAt (data.extract start stop) offset piece := by
  obtain ⟨hle, hget⟩ := standsAt_iff.mp h
  apply standsAt_iff.mpr
  rw [ByteArray.size_extract]
  refine ⟨by omega, fun i hi => ?_⟩
  rw [get_extract _ (by omega), ← Nat.add_assoc, hget i hi]

/-- What stands in data that was cut off stands before the cut, and in the whole data. -/
theorem StandsAt.of_cut {stop : Nat} (h : StandsAt (data.extract 0 stop) offset piece) :
    offset + piece.size ≤ stop ∧ StandsAt data offset piece := by
  obtain ⟨hle, hget⟩ := standsAt_iff.mp h
  rw [ByteArray.size_extract] at hle
  refine ⟨by omega, standsAt_iff.mpr ⟨by omega, fun i hi => ?_⟩⟩
  rw [← hget i hi, get_extract _ (by omega), Nat.zero_add]

end

end Apfs.Bytes
