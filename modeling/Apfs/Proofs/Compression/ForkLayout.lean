import Apfs.Compression.Method
import Apfs.Compression.ResourceFork
import Apfs.Proofs.Layout.Lossless

namespace Apfs.ResourceFork

/-!
# What a resource fork holds

The two ways to lay out chunks in a fork, as relations between the fork and the chunks with their
places, and the proof that the chunks that are found are those that stand there.

* `lowWord`, `highWord` — numbers of four bytes.
* `Located`, `Adjacent` — the fork holds chunks at the given places.
* `locatedChunks_eq_ok_iff`, `adjacentChunks_eq_ok_iff` — the chunks that are found in a fork.
* `Packed`, `Counts` — the layout that goes with a compression method, and what the table says.
* `Packed.unique`, `Packed.of_cut` — a fork holds chunks in one way only, and a fork that was cut off
  holds nothing else.
-/

open Bytes (StandsAt)

/-! ### Words -/

/-- The four bytes of a number, least significant first. -/
def lowWord (n : Nat) : ByteArray := ⟨(Bytes.littleEndian 4 n).toArray⟩

/-- The four bytes of a number, most significant first. -/
def highWord (n : Nat) : ByteArray := ⟨(Bytes.littleEndian 4 n).reverse.toArray⟩

section

variable {fault : CompressionFault} {fork : ByteArray} {offset n : Nat}

/-- A number is read where its bytes stand, in whichever order they are. -/
theorem word_eq_ok_iff {number : List UInt8 → Nat} {bytes : Nat → List UInt8}
    (hlength : ∀ n, (bytes n).length = 4) (hnumber : ∀ n < 2 ^ 32, number (bytes n) = n)
    (hbytes : ∀ l, l.length = 4 → number l < 2 ^ 32 ∧ bytes (number l) = l) :
    word number fault fork offset = .ok n ↔
      n < 2 ^ 32 ∧ StandsAt fork offset ⟨(bytes n).toArray⟩ := by
  constructor
  · intro h
    unfold word at h
    cases hslice : Bytes.slice? fork offset 4 with
    | none => simp [hslice] at h
    | some piece =>
      obtain ⟨hsize, hstands⟩ := Bytes.standsAt_of_slice? hslice
      have hread : number piece.toList = n := by simpa [hslice] using h
      have hlist : piece.toList.length = 4 := by
        rw [Bytes.toList_eq]
        exact hsize
      obtain ⟨hlt, hback⟩ := hbytes _ hlist
      rw [hread] at hlt hback
      rw [hback, Bytes.toList_eq, Array.toArray_toList]
      exact ⟨hlt, hstands⟩
  · rintro ⟨hlt, hstands⟩
    have hsize : (ByteArray.mk (bytes n).toArray).size = 4 := hlength n
    rw [StandsAt, hsize] at hstands
    rw [word, hstands]
    show Except.ok (number (ByteArray.mk (bytes n).toArray).toList) = _
    rw [Bytes.toList_eq, List.toList_toArray, hnumber n hlt]

theorem ofLittleEndian_littleEndian_of_lt (h : n < 2 ^ 32) :
    Bytes.ofLittleEndian (Bytes.littleEndian 4 n) = n := by
  rw [Bytes.ofLittleEndian_littleEndian, Nat.one_shiftLeft]
  exact Nat.mod_eq_of_lt h

/-- A number of a table is read where it stands. -/
theorem tableWord_eq_ok_iff :
    tableWord fork offset = .ok n ↔ n < 2 ^ 32 ∧ StandsAt fork offset (lowWord n) := by
  apply word_eq_ok_iff (Bytes.length_littleEndian 4)
  · intro n hn
    exact ofLittleEndian_littleEndian_of_lt hn
  · intro l hl
    have hlt := Bytes.ofLittleEndian_lt l
    rw [hl] at hlt
    refine ⟨hlt, ?_⟩
    rw [← hl, Bytes.littleEndian_ofLittleEndian]

/-- The offset of the data is read where it stands. -/
theorem headerWord_eq_ok_iff :
    word Bytes.ofBigEndian .resourceHeader fork offset = .ok n ↔
      n < 2 ^ 32 ∧ StandsAt fork offset (highWord n) := by
  refine @word_eq_ok_iff _ _ _ _ _ (fun n => (Bytes.littleEndian 4 n).reverse) ?_ ?_ ?_
  · intro n
    rw [List.length_reverse, Bytes.length_littleEndian]
  · intro n hn
    rw [Bytes.ofBigEndian, List.reverse_reverse, ofLittleEndian_littleEndian_of_lt hn]
  · intro l hl
    have hlt := Bytes.ofBigEndian_lt l
    rw [hl] at hlt
    refine ⟨hlt, ?_⟩
    rw [← List.length_reverse] at hl
    rw [Bytes.ofBigEndian, ← hl, Bytes.littleEndian_ofLittleEndian, List.reverse_reverse]

/-- At one offset stands only one number. -/
theorem eq_of_lowWord {m : Nat} (hm : m < 2 ^ 32 ∧ StandsAt fork offset (lowWord m))
    (hn : n < 2 ^ 32 ∧ StandsAt fork offset (lowWord n)) : m = n :=
  Except.ok.inj ((tableWord_eq_ok_iff.mpr hm).symm.trans (tableWord_eq_ok_iff.mpr hn))

theorem eq_of_highWord {m : Nat} (hm : m < 2 ^ 32 ∧ StandsAt fork offset (highWord m))
    (hn : n < 2 ^ 32 ∧ StandsAt fork offset (highWord n)) : m = n :=
  Except.ok.inj ((headerWord_eq_ok_iff.mpr hm).symm.trans (headerWord_eq_ok_iff.mpr hn))

/-- A chunk is found where it stands. -/
theorem chunk_eq_ok_iff {start size : Nat} {unit : ByteArray} :
    chunk fork start size = .ok unit ↔ unit.size = size ∧ StandsAt fork start unit := by
  constructor
  · intro h
    unfold chunk at h
    cases hslice : Bytes.slice? fork start size with
    | none => simp [hslice] at h
    | some piece =>
      obtain rfl : piece = unit := by simpa [hslice] using h
      exact Bytes.standsAt_of_slice? hslice
  · rintro ⟨rfl, hstands⟩
    rw [chunk, hstands]

end

/-! ### Lists of results -/

section

variable {α β : Type}

/-- Results are collected after those that were found if all of them are.  By induction on the number
    of results that are still to be collected. -/
theorem collectFrom_eq_ok_iff {f : Nat → Except Error α} {count index : Nat}
    {found all : Array α} :
    collectFrom f count index found = .ok all ↔
      ∃ more, all.toList = found.toList ++ more ∧ more.length = count ∧
        ∀ j a, more[j]? = some a → f (index + j) = .ok a := by
  induction count generalizing index found with
  | zero =>
    constructor
    · intro h
      obtain rfl : found = all := Except.ok.inj h
      exact ⟨[], by simp, rfl, by simp⟩
    · rintro ⟨more, hall, hlength, -⟩
      rw [List.eq_nil_of_length_eq_zero hlength, List.append_nil, Array.toList_inj] at hall
      rw [hall]
      rfl
  | succ count ih =>
    rw [collectFrom, sequence_eq_ok_iff]
    simp only [ih]
    constructor
    · rintro ⟨a, ha, more, hall, hlength, hmore⟩
      refine ⟨a :: more, by simp [hall], by simp [hlength], fun j b hj => ?_⟩
      cases j with
      | zero =>
        obtain rfl : a = b := by simpa using hj
        exact ha
      | succ j =>
        rw [show index + (j + 1) = index + 1 + j by omega]
        exact hmore j b (by simpa using hj)
    · rintro ⟨more, hall, hlength, hmore⟩
      cases more with
      | nil => simp at hlength
      | cons a more =>
        refine ⟨a, hmore 0 a rfl, more, by simp [hall], by simpa using hlength, fun j b hj => ?_⟩
        rw [show index + 1 + j = index + (j + 1) by omega]
        exact hmore (j + 1) b (by simpa using hj)

/-- Results are collected if all of them are. -/
theorem collect_eq_ok_iff {f : Nat → Except Error α} {count : Nat} {all : Array α} :
    collect count f = .ok all ↔
      all.toList.length = count ∧ ∀ j a, all.toList[j]? = some a → f j = .ok a := by
  rw [collect, collectFrom_eq_ok_iff]
  simp

/-- An array is mapped if its list is. -/
theorem array_mapM_eq_ok_iff {f : α → Except Error β} {l : Array α} {results : Array β} :
    l.mapM f = .ok results ↔ List.Forall₂ (fun a b => f a = .ok b) l.toList results.toList := by
  rw [Array.mapM_eq_mapM_toList, ← mapM_eq_ok_iff]
  cases l.toList.mapM f with
  | error e => simp [Functor.map, Except.map]
  | ok mapped =>
    show Except.ok mapped.toArray = Except.ok results ↔ _
    simp only [Except.ok.injEq]
    exact ⟨fun h => h ▸ rfl, fun h => h ▸ rfl⟩

/-- Elements of two lists, by index. -/
theorem forall₂_iff_getElem? {R : α → β → Prop} {l : List α} {m : List β} :
    List.Forall₂ R l m ↔
      m.length = l.length ∧ ∀ (i : Nat) (b : β), m[i]? = some b → ∃ a, l[i]? = some a ∧ R a b := by
  rw [List.forall₂_iff_get, eq_comm]
  refine and_congr_right fun hlength => ⟨fun h i b hi => ?_, fun h i hi hi' => ?_⟩
  · obtain ⟨hlt, rfl⟩ := List.getElem?_eq_some_iff.mp hi
    exact ⟨l[i], List.getElem?_eq_getElem (by omega), h i (by omega) hlt⟩
  · obtain ⟨a, ha, hR⟩ := h i m[i] (List.getElem?_eq_getElem hi')
    obtain ⟨hlt, rfl⟩ := List.getElem?_eq_some_iff.mp ha
    exact hR

/-- Elements for each of which there is a companion can be listed with their companions. -/
theorem exists_companions {l : List α} {P : Nat → β → α → Prop}
    (h : ∀ i a, l[i]? = some a → ∃ b, P i b a) :
    ∃ pairs : List (β × α), pairs.map Prod.snd = l ∧
      ∀ i b a, pairs[i]? = some (b, a) → P i b a := by
  induction l generalizing P with
  | nil => exact ⟨[], rfl, by simp⟩
  | cons a l ih =>
    obtain ⟨b, hb⟩ := h 0 a rfl
    obtain ⟨pairs, hpairs, hrest⟩ := @ih (fun i => P (i + 1)) fun i => h (i + 1)
    refine ⟨(b, a) :: pairs, by simp [hpairs], fun i b' a' hi => ?_⟩
    cases i with
    | zero =>
      obtain ⟨rfl, rfl⟩ : b = b' ∧ a = a' := by simpa using hi
      exact hb
    | succ i => exact hrest i b' a' (by simpa using hi)

end

/-! ### Chunks anywhere in the fork -/

/-- The line `i` of the table gives the place of the chunk, which stands there.  Offsets count from
    the number of chunks. -/
def LocatedAt (fork : ByteArray) (dataOffset i start : Nat) (unit : ByteArray) : Prop :=
  ∃ offset, start = dataOffset + 4 + offset ∧
    (offset < 2 ^ 32 ∧ StandsAt fork (dataOffset + 8 + 8 * i) (lowWord offset)) ∧
    (unit.size < 2 ^ 32 ∧ StandsAt fork (dataOffset + 12 + 8 * i) (lowWord unit.size)) ∧
    StandsAt fork start unit

/-- The fork holds located chunks: from `dataOffset` on the data, with its own length first, then the
    number of chunks, then the offset and the size of each.  A chunk may be anywhere after that
    number, in any order and with anything between the chunks. -/
structure Located (fork : ByteArray) (dataOffset : Nat) (places : List (Nat × ByteArray)) :
    Prop where
  large : headerSize ≤ fork.size
  header : dataOffset < 2 ^ 32 ∧ StandsAt fork 0 (highWord dataOffset)
  count : places.length < 2 ^ 32 ∧ StandsAt fork (dataOffset + 4) (lowWord places.length)
  places : ∀ i start unit, places[i]? = some (start, unit) →
    LocatedAt fork dataOffset i start unit

/-- **Located chunks** are found exactly where the fork holds them. -/
theorem locatedChunks_eq_ok_iff {fork : ByteArray} {chunks : Array ByteArray} :
    locatedChunks fork = .ok chunks ↔
      ∃ dataOffset places, Located fork dataOffset places ∧
        places.map Prod.snd = chunks.toList := by
  have hline (dataOffset i : Nat) :
      dataOffset + 4 + 4 + 8 * i = dataOffset + 8 + 8 * i ∧
        dataOffset + 8 + 8 * i + 4 = dataOffset + 12 + 8 * i := by omega
  unfold locatedChunks
  simp only [guarded_eq_ok_iff, sequence_eq_ok_iff, headerWord_eq_ok_iff, tableWord_eq_ok_iff,
    collect_eq_ok_iff, chunk_eq_ok_iff, Nat.not_lt, (hline _ _).1, (hline _ _).2]
  constructor
  · rintro ⟨hlarge, dataOffset, hheader, count, hcount, rfl, hchunks⟩
    have hplaces (i : Nat) (unit : ByteArray) (hi : chunks.toList[i]? = some unit) :
        ∃ start, LocatedAt fork dataOffset i start unit := by
      obtain ⟨offset, hoffset, size, hsize, rfl, hunit⟩ := hchunks i unit hi
      exact ⟨_, offset, rfl, hoffset, hsize, hunit⟩
    -- Each line has an offset, so every chunk has a place.
    obtain ⟨places, hunits, hplaces⟩ := exists_companions hplaces
    refine ⟨dataOffset, places, ⟨hlarge, hheader, ?_, hplaces⟩, hunits⟩
    rwa [← hunits, List.length_map] at hcount
  · rintro ⟨dataOffset, places, ⟨hlarge, hheader, hcount, hplaces⟩, hunits⟩
    refine ⟨hlarge, dataOffset, hheader, places.length, hcount, ?_, fun i unit hi => ?_⟩
    · rw [← hunits, List.length_map]
    · rw [← hunits, List.getElem?_map, Option.map_eq_some_iff] at hi
      obtain ⟨⟨start, unit⟩, hi, rfl⟩ := hi
      obtain ⟨offset, rfl, hoffset, hsize, hunit⟩ := hplaces i start unit hi
      exact ⟨offset, hoffset, unit.size, hsize, rfl, hunit⟩

/-! ### Chunks one after the other -/

/-- Two neighbours in the table give the place of a chunk. -/
theorem window_eq_ok_iff {fork unit : ByteArray} {start stop : Nat} :
    (if stop < start then throw (.compression .chunkOrder) else chunk fork start (stop - start))
        = Except.ok unit ↔ stop = start + unit.size ∧ StandsAt fork start unit := by
  by_cases hlt : stop < start
  · rw [if_pos hlt]
    refine ⟨fun h => ?_, fun h => ?_⟩
    · cases h
    · omega
  · rw [if_neg hlt, chunk_eq_ok_iff]
    refine and_congr_left fun _ => ?_
    omega

/-- All neighbours in the table give the places of the chunks. -/
theorem windows_eq_ok_iff {fork : ByteArray} {offsets : Array Nat} {chunks : Array ByteArray} :
    (offsets.zip (offsets.extract 1 offsets.size)).mapM (fun (start, stop) =>
      if stop < start then throw (.compression .chunkOrder) else chunk fork start (stop - start))
        = Except.ok chunks ↔
      chunks.toList.length = offsets.toList.length - 1 ∧
        ∀ i unit, chunks.toList[i]? = some unit → ∃ start, offsets.toList[i]? = some start ∧
          offsets.toList[i + 1]? = some (start + unit.size) ∧ StandsAt fork start unit := by
  rw [array_mapM_eq_ok_iff, forall₂_iff_getElem?, Array.toList_zip, Array.toList_extract]
  have htail : offsets.toList.extract 1 offsets.size = offsets.toList.drop 1 := by
    rw [List.extract_eq_take_drop]
    apply List.take_of_length_le
    rw [List.length_drop, Array.length_toList]
  rw [htail, List.length_zip, List.length_drop, Nat.min_eq_right (Nat.sub_le ..)]
  refine and_congr_right fun _ => forall_congr' fun i => forall_congr' fun unit =>
    imp_congr_right fun _ => ?_
  constructor
  · rintro ⟨⟨start, stop⟩, hpair, hunit⟩
    rw [List.getElem?_zip_eq_some, List.getElem?_drop, Nat.add_comm] at hpair
    obtain ⟨rfl, hstands⟩ := window_eq_ok_iff.mp hunit
    exact ⟨start, hpair.1, hpair.2, hstands⟩
  · rintro ⟨start, hstart, hstop, hstands⟩
    refine ⟨(start, start + unit.size), ?_, window_eq_ok_iff.mpr ⟨rfl, hstands⟩⟩
    rw [List.getElem?_zip_eq_some, List.getElem?_drop, Nat.add_comm 1]
    exact ⟨hstart, hstop⟩

/-- Where the chunk `i` starts, or the last one ends, when the chunks stand one after the other
    behind their table. -/
def boundary (places : List (Nat × ByteArray)) (i : Nat) : Nat :=
  4 * (places.length + 1) + ((places.take i).map fun place => place.2.size).sum

/-- The fork holds adjacent chunks: a table of where each of them starts and where the last one ends,
    then the chunks without anything between them.  There is at least one. -/
structure Adjacent (fork : ByteArray) (places : List (Nat × ByteArray)) : Prop where
  nonempty : 0 < places.length
  table : ∀ i ≤ places.length, boundary places i < 2 ^ 32 ∧
    StandsAt fork (4 * i) (lowWord (boundary places i))
  places : ∀ i start unit, places[i]? = some (start, unit) →
    start = boundary places i ∧ StandsAt fork start unit

theorem boundary_zero (places : List (Nat × ByteArray)) :
    boundary places 0 = 4 * (places.length + 1) := by
  simp [boundary]

theorem boundary_succ {places : List (Nat × ByteArray)} {i start : Nat} {unit : ByteArray}
    (h : places[i]? = some (start, unit)) :
    boundary places (i + 1) = boundary places i + unit.size := by
  rw [boundary, boundary, List.take_add_one, h]
  simp
  omega

/-- The offsets in the table are the boundaries if the first one is, and from one to the next it is
    as far as the chunk between them is long. -/
theorem getElem?_eq_boundary {offsets : List Nat} {places : List (Nat × ByteArray)}
    (hzero : offsets[0]? = some (boundary places 0))
    (hplaces : ∀ (i start : Nat) unit, places[i]? = some (start, unit) →
      offsets[i]? = some start ∧ offsets[i + 1]? = some (start + unit.size)) :
    ∀ i ≤ places.length, offsets[i]? = some (boundary places i) := by
  intro i hi
  induction i with
  | zero => exact hzero
  | succ i ih =>
    have hplace : places[i]? = some (places[i].1, places[i].2) := List.getElem?_eq_getElem hi
    obtain ⟨hstart, hstop⟩ := hplaces i _ _ hplace
    rw [ih (by omega)] at hstart
    rw [hstop, boundary_succ hplace, Option.some.inj hstart]

/-- **Adjacent chunks** are found exactly where the fork holds them. -/
theorem adjacentChunks_eq_ok_iff {fork : ByteArray} {chunks : Array ByteArray} :
    adjacentChunks fork = .ok chunks ↔
      ∃ places, Adjacent fork places ∧ places.map Prod.snd = chunks.toList := by
  unfold adjacentChunks
  simp only [guarded_eq_ok_iff, sequence_eq_ok_iff, tableWord_eq_ok_iff, collect_eq_ok_iff,
    windows_eq_ok_iff]
  constructor
  · rintro ⟨tableSize, hfirst, hsize, offsets, ⟨hcount, hoffsets⟩, hlength, hchunks⟩
    obtain ⟨places, hunits, hplaces⟩ := exists_companions hchunks
    have hplacesLength : places.length = chunks.toList.length := by rw [← hunits, List.length_map]
    have htable : tableSize = 4 * (places.length + 1) := by omega
    have hzero : offsets.toList[0]? = some (boundary places 0) := by
      have hget := List.getElem?_eq_getElem (show 0 < offsets.toList.length by omega)
      rw [hget, eq_of_lowWord (hoffsets 0 _ hget) hfirst, boundary_zero, htable]
    have hboundary := getElem?_eq_boundary hzero fun i start unit hi =>
      ⟨(hplaces i start unit hi).1, (hplaces i start unit hi).2.1⟩
    refine ⟨places, ⟨by omega, fun i hi => hoffsets i _ (hboundary i hi), ?_⟩, hunits⟩
    intro i start unit hi
    obtain ⟨hstart, -, hstands⟩ := hplaces i start unit hi
    have hlt := (List.getElem?_eq_some_iff.mp hi).1
    rw [hboundary i (by omega)] at hstart
    exact ⟨(Option.some.inj hstart).symm, hstands⟩
  · rintro ⟨places, ⟨hnonempty, htable, hplaces⟩, hunits⟩
    have hlength : chunks.toList.length = places.length := by rw [← hunits, List.length_map]
    have hfirst := htable 0 (Nat.zero_le _)
    -- The offsets that are read are the boundaries, of which the first is the size of the table.
    have hget (i : Nat) (hi : i ≤ places.length) :
        ((List.range (places.length + 1)).map (boundary places))[i]? =
          some (boundary places i) := by
      rw [List.getElem?_map, List.getElem?_range (by omega)]
      rfl
    refine ⟨boundary places 0, hfirst, ?_, ((List.range (places.length + 1)).map
      (boundary places)).toArray, ⟨?_, fun i offset hi => ?_⟩, ?_, fun i unit hi => ?_⟩
    · rw [boundary_zero]
      omega
    · rw [boundary_zero, List.length_map, List.length_range]
      omega
    · rw [List.getElem?_map, Option.map_eq_some_iff] at hi
      obtain ⟨j, hj, rfl⟩ := hi
      obtain ⟨hlt, rfl⟩ := List.getElem?_eq_some_iff.mp hj
      rw [List.length_range] at hlt
      rw [List.getElem_range]
      exact htable i (by omega)
    · rw [hlength, List.length_map, List.length_range]
      rfl
    · rw [← hunits, List.getElem?_map, Option.map_eq_some_iff] at hi
      obtain ⟨⟨start, unit⟩, hi, rfl⟩ := hi
      obtain ⟨rfl, hunit⟩ := hplaces i start unit hi
      have hlt := (List.getElem?_eq_some_iff.mp hi).1
      refine ⟨boundary places i, hget i (by omega), ?_, hunit⟩
      rw [hget (i + 1) hlt, boundary_succ hi]

/-! ### Forks of either kind -/

/-- The fork holds chunks at the given places, as files of the method lay them out. -/
def Packed (method : CompressionMethod) (fork : ByteArray) (places : List (Nat × ByteArray)) :
    Prop :=
  if method = .zlibFork then ∃ dataOffset, Located fork dataOffset places
  else Adjacent fork places

/-- The table of the fork says that there are `count` chunks. -/
def Counts (method : CompressionMethod) (fork : ByteArray) (count : Nat) : Prop :=
  if method = .zlibFork then
    ∃ dataOffset, (dataOffset < 2 ^ 32 ∧ StandsAt fork 0 (highWord dataOffset)) ∧
      count < 2 ^ 32 ∧ StandsAt fork (dataOffset + 4) (lowWord count)
  else 4 * (count + 1) < 2 ^ 32 ∧ StandsAt fork 0 (lowWord (4 * (count + 1)))

section

variable {method : CompressionMethod} {fork : ByteArray} {places places' : List (Nat × ByteArray)}

theorem chunks_eq_ok_iff {chunks : Array ByteArray} :
    (if method = .zlibFork then locatedChunks fork else adjacentChunks fork) = .ok chunks ↔
      ∃ places, Packed method fork places ∧ places.map Prod.snd = chunks.toList := by
  unfold Packed
  split
  · rw [locatedChunks_eq_ok_iff]
    constructor
    · rintro ⟨dataOffset, places, h, hunits⟩
      exact ⟨places, ⟨dataOffset, h⟩, hunits⟩
    · rintro ⟨places, ⟨dataOffset, h⟩, hunits⟩
      exact ⟨dataOffset, places, h, hunits⟩
  · exact adjacentChunks_eq_ok_iff

/-- The table of a fork says how many chunks the fork holds. -/
theorem Packed.counts (h : Packed method fork places) : Counts method fork places.length := by
  unfold Packed at h
  unfold Counts
  split
  · rw [if_pos ‹_›] at h
    obtain ⟨dataOffset, h⟩ := h
    exact ⟨dataOffset, h.header, h.count⟩
  · rw [if_neg ‹_›] at h
    have hfirst := h.table 0 (Nat.zero_le _)
    rwa [boundary_zero] at hfirst

/-- A table says only one number. -/
theorem Counts.unique {m n : Nat} (hm : Counts method fork m) (hn : Counts method fork n) :
    m = n := by
  unfold Counts at hm hn
  split at hm
  · rw [if_pos ‹_›] at hn
    obtain ⟨dataOffset, hheader, hm⟩ := hm
    obtain ⟨dataOffset', hheader', hn⟩ := hn
    obtain rfl := eq_of_highWord hheader hheader'
    exact eq_of_lowWord hm hn
  · rw [if_neg ‹_›] at hn
    have heq := eq_of_lowWord hm hn
    omega

/-- Lists of places are the same if they are as long and have the same places. -/
theorem eq_of_places (hlength : places.length = places'.length)
    (h : ∀ (i start : Nat) unit start' unit', places[i]? = some (start, unit) →
      places'[i]? = some (start', unit') → start = start' ∧ unit = unit') : places = places' := by
  apply List.ext_getElem hlength
  intro i hi hi'
  obtain ⟨hstart, hunit⟩ := h i _ _ _ _ (List.getElem?_eq_getElem hi) (List.getElem?_eq_getElem hi')
  exact Prod.ext hstart hunit

theorem Located.unique {dataOffset dataOffset' : Nat} (h : Located fork dataOffset places)
    (h' : Located fork dataOffset' places') : places = places' := by
  obtain rfl := eq_of_highWord h.header h'.header
  apply eq_of_places (eq_of_lowWord h.count h'.count)
  intro i start unit start' unit' hi hi'
  obtain ⟨offset, rfl, hoffset, hsize, hunit⟩ := h.places i start unit hi
  obtain ⟨offset', rfl, hoffset', hsize', hunit'⟩ := h'.places i start' unit' hi'
  obtain rfl := eq_of_lowWord hoffset hoffset'
  exact ⟨rfl, hunit.unique hunit' (eq_of_lowWord hsize hsize')⟩

theorem Adjacent.unique (h : Adjacent fork places) (h' : Adjacent fork places') :
    places = places' := by
  -- The first offset is the size of the table, which tells the number of chunks.
  have hfirst := eq_of_lowWord (h.table 0 (Nat.zero_le _)) (h'.table 0 (Nat.zero_le _))
  rw [boundary_zero, boundary_zero] at hfirst
  have hlength : places.length = places'.length := by omega
  have hboundary (i : Nat) (hi : i ≤ places.length) : boundary places i = boundary places' i :=
    eq_of_lowWord (h.table i hi) (h'.table i (by omega))
  apply eq_of_places hlength
  intro i start unit start' unit' hi hi'
  have hlt := (List.getElem?_eq_some_iff.mp hi).1
  have hnext := hboundary (i + 1) hlt
  rw [boundary_succ hi, boundary_succ hi', hboundary i hlt.le] at hnext
  obtain ⟨rfl, hunit⟩ := h.places i start unit hi
  obtain ⟨rfl, hunit'⟩ := h'.places i start' unit' hi'
  rw [← hboundary i hlt.le] at hunit' ⊢
  exact ⟨rfl, hunit.unique hunit' (Nat.add_left_cancel hnext)⟩

/-- A fork holds chunks at one list of places only. -/
theorem Packed.unique (h : Packed method fork places) (h' : Packed method fork places') :
    places = places' := by
  unfold Packed at h h'
  split at h
  · rw [if_pos ‹_›] at h'
    obtain ⟨dataOffset, h⟩ := h
    obtain ⟨dataOffset', h'⟩ := h'
    exact h.unique h'
  · rw [if_neg ‹_›] at h'
    exact h.unique h'

/-- What a fork that was cut off holds was before the cut, and the whole fork holds it too. -/
theorem Packed.of_cut {stop : Nat} (h : Packed method (fork.extract 0 stop) places) :
    Packed method fork places ∧
      ∀ (i start : Nat) (unit : ByteArray), places[i]? = some (start, unit) →
        start + unit.size ≤ stop := by
  unfold Packed at *
  split at h
  · rw [if_pos ‹_›]
    obtain ⟨dataOffset, hlarge, hheader, hcount, hplaces⟩ := h
    rw [ByteArray.size_extract] at hlarge
    refine ⟨⟨dataOffset, by omega, ⟨hheader.1, hheader.2.of_cut.2⟩, ⟨hcount.1, hcount.2.of_cut.2⟩,
      fun i start unit hi => ?_⟩, fun i start unit hi => ?_⟩
    · obtain ⟨offset, hstart, hoffset, hsize, hunit⟩ := hplaces i start unit hi
      exact ⟨offset, hstart, ⟨hoffset.1, hoffset.2.of_cut.2⟩, ⟨hsize.1, hsize.2.of_cut.2⟩,
        hunit.of_cut.2⟩
    · obtain ⟨offset, -, -, -, hunit⟩ := hplaces i start unit hi
      exact hunit.of_cut.1
  · rw [if_neg ‹_›]
    obtain ⟨hnonempty, htable, hplaces⟩ := h
    refine ⟨⟨hnonempty, fun i hi => ⟨(htable i hi).1, (htable i hi).2.of_cut.2⟩,
      fun i start unit hi => ?_⟩, fun i start unit hi => (hplaces i start unit hi).2.of_cut.1⟩
    obtain ⟨hstart, hunit⟩ := hplaces i start unit hi
    exact ⟨hstart, hunit.of_cut.2⟩

end

end Apfs.ResourceFork
