import Apfs.Compression.InPlace.CodeTable
import Apfs.Proofs.Compression.CanonicalCode

namespace Apfs

/-!
# Filling the table of a code

A table is filled by counting.  The symbols of one length go to a range of places, which starts
where the range of the length before ends; a symbol goes to the place of its rank among them.  So
they end up in the order of their code words.

* `tabulate` — arrays given by functions, and what accesses do to them.
* `countLengths_eq`, `firstPlaces_eq` — the numbers of code words, and the ranges.
* `Placed`, `exists_foldlM_place` — the symbols that stand in their places, and how they get there.
* `IsTableOf`, `exists_build_eq`, `ofLengths_eq` — the table that is filled is that of the code.
-/

/-! ### Arrays given by functions -/

/-- The array of the first `n` values of a function. -/
def tabulate {α : Type} (n : Nat) (f : Nat → α) : Array α := Array.ofFn fun i : Fin n => f i

section

variable {α : Type} {n : Nat} {f : Nat → α} {m : Type → Type} [Monad m] [MonadExceptOf Stop m]

@[simp] theorem size_tabulate : (tabulate n f).size = n := Array.size_ofFn

theorem tabulate_congr {g : Nat → α} (h : ∀ i < n, f i = g i) : tabulate n f = tabulate n g :=
  congrArg Array.ofFn (funext fun i => h i i.isLt)

theorem replicate_eq_tabulate (n : Nat) (x : α) : Array.replicate n x = tabulate n fun _ => x := by
  apply Array.ext
  · simp
  · intro i hi hi'
    simp [tabulate]

theorem toList_tabulate : (tabulate n f).toList = (List.range n).map f := by
  apply List.ext_getElem
  · simp
  · intro i hi hi'
    simp [tabulate]

theorem readAt_tabulate {i : Nat} (h : i < n) : (readAt (tabulate n f) i : m α) = pure (f i) := by
  rw [readAt_of_lt (by rw [size_tabulate]; exact h)]
  simp [tabulate]

theorem writeAt_tabulate {i : Nat} (h : i < n) (x : α) :
    (writeAt (tabulate n f) i x : m (Array α)) = pure (tabulate n (Function.update f i x)) := by
  rw [writeAt_of_lt (by rw [size_tabulate]; exact h)]
  congr 1
  apply Array.ext
  · simp
  · intro j hj hj'
    rw [Array.getElem_set]
    by_cases hij : i = j
    · simp [tabulate, hij]
    · rw [if_neg hij]
      simp [tabulate, Function.update_of_ne (Ne.symm hij)]

end

namespace CodeTable

variable {lengths : List Nat}

/-! ### Counting -/

/-- Lengths are counted one after the other. -/
theorem foldlM_count (hlong : ∀ l ∈ lengths, l ≤ 15) (f : Nat → Nat) :
    lengths.foldlM (fun counts l => do writeAt counts l ((← readAt counts l) + 1)) (tabulate 16 f)
      = (pure (tabulate 16 fun l => f l + lengths.count l) : Except Stop (Array Nat)) := by
  induction lengths generalizing f with
  | nil => rfl
  | cons k lengths ih =>
    obtain ⟨hk, hrest⟩ := List.forall_mem_cons.mp hlong
    rw [List.foldlM_cons, readAt_tabulate (Nat.lt_succ_of_le hk), pure_bind,
      writeAt_tabulate (Nat.lt_succ_of_le hk), pure_bind, ih hrest]
    congr 2
    funext l
    rw [List.count_cons]
    by_cases hl : k = l
    · rw [hl, Function.update_self, if_pos (beq_self_eq_true l)]
      omega
    · rw [Function.update_of_ne (Ne.symm hl), if_neg (by simpa using hl)]
      omega

/-- The numbers of code words of each length. -/
theorem countLengths_eq (hlong : ∀ l ∈ lengths, l ≤ 15) :
    countLengths lengths = .ok (tabulate 16 (wordCount lengths)) := by
  unfold countLengths
  rw [show PrefixCode.maxLength + 1 = 16 from rfl, replicate_eq_tabulate, foldlM_count hlong,
    pure_bind, writeAt_tabulate (by decide)]
  refine congrArg Except.ok (tabulate_congr fun l _ => ?_)
  unfold wordCount
  by_cases hl : l = 0
  · rw [hl, Function.update_self, if_pos rfl]
  · rw [Function.update_of_ne hl, if_neg hl, Nat.zero_add]

/-! ### Places -/

/-- The first place of the symbols of each length. -/
def firstPlace (lengths : List Nat) : Nat → Nat
  | 0 => 0
  | l + 1 => firstPlace lengths l + wordCount lengths l

theorem firstPlace_mono {k l : Nat} (h : k ≤ l) : firstPlace lengths k ≤ firstPlace lengths l :=
  monotone_nat_of_le_succ (f := firstPlace lengths)
    (fun l => Nat.le_add_right _ (wordCount lengths l)) h

/-- The first places of all lengths come from the counts before them. -/
theorem firstPlaces_eq : firstPlaces (tabulate 16 (wordCount lengths))
    = .ok (tabulate 17 (firstPlace lengths)) := by
  have hloop (k : Nat) (hk : k ≤ 15) : (List.range' 1 k).foldlM
      (fun places l => do
        writeAt places (l + 1)
          ((← readAt places l) + (← readAt (tabulate 16 (wordCount lengths)) l)))
      (tabulate 17 fun _ => 0)
      = (pure (tabulate 17 fun i => if i ≤ k + 1 then firstPlace lengths i else 0) :
        Except Stop (Array Nat)) := by
    induction k with
    | zero =>
      refine congrArg Except.ok (tabulate_congr fun i _ => ?_)
      by_cases hi : i ≤ 0 + 1
      · rw [if_pos hi]
        match i with
        | 0 => rfl
        | 1 => rfl
      · rw [if_neg hi]
    | succ k ih =>
      rw [List.range'_1_concat, List.foldlM_append, ih (by omega), pure_bind, List.foldlM_cons,
        readAt_tabulate (by omega), pure_bind, readAt_tabulate (by omega), pure_bind,
        writeAt_tabulate (by omega), pure_bind, List.foldlM_nil]
      refine congrArg Except.ok (tabulate_congr fun i _ => ?_)
      by_cases hi : i = 1 + k + 1
      · rw [hi, Function.update_self, if_pos (by omega), if_pos (by omega)]
        rfl
      · rw [Function.update_of_ne hi]
        by_cases hle : i ≤ k + 1
        · rw [if_pos hle, if_pos (by omega)]
        · rw [if_neg hle, if_neg (by omega)]
  unfold firstPlaces
  rw [show PrefixCode.maxLength + 2 = 17 from rfl, replicate_eq_tabulate]
  refine (hloop 15 le_rfl).trans (congrArg Except.ok (tabulate_congr fun i hi => ?_))
  rw [if_pos (by omega)]

/-! ### Symbols -/

/-- The first `i` symbols stand in their places: those of each length in the range for it, by their
    rank among them. -/
structure Placed (lengths : List Nat) (i : Nat) (symbols : Array Nat) : Prop where
  size_eq : symbols.size = firstPlace lengths 16
  getElem?_eq : ∀ s < i, ∀ l, lengths[s]? = some l → l ≠ 0 →
    symbols[firstPlace lengths l + (lengths.take s).count l]? = some s

/-- The place of a symbol is in the range for its length. -/
theorem place_lt {s l : Nat} (h : lengths[s]? = some l) (hl : l ≠ 0) :
    firstPlace lengths l + (lengths.take s).count l < firstPlace lengths (l + 1) := by
  have hrank := count_take_lt h
  rw [firstPlace, wordCount, if_neg hl]
  omega

/-- Different symbols have different places. -/
theorem place_ne {s i k l : Nat} (hsi : s < i) (hs : lengths[s]? = some l) (hl : l ≠ 0)
    (hi : lengths[i]? = some k) (hk : k ≠ 0) :
    firstPlace lengths l + (lengths.take s).count l
      ≠ firstPlace lengths k + (lengths.take i).count k := by
  have hslt := place_lt hs hl
  have hilt := place_lt hi hk
  rcases lt_trichotomy l k with hlk | rfl | hkl
  · have hmono : firstPlace lengths (l + 1) ≤ firstPlace lengths k := firstPlace_mono hlk
    omega
  · have hs' : (lengths.take i)[s]? = some l := by
      rw [List.getElem?_take_of_lt hsi, hs]
    have hrank := count_take_lt hs'
    rw [List.take_take, Nat.min_eq_left (Nat.le_of_lt hsi)] at hrank
    omega
  · have hmono : firstPlace lengths (k + 1) ≤ firstPlace lengths l := firstPlace_mono hkl
    omega

/-- One more symbol is put to its place. -/
theorem Placed.set {i k : Nat} {symbols : Array Nat} (h : Placed lengths i symbols)
    (hi : lengths[i]? = some k) (hk : k ≠ 0)
    (hslot : firstPlace lengths k + (lengths.take i).count k < symbols.size) :
    Placed lengths (i + 1)
      (symbols.set (firstPlace lengths k + (lengths.take i).count k) i hslot) where
  size_eq := by rw [Array.size_set, h.size_eq]
  getElem?_eq := by
    intro s hs l hget hl
    rw [Array.getElem?_set]
    rcases Nat.lt_succ_iff_lt_or_eq.mp hs with hlt | rfl
    · rw [if_neg (Ne.symm (place_ne hlt hget hl hi hk))]
      exact h.getElem?_eq s hlt l hget hl
    · obtain rfl : k = l := Option.some.inj (hi.symm.trans hget)
      rw [if_pos rfl]

/-- The number of code words of each length among one symbol more. -/
theorem wordCount_take_succ {i k : Nat} (hi : lengths[i]? = some k) :
    wordCount (lengths.take (i + 1))
      = if k = 0 then wordCount (lengths.take i)
        else Function.update (wordCount (lengths.take i)) k (wordCount (lengths.take i) k + 1) := by
  have htake : lengths.take (i + 1) = lengths.take i ++ [k] := by
    rw [List.take_add_one, hi, Option.toList_some]
  funext l
  unfold wordCount
  rw [htake]
  by_cases hk : k = 0
  · rw [if_pos hk]
    by_cases hl : l = 0
    · rw [if_pos hl, if_pos hl]
    · rw [if_neg hl, if_neg hl, List.count_append, List.count_singleton, if_neg, Nat.add_zero]
      rw [beq_iff_eq]
      exact fun h => hl (h.symm.trans hk)
  · rw [if_neg hk]
    by_cases hlk : l = k
    · rw [hlk, Function.update_self, if_neg hk, if_neg hk, List.count_append,
        List.count_singleton_self]
    · rw [Function.update_of_ne hlk]
      by_cases hl : l = 0
      · rw [if_pos hl, if_pos hl]
      · rw [if_neg hl, if_neg hl, List.count_append, List.count_singleton, if_neg, Nat.add_zero]
        rw [beq_iff_eq]
        exact fun h => hlk h.symm

/-- A symbol that has a code word goes to the next place for its length. -/
theorem place_of_ne {symbols : Array Nat} {next : Nat → Nat} {k : Nat} (hk : k ≠ 0) (hle : k ≤ 15)
    (hslot : next k < symbols.size) (s : Nat) :
    place (symbols, tabulate 17 next) (k, s) = pure (symbols.set (next k) s hslot,
      tabulate 17 (Function.update next k (next k + 1))) := by
  simp only [place]
  rw [if_neg hk, readAt_tabulate (by omega), pure_bind, writeAt_of_lt hslot, pure_bind,
    writeAt_tabulate (by omega), pure_bind]

/-- **Symbols are put to their places** one after the other.  By induction on the symbols that are
    left; the next place for each length is behind those of its symbols so far. -/
theorem exists_foldlM_place (hlong : ∀ l ∈ lengths, l ≤ 15) {i : Nat} {symbols : Array Nat}
    (h : Placed lengths i symbols) :
    ∃ symbols' places, ((lengths.drop i).zipIdx i).foldlM place
        (symbols, tabulate 17 fun l => firstPlace lengths l + wordCount (lengths.take i) l)
      = .ok (symbols', places) ∧ Placed lengths lengths.length symbols' := by
  induction hgap : lengths.length - i generalizing i symbols with
  | zero =>
    refine ⟨symbols, _, by rw [List.drop_eq_nil_of_le (by omega)]; rfl, h.size_eq, ?_⟩
    intro s hs l hget hl
    exact h.getElem?_eq s (by omega) l hget hl
  | succ gap ih =>
    have hi : i < lengths.length := by omega
    have hget : lengths[i]? = some lengths[i] := List.getElem?_eq_getElem hi
    have hk : lengths[i] ≤ 15 := hlong _ (List.getElem_mem hi)
    rw [List.drop_eq_getElem_cons hi, List.zipIdx_cons, List.foldlM_cons]
    generalize lengths[i] = k at hget hk
    by_cases hzero : k = 0
    · have hnext : Placed lengths (i + 1) symbols := by
        refine ⟨h.size_eq, fun s hs l hs' hl => ?_⟩
        rcases Nat.lt_succ_iff_lt_or_eq.mp hs with hlt | rfl
        · exact h.getElem?_eq s hlt l hs' hl
        · exact absurd (Option.some.inj (hget.symm.trans hs') ▸ hzero) hl
      obtain ⟨symbols', places, hfold, hplaced⟩ := ih hnext (by omega)
      rw [wordCount_take_succ hget, if_pos hzero] at hfold
      refine ⟨symbols', places, ?_, hplaced⟩
      rw [hzero]
      exact hfold
    · have hslot : firstPlace lengths k + (lengths.take i).count k < symbols.size := by
        have hlt := place_lt hget hzero
        have hmono : firstPlace lengths (k + 1) ≤ firstPlace lengths 16 :=
          firstPlace_mono (by omega)
        rw [h.size_eq]
        omega
      obtain ⟨symbols', places, hfold, hplaced⟩ := ih (h.set hget hzero hslot) (by omega)
      refine ⟨symbols', places, ?_, hplaced⟩
      have hcount : wordCount (lengths.take i) k = (lengths.take i).count k := if_neg hzero
      rw [place_of_ne hzero hk (by rw [hcount]; exact hslot), pure_bind, ← hfold,
        wordCount_take_succ hget, if_neg hzero]
      simp only [hcount]
      congr 3
      funext l
      by_cases hl : l = k
      · rw [hl, Function.update_self, Function.update_self, Nat.add_assoc]
      · rw [Function.update_of_ne hl, Function.update_of_ne hl]

/-- Symbols that stand in their places are those of each length, one length after the other. -/
theorem Placed.toList_eq {symbols : Array Nat} (h : Placed lengths lengths.length symbols) :
    symbols.toList
      = (List.range' 0 15).flatMap fun i => PrefixCode.symbolsOfLength lengths (i + 1) := by
  have hsegments (k : Nat) (hk : k ≤ 15) : symbols.toList.take (firstPlace lengths (k + 1))
      = (List.range' 0 k).flatMap fun i => PrefixCode.symbolsOfLength lengths (i + 1) := by
    induction k with
    | zero => rfl
    | succ k ih =>
      rw [List.range'_1_concat, List.flatMap_append, List.flatMap_singleton, ← ih (by omega),
        Nat.zero_add, firstPlace, wordCount_succ, List.take_add]
      congr 1
      have hlen := length_symbolsOfLength lengths (k + 1)
      apply List.ext_getElem?
      intro j
      by_cases hj : j < lengths.count (k + 1)
      · rw [List.getElem?_take_of_lt hj, List.getElem?_drop]
        have hsymbol := List.getElem?_eq_getElem (l := PrefixCode.symbolsOfLength lengths (k + 1))
          (i := j) (by omega)
        obtain ⟨hget, hrank⟩ := getElem?_symbolsOfLength.mp hsymbol
        have hplace := h.getElem?_eq _ (List.getElem?_eq_some_iff.mp hget).1 _ hget (by omega)
        rw [hrank] at hplace
        rw [hsymbol, Array.getElem?_toList]
        exact hplace
      · rw [List.getElem?_eq_none_iff.mpr (by rw [List.length_take]; omega),
          List.getElem?_eq_none_iff.mpr (by omega)]
  rw [← hsegments 15 le_rfl, List.take_of_length_le]
  rw [Array.length_toList, h.size_eq]

/-! ### Tables and codes -/

theorem ok_bind {ε α β : Type} (a : α) (f : α → Except ε β) : (Except.ok a >>= f) = f a := rfl

/-- The table is that of a code, and has a symbol for each code word. -/
structure IsTableOf (code : PrefixCode) (table : CodeTable) : Prop where
  counts_head : table.counts.toList.take 1 = [0]
  counts_eq : table.counts.toList.drop 1 = code.counts
  symbols_eq : table.symbols = code.symbols
  sum_le : code.counts.sum ≤ code.symbols.size

/-- A code has one table. -/
theorem IsTableOf.unique {code : PrefixCode} {table table' : CodeTable}
    (h : IsTableOf code table) (h' : IsTableOf code table') : table = table' := by
  obtain ⟨counts, symbols⟩ := table
  obtain ⟨counts', symbols'⟩ := table'
  obtain rfl : symbols = symbols' := h.symbols_eq.trans h'.symbols_eq.symm
  have hcounts : counts.toList = counts'.toList := by
    rw [← List.take_append_drop 1 counts.toList, ← List.take_append_drop 1 counts'.toList,
      h.counts_head, h'.counts_head, h.counts_eq, h'.counts_eq]
  rw [Array.toList_inj.mp hcounts]

theorem drop_tabulate (n : Nat) (f : Nat → Nat) :
    (tabulate (n + 1) f).toList.drop 1 = (List.range' 0 n).map fun i => f (i + 1) := by
  rw [toList_tabulate, List.range_succ_eq_map, List.map_cons, List.drop_one, List.tail_cons,
    List.map_map, List.range_eq_range']
  rfl

/-- **Counting fills the table of the code** with the given lengths. -/
theorem exists_build_eq (hlong : ∀ l ∈ lengths, l ≤ 15) :
    ∃ table, build lengths = .ok table ∧ IsTableOf (.build lengths) table := by
  have hstart : Placed lengths 0 (Array.replicate (firstPlace lengths 16) 0) :=
    ⟨Array.size_replicate, fun s hs => absurd hs (Nat.not_lt_zero s)⟩
  obtain ⟨symbols, places, hfold, hplaced⟩ := exists_foldlM_place hlong hstart
  have hnone : (fun l => firstPlace lengths l + wordCount (lengths.take 0) l)
      = firstPlace lengths := by
    funext l
    unfold wordCount
    rw [List.take_zero, List.count_nil, ite_self, Nat.add_zero]
  rw [hnone, List.drop_zero] at hfold
  have hsymbols : (PrefixCode.build lengths).symbols = symbols := by
    rw [← Array.toList_inj, hplaced.toList_eq, PrefixCode.build, List.range_eq_range']
    rfl
  refine ⟨⟨tabulate 16 (wordCount lengths), symbols⟩, ?_, rfl, ?_, hsymbols.symm, ?_⟩
  · have hlast : (readAt (tabulate 17 (firstPlace lengths)) (PrefixCode.maxLength + 1) :
        Except Stop Nat) = .ok (firstPlace lengths 16) := readAt_tabulate (by decide)
    unfold build
    rw [countLengths_eq hlong, ok_bind, firstPlaces_eq, ok_bind, hlast, ok_bind]
    dsimp only
    rw [hfold]
    rfl
  · rw [counts_build]
    exact drop_tabulate 15 _
  · have hsum (k : Nat) : ((List.range' 0 k).map fun i => lengths.count (i + 1)).sum
        = firstPlace lengths (k + 1) := by
      induction k with
      | zero => rfl
      | succ k ih =>
        rw [List.range'_1_concat, List.map_append, List.sum_append, ih, List.map_singleton,
          List.sum_singleton, Nat.zero_add, ← wordCount_succ]
        rfl
    rw [hsymbols, hplaced.size_eq, counts_build, hsum]

/-- **Tables are filled for the lengths that codes are built for**, and are refused with the same
    errors. -/
theorem ofLengths_eq (lengths : List Nat) :
    match PrefixCode.ofLengths lengths with
    | .ok code => ∃ table, ofLengths lengths = .ok table ∧ IsTableOf code table
    | .error e => ofLengths lengths = .error (.failed e) := by
  unfold PrefixCode.ofLengths ofLengths
  by_cases hlen : 65535 < lengths.length
  · rw [if_pos hlen, if_pos hlen]
    rfl
  rw [if_neg hlen, if_neg hlen]
  by_cases hlong : lengths.any (PrefixCode.maxLength < ·) = true
  · rw [if_pos hlong, if_pos hlong]
    rfl
  rw [if_neg hlong, if_neg hlong]
  have hle : ∀ l ∈ lengths, l ≤ 15 := by
    intro l hl
    by_contra hlt
    exact hlong (List.any_eq_true.mpr ⟨l, hl, decide_eq_true (Nat.lt_of_not_le hlt)⟩)
  obtain ⟨table, hbuild, htable⟩ := exists_build_eq hle
  rw [hbuild, ok_bind, htable.counts_eq]
  dsimp only
  by_cases hroom : PrefixCode.hasRoom 1 (PrefixCode.build lengths).counts = true
  · rw [if_pos hroom, if_pos hroom]
    exact ⟨table, rfl, htable⟩
  · rw [if_neg hroom, if_neg hroom]
    rfl

end CodeTable

end Apfs
