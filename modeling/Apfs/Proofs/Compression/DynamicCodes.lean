import Apfs.Compression.Inflate
import Apfs.Proofs.Compression.DeflateFormat

namespace Apfs.Deflate

/-!
# Reading the codes of dynamic blocks

* `reads_extended` — lengths and distances.
* `reads_codeLengthRun`, `reads_codeLengths` — code lengths, in runs.
* `reads_dynamicCodes` — the head of a dynamic block.
-/

/-! ### Lengths and distances -/

/-- The table of lengths follows the format. -/
theorem lengthTable_getElem? (i : Nat) : Inflater.lengthTable[i]? = lengthRange i := by
  by_cases hi : i < 29
  · have hall : ∀ i : Fin 29, Inflater.lengthTable[i.val]? = lengthRange i.val := by decide
    exact hall ⟨i, hi⟩
  · unfold lengthRange
    rw [if_neg (by omega), if_neg (by omega), if_neg (by omega), List.getElem?_eq_none_iff]
    exact Nat.le_of_not_lt hi

/-- The table of distances follows the format. -/
theorem distanceTable_getElem? (j : Nat) : Inflater.distanceTable[j]? = distanceRange j := by
  by_cases hj : j < 30
  · have hall : ∀ j : Fin 30, Inflater.distanceTable[j.val]? = distanceRange j.val := by decide
    exact hall ⟨j, hj⟩
  · unfold distanceRange
    rw [if_neg (by omega), if_neg (by omega), List.getElem?_eq_none_iff]
    exact Nat.le_of_not_lt hj

/-- A number in a range is read from the bits that tell which it is. -/
theorem reads_extended {table : List (Nat × Nat)} {index : Nat} (fault : DeflateFault)
    {range : Option (Nat × Nat)} (htable : table[index]? = range)
    (hextra : ∀ base extra, range = some (base, extra) → extra ≤ 32) :
    Reads .lowFirst (Inflater.extended table index fault) fun _ v w => RangeBits range v w := by
  unfold Inflater.extended RangeBits
  rw [htable]
  cases range with
  | none => exact (Reads.throw _).congr fun p v w => by simp
  | some range =>
    obtain ⟨base, extra⟩ := range
    refine ((reads_take _ (hextra base extra rfl)).bind fun n => .pure (base + n)).congr ?_
    intro p v w
    constructor
    · rintro ⟨n, u, t, ⟨hu, rfl⟩, ⟨rfl, rfl⟩, rfl⟩
      rw [List.append_nil]
      exact ⟨base, by rw [hu], rfl⟩
    · rintro ⟨base', hrange, rfl⟩
      cases hrange
      exact ⟨ofLowBits w, w, [], ⟨rfl, rfl⟩, ⟨rfl, rfl⟩, (List.append_nil w).symm⟩

theorem reads_length (i : Nat) (fault : DeflateFault) :
    Reads .lowFirst (Inflater.extended Inflater.lengthTable i fault)
      fun _ v w => RangeBits (lengthRange i) v w := by
  refine reads_extended fault (lengthTable_getElem? i) fun base extra h => ?_
  unfold lengthRange at h
  split at h
  · cases h
    decide
  · split at h
    · cases h
      omega
    · split at h
      · cases h
        decide
      · cases h

theorem reads_distance (j : Nat) (fault : DeflateFault) :
    Reads .lowFirst (Inflater.extended Inflater.distanceTable j fault)
      fun _ v w => RangeBits (distanceRange j) v w := by
  refine reads_extended fault (distanceTable_getElem? j) fun base extra h => ?_
  unfold distanceRange at h
  split at h
  · cases h
    decide
  · split at h
    · cases h
      omega
    · cases h

/-! ### The code length code -/

/-- The lengths that are sent, one for each of the symbols. -/
theorem reads_sent (symbols : List Nat) :
    Reads .lowFirst (symbols.mapM fun symbol => do return (symbol, ← BitReader.take 3))
      fun _ pairs w => ∃ sent, sent.length = symbols.length ∧ (∀ l ∈ sent, l < 8) ∧
        pairs = symbols.zip sent ∧ w = sent.flatMap (lowBits 3) := by
  rw [← List.mapM'_eq_mapM]
  induction symbols with
  | nil =>
    refine (Reads.pure _).congr fun p pairs w => ?_
    constructor
    · rintro ⟨rfl, rfl⟩
      exact ⟨[], rfl, by simp, rfl, rfl⟩
    · rintro ⟨sent, hlen, -, rfl, rfl⟩
      rw [List.length_nil, List.length_eq_zero_iff] at hlen
      exact ⟨rfl, by rw [hlen]; rfl⟩
  | cons symbol symbols ih =>
    have hpair (l : Nat) : Reads .lowFirst (pure (symbol, l)) fun _ pair w =>
        pair = (symbol, l) ∧ w = [] := .pure (symbol, l)
    have hone := (reads_take_lowFirst (n := 3) (by decide)).bind hpair
    refine (hone.bind fun pair => ih.bind fun pairs => .pure (pair :: pairs)).congr ?_
    intro p pairs w
    constructor
    · rintro ⟨_, _, _, ⟨l, _, _, ⟨hl, rfl⟩, ⟨rfl, rfl⟩, rfl⟩,
        ⟨_, _, _, ⟨sent, hlen, hall, rfl, rfl⟩, ⟨rfl, rfl⟩, rfl⟩, rfl⟩
      refine ⟨l :: sent, congrArg (· + 1) hlen, List.forall_mem_cons.mpr ⟨hl, hall⟩, rfl, ?_⟩
      rw [List.append_nil, List.append_nil, List.flatMap_cons]
    · rintro ⟨_ | ⟨l, sent⟩, hlen, hall, rfl, rfl⟩
      · cases hlen
      · obtain ⟨hl, hall⟩ := List.forall_mem_cons.mp hall
        refine ⟨(symbol, l), lowBits 3 l, sent.flatMap (lowBits 3),
          ⟨l, lowBits 3 l, [], ⟨hl, rfl⟩, ⟨rfl, rfl⟩, (List.append_nil _).symm⟩,
          ⟨symbols.zip sent, sent.flatMap (lowBits 3), [],
            ⟨sent, Nat.succ.inj hlen, hall, rfl, rfl⟩, ⟨rfl, rfl⟩, (List.append_nil _).symm⟩, ?_⟩
        rw [List.flatMap_cons]

/-- A symbol finds the length that is sent at its place. -/
theorem lookup_zip {symbols sent : List Nat} (hlen : sent.length ≤ symbols.length) (symbol : Nat) :
    (symbols.zip sent).lookup symbol = sent[symbols.idxOf symbol]? := by
  induction symbols generalizing sent with
  | nil =>
    rw [List.eq_nil_of_length_eq_zero (Nat.le_zero.mp hlen)]
    rfl
  | cons x symbols ih =>
    cases sent with
    | nil => rfl
    | cons l sent =>
      rw [List.zip_cons_cons, List.lookup_cons, List.idxOf_cons]
      by_cases hx : x = symbol
      · simp [hx]
      · have hne : (x == symbol) = false := beq_false_of_ne hx
        have hne' : (symbol == x) = false := beq_false_of_ne (Ne.symm hx)
        rw [hne, hne']
        exact ih (Nat.le_of_succ_le_succ hlen)

/-- The lengths of the code length code are read as they are sent. -/
theorem reads_codeLengthLengths {count : Nat} (hcount : count ≤ 19) :
    Reads .lowFirst (Inflater.codeLengthLengths count) fun _ lengths w =>
      ∃ sent, sent.length = count ∧ (∀ l ∈ sent, l < 8) ∧ lengths = codeLengthCode sent ∧
        w = sent.flatMap (lowBits 3) := by
  have horder : Inflater.codeLengthOrder = codeLengthOrder := by decide
  have hlen : (codeLengthOrder.take count).length = count := by
    rw [List.length_take]
    exact Nat.min_eq_left hcount
  unfold Inflater.codeLengthLengths
  rw [horder]
  refine ((reads_sent (codeLengthOrder.take count)).bind fun pairs => .pure _).congr ?_
  intro p lengths w
  -- Symbols whose lengths are not sent are not found, as if none were sent for them.
  have hcode {sent : List Nat} (hsent : sent.length = (codeLengthOrder.take count).length) :
      ((List.range codeLengthOrder.length).map fun symbol =>
        (((codeLengthOrder.take count).zip sent).lookup symbol).getD 0) = codeLengthCode sent := by
    have hle : sent.length ≤ codeLengthOrder.length := by
      rw [hsent, hlen]
      exact hcount
    have hzip : (codeLengthOrder.take count).zip sent = codeLengthOrder.zip sent := by
      have hcut := @List.zip_eq_zip_take_min _ _ codeLengthOrder sent
      rw [Nat.min_eq_right hle, List.take_length, hsent, hlen] at hcut
      exact hcut.symm
    unfold codeLengthCode
    simp only [hzip, lookup_zip hle]
    rfl
  constructor
  · rintro ⟨_, _, _, ⟨sent, hsent, hall, rfl, rfl⟩, ⟨rfl, rfl⟩, rfl⟩
    exact ⟨sent, hsent.trans hlen, hall, hcode hsent, List.append_nil _⟩
  · rintro ⟨sent, hsent, hall, rfl, rfl⟩
    have hsent' := hsent.trans hlen.symm
    exact ⟨_, _, [], ⟨sent, hsent', hall, rfl, rfl⟩, ⟨(hcode hsent').symm, rfl⟩,
      (List.append_nil _).symm⟩

/-! ### Runs of code lengths -/

/-- A run has at least one length, and all its lengths are the same. -/
theorem RunBits.exists_eq_replicate {code before values : List Nat} {w : List Bool}
    (h : RunBits code before values w) :
    ∃ run : Nat × Nat, values = List.replicate (run.2 + 1) run.1 := by
  cases h with
  | @single l => exact ⟨(l, 0), rfl⟩
  | @previous l _ v => exact ⟨(l, 2 + ofLowBits v), by rw [Nat.add_right_comm]⟩
  | @zeros _ v => exact ⟨(0, 2 + ofLowBits v), by rw [Nat.add_right_comm]⟩
  | @manyZeros _ v => exact ⟨(0, 10 + ofLowBits v), by rw [Nat.add_right_comm]⟩

/-- A number of repetitions is read from the bits that follow a symbol. -/
theorem reads_repetitions (value least : Nat) {n : Nat} (hn : n ≤ 32) :
    Reads .lowFirst (do return (value, least + (← BitReader.take n))) fun _ run w =>
      run.1 = value ∧ w.length = n ∧ run.2 = least + ofLowBits w := by
  refine ((reads_take .lowFirst hn).bind fun more => .pure (value, least + more)).congr ?_
  intro p run w
  constructor
  · rintro ⟨_, u, _, ⟨hu, rfl⟩, ⟨rfl, rfl⟩, rfl⟩
    rw [List.append_nil]
    exact ⟨rfl, hu, rfl⟩
  · rintro ⟨hvalue, hlen, hmore⟩
    exact ⟨_, w, [], ⟨hlen, rfl⟩, ⟨Prod.ext hvalue hmore, rfl⟩, (List.append_nil w).symm⟩

/-- The bits that follow the symbol of a run, which is given by its value and one less than its
    length. -/
def RunRest (before : List Nat) (symbol : Nat) (run : Nat × Nat) (w : List Bool) : Prop :=
  (symbol ≤ 15 ∧ run = (symbol, 0) ∧ w = []) ∨
  (symbol = 16 ∧ before.getLast? = some run.1 ∧ w.length = 2 ∧ run.2 = 2 + ofLowBits w) ∨
  (symbol = 17 ∧ run.1 = 0 ∧ w.length = 3 ∧ run.2 = 2 + ofLowBits w) ∨
  (symbol = 18 ∧ run.1 = 0 ∧ w.length = 7 ∧ run.2 = 10 + ofLowBits w)

/-- A run has the bits of its symbol and those that follow it. -/
theorem exists_runRest_iff {lengths before : List Nat} {run : Nat × Nat} {w : List Bool} :
    (∃ symbol u v, CodeWord lengths symbol u ∧ RunRest before symbol run v ∧ w = u ++ v) ↔
      RunBits lengths before (List.replicate (run.2 + 1) run.1) w := by
  constructor
  · rintro ⟨symbol, u, v, hword, hrun, rfl⟩
    rcases hrun with ⟨h15, rfl, rfl⟩ | ⟨rfl, hlast, hlen, hmore⟩ | ⟨rfl, hvalue, hlen, hmore⟩ |
      ⟨rfl, hvalue, hlen, hmore⟩
    · rw [List.append_nil]
      exact .single h15 hword
    · rw [hmore, show 2 + ofLowBits v + 1 = 3 + ofLowBits v by omega]
      exact .previous hlast hword hlen
    · rw [hmore, hvalue, show 2 + ofLowBits v + 1 = 3 + ofLowBits v by omega]
      exact .zeros hword hlen
    · rw [hmore, hvalue, show 10 + ofLowBits v + 1 = 11 + ofLowBits v by omega]
      exact .manyZeros hword hlen
  · intro h
    obtain ⟨value, more⟩ := run
    have hinj {n l : Nat} (h : List.replicate (more + 1) value = List.replicate n l) :
        more + 1 = n ∧ value = l := by
      obtain ⟨hlen, hzero | hvalue⟩ := List.replicate_inj.mp h
      · omega
      · exact ⟨hlen, hvalue⟩
    generalize hrun : List.replicate (more + 1) value = values at h
    cases h with
    | @single l _ h15 hword =>
      obtain ⟨hmore, rfl⟩ := hinj (hrun.trans (List.replicate_one (a := l)).symm)
      have hzero : more = 0 := by omega
      exact ⟨value, w, [], hword, .inl ⟨h15, by rw [hzero], rfl⟩, (List.append_nil w).symm⟩
    | previous hlast hword hlen =>
      obtain ⟨hmore, rfl⟩ := hinj hrun
      exact ⟨16, _, _, hword, .inr (.inl ⟨rfl, hlast, hlen, by omega⟩), rfl⟩
    | zeros hword hlen =>
      obtain ⟨hmore, rfl⟩ := hinj hrun
      exact ⟨17, _, _, hword, .inr (.inr (.inl ⟨rfl, rfl, hlen, by omega⟩)), rfl⟩
    | manyZeros hword hlen =>
      obtain ⟨hmore, rfl⟩ := hinj hrun
      exact ⟨18, _, _, hword, .inr (.inr (.inr ⟨rfl, rfl, hlen, by omega⟩)), rfl⟩

/-- A run is read as its value and one less than the number of times it is repeated. -/
theorem reads_codeLengthRun {lengths : List Nat} (hlong : ∀ l ∈ lengths, l ≤ 15)
    (before : List Nat) :
    Reads .lowFirst (Inflater.codeLengthRun (.build lengths) before) fun _ run w =>
      RunBits lengths before (List.replicate (run.2 + 1) run.1) w := by
  refine Reads.congr (Reads.bind (H := fun symbol _ => RunRest before symbol)
    (reads_decode hlong .lowFirst) fun symbol => ?_) fun p run w => exists_runRest_iff
  by_cases h15 : symbol ≤ 15
  · rw [if_pos h15]
    refine (Reads.pure (symbol, 0)).congr fun p run w => ?_
    constructor
    · exact fun h => .inl ⟨h15, h⟩
    · rintro (⟨-, h⟩ | ⟨h, -⟩ | ⟨h, -⟩ | ⟨h, -⟩)
      · exact h
      all_goals omega
  · rw [if_neg h15]
    by_cases h16 : symbol = 16
    · rw [if_pos h16]
      cases hlast : before.getLast? with
      | none => exact (Reads.throw _).congr fun p run w => by simp [RunRest, h16, hlast]
      | some previous =>
        refine (reads_repetitions previous 2 (by decide)).congr fun p run w => ?_
        simp [RunRest, h16, hlast, eq_comm]
    · rw [if_neg h16]
      by_cases h17 : symbol = 17
      · rw [if_pos h17]
        exact (reads_repetitions 0 2 (by decide)).congr fun p run w => by simp [RunRest, h17]
      · rw [if_neg h17]
        by_cases h18 : symbol = 18
        · rw [if_pos h18]
          exact (reads_repetitions 0 10 (by decide)).congr fun p run w => by simp [RunRest, h18]
        · rw [if_neg h18]
          exact (Reads.throw _).congr fun p run w => by simp [RunRest, h15, h16, h17, h18]

/-- Code lengths are read in runs until there are enough. -/
theorem reads_codeLengths {code : List Nat} (hlong : ∀ l ∈ code, l ≤ 15) {total : Nat}
    {before : List Nat} (hbefore : before.length ≤ total) :
    Reads .lowFirst (Inflater.codeLengths (.build code) total before) fun _ lengths w =>
      lengths.length = total ∧ ∃ rest, lengths = before ++ rest ∧
        LengthsBits code before rest w := by
  induction hgap : total - before.length using Nat.strong_induction_on generalizing before with
  | h gap ih =>
    rw [Inflater.codeLengths]
    by_cases hlt : before.length < total
    · rw [if_pos hlt]
      have hstep (run : Nat × Nat) : Reads .lowFirst
          (if before.length + (run.2 + 1) ≤ total then
            Inflater.codeLengths (.build code) total (before ++ List.replicate (run.2 + 1) run.1)
          else throw (.deflate .codeLengthOverrun))
          fun _ lengths w => lengths.length = total ∧ ∃ rest,
            lengths = before ++ List.replicate (run.2 + 1) run.1 ++ rest ∧
              LengthsBits code (before ++ List.replicate (run.2 + 1) run.1) rest w := by
        have hlen : (before ++ List.replicate (run.2 + 1) run.1).length
            = before.length + (run.2 + 1) := by
          rw [List.length_append, List.length_replicate]
        by_cases hle : before.length + (run.2 + 1) ≤ total
        · rw [if_pos hle]
          exact ih _ (by omega) (by omega) rfl
        · rw [if_neg hle]
          refine (Reads.throw _).congr fun p lengths w => ?_
          rw [false_iff]
          rintro ⟨htotal, rest, rfl, -⟩
          rw [List.length_append, hlen] at htotal
          omega
      refine ((reads_codeLengthRun hlong before).bind hstep).congr fun p lengths w => ?_
      constructor
      · rintro ⟨run, u, v, hrun, ⟨htotal, rest, rfl, hrest⟩, rfl⟩
        exact ⟨htotal, _, List.append_assoc .., .run hrun hrest⟩
      · rintro ⟨htotal, rest, rfl, hrest⟩
        cases hrest with
        | nil =>
          rw [List.append_nil] at htotal
          omega
        | run hrun hrest =>
          obtain ⟨run, rfl⟩ := hrun.exists_eq_replicate
          exact ⟨run, _, _, hrun, ⟨htotal, _, (List.append_assoc ..).symm, hrest⟩, rfl⟩
    · rw [if_neg hlt]
      refine (Reads.pure before).congr fun p lengths w => ?_
      constructor
      · rintro ⟨rfl, rfl⟩
        exact ⟨by omega, [], (List.append_nil _).symm, .nil⟩
      · rintro ⟨htotal, rest, rfl, hrest⟩
        cases hrest with
        | nil => exact ⟨List.append_nil before, rfl⟩
        | run hrun hrest =>
          obtain ⟨run, rfl⟩ := hrun.exists_eq_replicate
          rw [List.length_append, List.length_append, List.length_replicate] at htotal
          omega

/-! ### The head of a dynamic block -/

/-- A code is built for admissible lengths before the reading goes on. -/
theorem reads_ofLengths {α : Type} (lengths : List Nat) {f : PrefixCode → BitReading α}
    {G : Grammar α} (hlen : lengths.length ≤ 65535)
    (h : Admissible lengths → Reads .lowFirst (f (.build lengths)) G) :
    Reads .lowFirst (ofExcept (PrefixCode.ofLengths lengths) >>= f) fun p a w =>
      Admissible lengths ∧ G p a w := by
  have hcode (code : PrefixCode) (hcode : PrefixCode.ofLengths lengths = .ok code) :
      Reads .lowFirst (f code) G := by
    obtain ⟨-, hadmissible, rfl⟩ := ofLengths_eq_ok_iff.mp hcode
    exact h hadmissible
  refine (Reads.ofExcept hcode).congr fun p a w => ?_
  simp only [ofLengths_eq_ok_iff, hlen, true_and]
  constructor
  · rintro ⟨code, ⟨hadmissible, -⟩, hw⟩
    exact ⟨hadmissible, hw⟩
  · rintro ⟨hadmissible, hw⟩
    exact ⟨.build lengths, ⟨hadmissible, rfl⟩, hw⟩

/-- The lengths of both codes are read as one sequence. -/
theorem reads_bothCodes {code : List Nat} (hlong : ∀ l ∈ code, l ≤ 15) {n m : Nat}
    (hn : 256 < n ∧ n ≤ 286) (hm : m ≤ 30) :
    Reads .lowFirst
      (do
        let lengths ← Inflater.codeLengths (.build code) (n + m) []
        if lengths.getD Inflater.endOfBlock 0 = 0 then throw (.deflate .missingEndOfBlock)
        let literals ← ofExcept (PrefixCode.ofLengths (lengths.take n))
        let distances ← ofExcept (PrefixCode.ofLengths (lengths.drop n))
        return (literals, distances))
      fun _ codes w => ∃ literals distances, literals.length = n ∧ distances.length = m ∧
        literals.getD 256 0 ≠ 0 ∧ Admissible literals ∧ Admissible distances ∧
        LengthsBits code [] (literals ++ distances) w ∧
        codes = (.build literals, .build distances) := by
  refine ((reads_codeLengths hlong (Nat.zero_le _)).bind_of fun lengths _ _ h =>
    Reads.check fun _ =>
      reads_ofLengths (lengths.take n) ?_ fun _ =>
      reads_ofLengths (lengths.drop n)
        (f := fun distances => pure (PrefixCode.build (lengths.take n), distances)) ?_ fun _ =>
          .pure _).congr fun p codes w => ?_
  · rw [List.length_take]
    omega
  · rw [List.length_drop, h.1]
    omega
  constructor
  · rintro ⟨lengths, _, _, ⟨htotal, rest, hrest, hlengths⟩,
      ⟨hend, hliterals, hdistances, rfl, rfl⟩, rfl⟩
    rw [List.nil_append] at hrest
    subst hrest
    refine ⟨lengths.take n, lengths.drop n, ?_, ?_, ?_, hliterals, hdistances, ?_, rfl⟩
    · rw [List.length_take]
      omega
    · rw [List.length_drop]
      omega
    · rw [List.getD_eq_getElem?_getD, List.getElem?_take_of_lt hn.1, ← List.getD_eq_getElem?_getD]
      exact hend
    · rw [List.take_append_drop, List.append_nil]
      exact hlengths
  · rintro ⟨literals, distances, rfl, rfl, hend, hliterals, hdistances, hlengths, rfl⟩
    have hend' : (literals ++ distances).getD 256 0 = literals.getD 256 0 := by
      rw [List.getD_eq_getElem?_getD, List.getElem?_append_left hn.1, ← List.getD_eq_getElem?_getD]
    refine ⟨literals ++ distances, w, [], ⟨List.length_append, _, rfl, hlengths⟩,
      ⟨?_, ?_, ?_, ?_, rfl⟩, (List.append_nil w).symm⟩
    · exact fun h => hend (hend'.symm.trans h)
    · rwa [List.take_left]
    · rwa [List.drop_left]
    · rw [List.take_left, List.drop_left]

/-- What is read after the numbers of lengths of each kind. -/
theorem reads_codesAfterCounts (a b : Nat) {c : Nat} (hc : c < 2 ^ 4) :
    Reads .lowFirst
      (do
        if 286 < 257 + a then throw (.deflate .literalCodeCount)
        if 30 < 1 + b then throw (.deflate .distanceCodeCount)
        let code ← ofExcept (PrefixCode.ofLengths (← Inflater.codeLengthLengths (4 + c)))
        let lengths ← Inflater.codeLengths code (257 + a + (1 + b)) []
        if lengths.getD Inflater.endOfBlock 0 = 0 then throw (.deflate .missingEndOfBlock)
        let literals ← ofExcept (PrefixCode.ofLengths (lengths.take (257 + a)))
        let distances ← ofExcept (PrefixCode.ofLengths (lengths.drop (257 + a)))
        return (literals, distances))
      fun _ codes w => 257 + a ≤ 286 ∧ 1 + b ≤ 30 ∧ ∃ sent u literals distances,
        sent.length = 4 + c ∧ (∀ l ∈ sent, l < 8) ∧ Admissible (codeLengthCode sent) ∧
        (literals.length = 257 + a ∧ distances.length = 1 + b ∧ literals.getD 256 0 ≠ 0 ∧
          Admissible literals ∧ Admissible distances ∧
          LengthsBits (codeLengthCode sent) [] (literals ++ distances) u ∧
          codes = (.build literals, .build distances)) ∧
        w = sent.flatMap (lowBits 3) ++ u := by
  refine Reads.congr (Reads.check fun ha => Reads.check fun hb =>
    (reads_codeLengthLengths ?_).bind_of fun code p u h =>
      reads_ofLengths _ ?_ fun hadmissible =>
        reads_bothCodes hadmissible.1 ?_ ?_) fun p codes w => ?_
  · omega
  · obtain ⟨sent, -, -, rfl, -⟩ := h
    rw [codeLengthCode, List.length_map, List.length_range]
    decide
  · omega
  · omega
  constructor
  · rintro ⟨ha, hb, _, _, u, ⟨sent, hsent, hall, rfl, rfl⟩,
      ⟨hcode, literals, distances, hcodes⟩, rfl⟩
    exact ⟨by omega, by omega, sent, u, literals, distances, hsent, hall, hcode, hcodes, rfl⟩
  · rintro ⟨ha, hb, sent, u, literals, distances, hsent, hall, hcode, hcodes, rfl⟩
    exact ⟨by omega, by omega, _, _, u, ⟨sent, hsent, hall, rfl, rfl⟩,
      ⟨hcode, literals, distances, hcodes⟩, rfl⟩

/-- **The codes of a dynamic block** are read from any bits that stand for them. -/
theorem reads_dynamicCodes :
    Reads .lowFirst Inflater.dynamicCodes fun _ codes w => ∃ literals distances,
      CodesBits literals distances w ∧ codes = (.build literals, .build distances) := by
  have hnumber {n : Nat} (hn : n ≤ 32) := reads_take_lowFirst hn
  unfold Inflater.dynamicCodes
  refine ((hnumber (n := 5) (by decide)).bind fun a => (hnumber (n := 5) (by decide)).bind fun b =>
    (hnumber (n := 4) (by decide)).bind_of fun c p u hc =>
      reads_codesAfterCounts a b hc.1).congr fun p codes w => ?_
  constructor
  · rintro ⟨a, _, _, ⟨-, rfl⟩, ⟨b, _, _, ⟨-, rfl⟩, ⟨c, _, _, ⟨hc, rfl⟩,
      ⟨ha, hb, sent, u, literals, distances, hsent, hall, hcode,
        ⟨hliterals, hdistances, hend, hadmissible, hadmissible', hbits, rfl⟩, rfl⟩, rfl⟩, rfl⟩, rfl⟩
    refine ⟨literals, distances, ⟨sent, u, by omega, by omega, ⟨by omega, by omega, hall⟩, hcode,
      hadmissible, hadmissible', hend, hbits, ?_⟩, rfl⟩
    rw [hliterals, hdistances, hsent, Nat.add_sub_cancel_left, Nat.add_sub_cancel_left,
      Nat.add_sub_cancel_left]
  · rintro ⟨literals, distances, ⟨sent, u, hliterals, hdistances, ⟨hfour, hle, hall⟩, hcode,
      hadmissible, hadmissible', hend, hbits, rfl⟩, rfl⟩
    exact ⟨literals.length - 257, _, _, ⟨by omega, rfl⟩, ⟨distances.length - 1, _, _,
      ⟨by omega, rfl⟩, ⟨sent.length - 4, _, _, ⟨by omega, rfl⟩, ⟨by omega, by omega, sent, u,
        literals, distances, by omega, hall, hcode, ⟨by omega, by omega, hend, hadmissible,
          hadmissible', hbits, rfl⟩, rfl⟩, rfl⟩, rfl⟩, rfl⟩

end Apfs.Deflate
