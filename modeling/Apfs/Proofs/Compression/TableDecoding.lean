import Apfs.Proofs.Compression.CodeTable
import Apfs.Proofs.Compression.SameReading

namespace Apfs

/-!
# Decoding with a table

Decoding with the table of a code is decoding with the code, and never leaves the table.  So it
reads the code words of the canonical code, and nothing else.

* `mirrors_decode` — decoding with a table and with its code.
* `CodeTable.remaining_decode_lt` — decoding a symbol consumes input.
* `error_of_decode` — why decoding fails.
* `Admissible.exists_codeWord` — each symbol with a length has a code word.
* `DecodesCode`, `CodeTable.ofLengths_iff_and_decodesCode` — which tables are filled, and what
  decoding with them does.
-/

variable {order : BitOrder} {data : ByteArray} {p : Nat}

/-! ### Tables and codes -/

/-- A bit is appended by an or, after a zero is put at the end. -/
theorem two_mul_or_bit (v : Nat) {bit : Nat} (h : bit < 2 ^ 1) : 2 * v ||| bit = 2 * v + bit :=
  (Nat.two_pow_add_eq_or_of_lt h v).symm

/-- Decoding from the middle of a code word.  By induction on the lengths that are left; before each
    of them, the word is not before the first one of its length, and the symbols of all lengths that
    are left stand from `index` on. -/
theorem mirrors_decodeFrom {symbols : Array Nat} {v first index : Nat} {counts : List Nat}
    (hfirst : first ≤ 2 * v) (hsize : index + counts.sum ≤ symbols.size) :
    Mirrors Eq (CodeTable.decodeFrom symbols (2 * v) first index counts)
      (PrefixCode.decodeFrom symbols (2 * v) first index counts) := by
  induction counts generalizing v first index with
  | nil => exact .fail _
  | cons count counts ih =>
    rw [List.sum_cons] at hsize
    refine (mirrors_take 1).bind fun b bit ⟨hb, hbit⟩ => ?_
    dsimp only
    rw [hb, two_mul_or_bit v hbit]
    by_cases hlt : 2 * v + bit < first + count
    · have hindex : index + (2 * v + bit) - first = index + (2 * v + bit - first) := by omega
      have hrange : index + (2 * v + bit - first) < symbols.size := by omega
      rw [if_pos hlt, if_pos hlt, minus_of_le (by omega), pure_bind, hindex, readAt_of_lt hrange]
      exact .pure (Array.getElem_eq_getD 0)
    · rw [if_neg hlt, if_neg hlt, Nat.shiftLeft_eq, Nat.shiftLeft_eq, pow_one,
        Nat.mul_comm _ 2, Nat.mul_comm _ 2]
      exact ih (by omega) (by omega)

/-- **Decoding with a table** does what decoding with its code does. -/
theorem mirrors_decode {code : PrefixCode} {table : CodeTable} (h : table.IsTableOf code) :
    Mirrors Eq table.decode code.decode := by
  unfold CodeTable.decode PrefixCode.decode
  rw [h.counts_eq, h.symbols_eq]
  exact mirrors_decodeFrom (v := 0) (Nat.le_refl 0) (by rw [Nat.zero_add]; exact h.sum_le)

/-! ### What is consumed -/

theorem CodeTable.remaining_decodeFrom_lt {symbols : Array Nat} {word first index symbol : Nat}
    {counts : List Nat} {r r' : WordReader}
    (h : decodeFrom symbols word first index counts r = .ok symbol r') :
    r'.remaining < r.remaining := by
  induction counts generalizing word first index r with
  | nil => cases h
  | cons count counts ih =>
    obtain ⟨bit, r₁, htake, hrest⟩ := WordReader.checked_bind_eq_ok_iff.mp h
    have hbit := WordReader.remaining_take htake
    split at hrest
    · obtain ⟨i, r₂, hindex, hsymbol⟩ := WordReader.checked_bind_eq_ok_iff.mp hrest
      rw [WordReader.of_readAt_eq_ok hsymbol, WordReader.of_minus_eq_ok hindex]
      omega
    · have hlt := ih hrest
      omega

/-- Decoding a symbol consumes at least one bit, whatever the table and the state of the reader. -/
theorem CodeTable.remaining_decode_lt {table : CodeTable} {symbol : Nat} {r r' : WordReader}
    (h : table.decode r = .ok symbol r') : r'.remaining < r.remaining :=
  remaining_decodeFrom_lt h

/-! ### Bits that no code word starts -/

/-- Decoding fails after as many bits as the longest code word may have, or where the bits end. -/
theorem error_of_decodeFrom {symbols : Array Nat} {prior first index : Nat} {counts : List Nat}
    {e : Error} {r : BitReader} (hp : p ≤ 8 * data.size)
    (h : PrefixCode.decodeFrom symbols prior first index counts (.atBit data order p)
      = .error e r) :
    e = if p + counts.length ≤ 8 * data.size then .prefixCode .undefinedCode
      else .bitsExhausted 1 0 := by
  induction counts generalizing prior first index p with
  | nil =>
    rw [List.length_nil, Nat.add_zero, if_pos hp]
    cases h
    rfl
  | cons count counts ih =>
    rw [List.length_cons]
    unfold PrefixCode.decodeFrom at h
    by_cases hnext : p + 1 ≤ 8 * data.size
    · rw [bind_of_ok (BitReader.take_atBit data order (by decide) hnext)] at h
      split at h
      · cases h
      · rw [ih hnext h, Nat.add_assoc, Nat.add_comm 1]
    · rw [bind_of_error (BitReader.take_atBit_of_lt data order (by decide) hp (by omega))] at h
      rw [if_neg (by omega)]
      cases h
      congr 1
      omega

/-- Why decoding fails: no code word has more than 15 bits. -/
theorem error_of_decode {lengths : List Nat} {e : Error} {r : BitReader} (hp : p ≤ 8 * data.size)
    (h : (PrefixCode.build lengths).decode (.atBit data order p) = .error e r) :
    e = if p + 15 ≤ 8 * data.size then .prefixCode .undefinedCode else .bitsExhausted 1 0 :=
  error_of_decodeFrom hp h

/-! ### Code words -/

/-- Admissible lengths leave a code word for each symbol that has a length. -/
theorem Admissible.exists_codeWord {lengths : List Nat} (h : Admissible lengths) {s l : Nat}
    (hget : lengths[s]? = some l) (hl : l ≠ 0) : ∃ w, w.length = l ∧ CodeWord lengths s w := by
  have hle : l ≤ 15 := h.1 l (List.mem_of_getElem? hget)
  have hrank := count_take_lt hget
  -- The words of this length end before the number of all words of this length.
  have hlt : firstWord lengths l + (lengths.take s).count l < 2 ^ l := by
    have htotal := (admissible_iff h.1).mp h
    have hgrow := kraft_le lengths l (15 - l)
    have hpow : 2 ^ 15 = 2 ^ (15 - l) * 2 ^ l := by
      rw [← pow_add, Nat.sub_add_cancel hle]
    rw [Nat.add_sub_cancel' hle] at hgrow
    rw [hpow] at htotal
    have hkraft : kraft lengths l ≤ 2 ^ l :=
      Nat.le_of_mul_le_mul_left (hgrow.trans htotal) (Nat.two_pow_pos _)
    rw [kraft_eq, wordCount, if_neg hl] at hkraft
    omega
  have hlength :
      (lowBits l (firstWord lengths l + (lengths.take s).count l)).reverse.length = l := by
    rw [List.length_reverse, length_lowBits]
  refine ⟨_, hlength, ?_, by rw [hlength]; exact hget, ?_⟩
  · rw [← List.length_pos_iff, hlength]
    exact Nat.pos_of_ne_zero hl
  · rw [hlength, List.reverse_reverse, ofLowBits_lowBits, Nat.mod_eq_of_lt hlt]

/-! ### Decoding code words -/

/-- What decoding with a table does at any bit of any data: it reads the code words that belong to
    some code lengths, and nothing else. -/
structure DecodesCode (lengths : List Nat) (table : CodeTable) : Prop where
  /-- Each symbol that has a length has a code word of that length. -/
  exists_codeWord : ∀ s l, lengths[s]? = some l → l ≠ 0 →
    ∃ w, w.length = l ∧ CodeWord lengths s w
  /-- A code word that comes next is read, and gives its symbol. -/
  decode_of_codeWord : ∀ data order p r s w, WordReader.StandsAt data order p r →
    CodeWord lengths s w → w <+: (order.stream data).drop p →
    ∃ r', table.decode r = .ok s r' ∧ WordReader.StandsAt data order (p + w.length) r'
  /-- If no code word comes next, decoding fails: 15 bits are no code word, or the bits end. -/
  decode_of_not_codeWord : ∀ data order p r, WordReader.StandsAt data order p r →
    (∀ s w, CodeWord lengths s w → ¬ w <+: (order.stream data).drop p) →
    ∃ r', table.decode r = .error (.failed (if p + 15 ≤ (order.stream data).length
      then .prefixCode .undefinedCode else .bitsExhausted 1 0)) r'
  /-- The code words of any symbols are read, and give the symbols. -/
  decode_of_codeWords : ∀ data order p r symbols words, WordReader.StandsAt data order p r →
    List.Forall₂ (CodeWord lengths) symbols words →
    words.flatten <+: (order.stream data).drop p →
    ∃ r', (symbols.mapM fun _ => table.decode) r = .ok symbols r' ∧
      WordReader.StandsAt data order (p + words.flatten.length) r'

namespace CodeTable

variable {lengths : List Nat} {table : CodeTable}

/-- A code word that comes next is read, and gives its symbol. -/
theorem IsTableOf.decode_of_codeWord (h : table.IsTableOf (.build lengths))
    (hlong : ∀ l ∈ lengths, l ≤ 15) (hp : p ≤ 8 * data.size) {s : Nat} {w : List Bool}
    (hw : CodeWord lengths s w) (hcomes : w <+: (order.stream data).drop p) :
    table.decode (.atBit data order p) = .ok s (.atBit data order (p + w.length)) := by
  have hdecode := (reads_decode hlong order hp s _).mpr ⟨w, hw, hcomes, rfl⟩
  have hsame := mirrors_decode h
  specialize @hsame data order p hp
  rw [hdecode] at hsame
  obtain ⟨_, q, hq, hr, htable, rfl⟩ := hsame
  rw [htable, (WordReader.eq_atBit_iff data order).mpr
    ((WordReader.toReader_atBit data order q).trans hr.symm)]

/-- If no code word comes next, decoding fails. -/
theorem IsTableOf.decode_of_not_codeWord (h : table.IsTableOf (.build lengths))
    (hlong : ∀ l ∈ lengths, l ≤ 15) (hp : p ≤ 8 * data.size)
    (hnone : ∀ s w, CodeWord lengths s w → ¬ w <+: (order.stream data).drop p) :
    ∃ r', table.decode (.atBit data order p) = .error (.failed (if p + 15 ≤ 8 * data.size
      then .prefixCode .undefinedCode else .bitsExhausted 1 0)) r' := by
  have hsame := mirrors_decode h
  specialize @hsame data order p hp
  cases hdecode : (PrefixCode.build lengths).decode (.atBit data order p) with
  | ok s r =>
    obtain ⟨w, hw, hcomes, -⟩ := (reads_decode hlong order hp s r).mp hdecode
    exact absurd hcomes (hnone s w hw)
  | error e r =>
    rw [hdecode] at hsame
    obtain ⟨q, -, -, htable⟩ := hsame
    rw [error_of_decode hp hdecode] at htable
    exact ⟨_, htable⟩

/-- Symbols are decoded one after the other. -/
theorem IsTableOf.decode_of_codeWords (h : table.IsTableOf (.build lengths))
    (hlong : ∀ l ∈ lengths, l ≤ 15) (hp : p ≤ 8 * data.size) {symbols : List Nat}
    {words : List (List Bool)} (hwords : List.Forall₂ (CodeWord lengths) symbols words)
    (hcomes : words.flatten <+: (order.stream data).drop p) :
    (symbols.mapM fun _ => table.decode) (.atBit data order p)
      = .ok symbols (.atBit data order (p + words.flatten.length)) := by
  induction hwords generalizing p with
  | nil => rfl
  | @cons s w symbols words hw _ ih =>
    rw [List.flatten_cons] at hcomes ⊢
    obtain ⟨hfirst, hrest⟩ := append_prefix_drop.mp hcomes
    rw [List.mapM_cons, bind_of_ok (h.decode_of_codeWord hlong hp hw hfirst),
      bind_of_ok (ih (le_of_isPrefix hp hfirst) hrest), List.length_append, Nat.add_assoc]
    rfl

/-- The table of admissible lengths reads their code words. -/
theorem IsTableOf.decodesCode (h : table.IsTableOf (.build lengths))
    (hadmissible : Admissible lengths) : DecodesCode lengths table where
  exists_codeWord s l hget hl := hadmissible.exists_codeWord hget hl
  decode_of_codeWord data order p r s w hr hw hcomes := by
    have hp := hr.le
    obtain rfl := hr.eq_atBit
    exact ⟨_, h.decode_of_codeWord hadmissible.1 hp hw hcomes,
      WordReader.standsAt_atBit data order (le_of_isPrefix hp hcomes)⟩
  decode_of_not_codeWord data order p r hr hnone := by
    have hp := hr.le
    obtain rfl := hr.eq_atBit
    rw [order.length_stream]
    exact h.decode_of_not_codeWord hadmissible.1 hp hnone
  decode_of_codeWords data order p r symbols words hr hwords hcomes := by
    have hp := hr.le
    obtain rfl := hr.eq_atBit
    exact ⟨_, h.decode_of_codeWords hadmissible.1 hp hwords hcomes,
      WordReader.standsAt_atBit data order (le_of_isPrefix hp hcomes)⟩

/-- A table that is filled is that of a code of admissible lengths. -/
theorem ofLengths_eq_ok (h : ofLengths lengths = .ok table) :
    Admissible lengths ∧ table.IsTableOf (.build lengths) := by
  have hsame := ofLengths_eq lengths
  cases hcode : PrefixCode.ofLengths lengths with
  | ok code =>
    rw [hcode] at hsame
    obtain ⟨table', htable, his⟩ := hsame
    obtain ⟨-, hadmissible, rfl⟩ := ofLengths_eq_ok_iff.mp hcode
    obtain rfl : table' = table := Except.ok.inj (htable.symm.trans h)
    exact ⟨hadmissible, his⟩
  | error e =>
    rw [hcode] at hsame
    cases hsame.symm.trans h

/-- **Canonical codes.**  Tables are filled for exactly those code lengths that are not too long and
    leave enough words for all symbols; and decoding with them reads the canonical code. -/
theorem ofLengths_iff_and_decodesCode (lengths : List Nat) (hlen : lengths.length ≤ 65535) :
    ((∃ table, ofLengths lengths = .ok table) ↔ (∀ l ∈ lengths, l ≤ 15) ∧
      ((lengths.filter (· ≠ 0)).map fun l => 2 ^ (15 - l)).sum ≤ 2 ^ 15) ∧
    ∀ table, ofLengths lengths = .ok table → DecodesCode lengths table := by
  refine ⟨⟨fun ⟨table, htable⟩ => (ofLengths_eq_ok htable).1, fun hadmissible => ?_⟩,
    fun table htable => ?_⟩
  · have hsame := ofLengths_eq lengths
    rw [ofLengths_eq_ok_iff.mpr ⟨hlen, hadmissible, rfl⟩] at hsame
    obtain ⟨table, htable, -⟩ := hsame
    exact ⟨table, htable⟩
  · obtain ⟨hadmissible, his⟩ := ofLengths_eq_ok htable
    exact his.decodesCode hadmissible

/-- Three symbols of a code with four of them, in a single byte. -/
theorem decode_fourSymbols : [2, 1, 3, 3].length ≤ 65535 ∧
    ∃ table, ofLengths [2, 1, 3, 3] = .ok table ∧ ∃ r',
      ([2, 1, 0].mapM fun _ => table.decode) (.ofBytes ⟨#[0x13]⟩ .lowFirst) = .ok [2, 1, 0] r' := by
  refine ⟨by decide, ?_⟩
  obtain ⟨hiff, hdecode⟩ := ofLengths_iff_and_decodesCode [2, 1, 3, 3] (by decide)
  obtain ⟨table, htable⟩ := hiff.mpr (by decide)
  have hwords : List.Forall₂ (CodeWord [2, 1, 3, 3]) [2, 1, 0]
      [[true, true, false], [false], [true, false]] := by
    unfold CodeWord
    decide
  obtain ⟨r', hr', -⟩ := (hdecode table htable).decode_of_codeWords ⟨#[0x13]⟩ .lowFirst 0 _ _ _
    (WordReader.standsAt_atBit _ _ (Nat.zero_le _)) hwords (by decide)
  rw [← WordReader.ofBytes_eq_atBit] at hr'
  exact ⟨table, htable, r', hr'⟩

end CodeTable

end Apfs
