import Apfs.Proofs.Compression.CallerBuffer
import Apfs.Proofs.Compression.LengthTokens

namespace Apfs.Deflate

/-!
# Reading the heads of dynamic blocks

However the code lengths of a dynamic block are cut into tokens, reading its head gives the tables
of both codes.  Heads that go wrong are refused, and nothing is written outside of the lengths.

* `codeLengths_tokens` — code lengths are read token by token.
* `dynamicCodes_opening` — what stands in front of the tokens.
* `dynamicCodes_of_gives`, `DynamicHead.Refused.dynamicCodes_eq` — heads with both codes, and heads
  that go wrong.
* `InPlaceInflater.dynamicCodes_reads_and_refuses` — reading heads in place.
-/

variable {data : ByteArray} {p : Nat}

/-! ### Tokens -/

section

variable {code before lengths : List Nat} {total : Nat}

/-- A token is read, and then what follows it, if there is room for it. -/
theorem codeLengths_token (hcode : Admissible code) {t : LengthToken} (ht : t.Writable code)
    (h : t.expand before = some lengths) (hmore : before.length < total) (hp : p ≤ 8 * data.size)
    (hcomes : t.bits code <+: (BitOrder.lowFirst.stream data).drop p) :
    Inflater.codeLengths (.build code) total before (.atBit data .lowFirst p)
      = (if lengths.length ≤ total then Inflater.codeLengths (.build code) total lengths
        else throw (.deflate .codeLengthOverrun))
        (.atBit data .lowFirst (p + (t.bits code).length)) := by
  obtain ⟨run, hrun, rfl⟩ := LengthToken.expand_eq_some_iff.mp h
  have hbits := LengthToken.runBits hcode ht hrun
  obtain ⟨⟨value, more⟩, rfl⟩ := hbits.exists_eq_replicate
  -- Room is looked for when the whole token has been read.
  rw [Inflater.codeLengths, if_pos hmore,
    (reads_codeLengthRun hcode.1 before).bind_eq hp hbits hcomes]
  dsimp only
  rw [List.length_append, List.length_replicate]

/-- Code lengths are read token by token. -/
theorem codeLengths_tokens (hcode : Admissible code) {tokens : List LengthToken}
    (htokens : ∀ t ∈ tokens, t.Writable code) (h : expandLengths before tokens = some lengths)
    (hle : lengths.length ≤ total) (hp : p ≤ 8 * data.size)
    (hcomes : tokens.flatMap (LengthToken.bits code) <+: (BitOrder.lowFirst.stream data).drop p) :
    Inflater.codeLengths (.build code) total before (.atBit data .lowFirst p)
      = Inflater.codeLengths (.build code) total lengths
        (.atBit data .lowFirst (p + (tokens.flatMap (LengthToken.bits code)).length)) := by
  induction tokens generalizing before p with
  | nil =>
    cases h
    rfl
  | cons t tokens ih =>
    obtain ⟨ht, hrest⟩ := List.forall_mem_cons.mp htokens
    obtain ⟨known, hknown, h⟩ := expandLengths_cons_eq_some_iff.mp h
    rw [List.flatMap_cons] at hcomes ⊢
    obtain ⟨hfirst, hcomes⟩ := append_prefix_drop.mp hcomes
    -- Each token stands for some length, so there was room in front of it.
    have hlt := LengthToken.length_lt_of_expand hknown
    have hfits : known.length ≤ total := (length_le_of_expandLengths h).trans hle
    rw [codeLengths_token hcode ht hknown (hlt.trans_le hfits) hp hfirst, if_pos hfits,
      ih hrest h (le_of_isPrefix hp hfirst) hcomes, List.length_append, Nat.add_assoc]

/-- A repetition of the length before cannot be the first token. -/
theorem codeLengths_repeat_first (hcode : Admissible code) (hsymbol : code.getD 16 0 ≠ 0)
    (htotal : 0 < total) (hp : p ≤ 8 * data.size)
    (hcomes : codeWord code 16 <+: (BitOrder.lowFirst.stream data).drop p) :
    ∃ r, Inflater.codeLengths (.build code) total [] (.atBit data .lowFirst p)
      = .error (.deflate .repeatWithoutPrevious) r := by
  -- How often to repeat is not read any more.
  have hrun : Inflater.codeLengthRun (.build code) [] (.atBit data .lowFirst p)
      = .error (.deflate .repeatWithoutPrevious)
        (.atBit data .lowFirst (p + (codeWord code 16).length)) := by
    rw [Inflater.codeLengthRun, (reads_decode hcode.1 .lowFirst).bind_eq hp
      (codeWord_spec hcode hsymbol) hcomes]
    rfl
  have hmore : ([] : List Nat).length < total := htotal
  rw [Inflater.codeLengths, if_pos hmore, bind_of_error hrun]
  exact ⟨_, rfl⟩

end

/-! ### Heads -/

/-- The codes of a dynamic block with the given lengths, of which the first `literalCount` are those
    of the literal and length code. -/
def codesOf (literalCount : Nat) (lengths : List Nat) : BitReading (PrefixCode × PrefixCode) := do
  if lengths.getD Inflater.endOfBlock 0 = 0 then throw (.deflate .missingEndOfBlock)
  let literals ← ofExcept (PrefixCode.ofLengths (lengths.take literalCount))
  let distances ← ofExcept (PrefixCode.ofLengths (lengths.drop literalCount))
  return (literals, distances)

/-- What is read of the head of a dynamic block when the first lengths are known. -/
def codesFrom (literalCount distanceCount : Nat) (code : PrefixCode) (known : List Nat) :
    BitReading (PrefixCode × PrefixCode) := do
  codesOf literalCount (← Inflater.codeLengths code (literalCount + distanceCount) known)

section

variable {h : DynamicHead} {lengths : List Nat}

/-- What stands in front of the tokens is read, and gives the code that they are in. -/
theorem dynamicCodes_opening (hs : h.StandsFor lengths) (hp : p ≤ 8 * data.size)
    (hcomes : h.opening <+: (BitOrder.lowFirst.stream data).drop p) :
    Inflater.dynamicCodes (.atBit data .lowFirst p)
      = codesFrom h.literalCount h.distanceCount (.build h.code) []
        (.atBit data .lowFirst (p + h.opening.length)) := by
  obtain ⟨hliterals, hliterals'⟩ := hs.literalCount
  obtain ⟨hdistances, hdistances'⟩ := hs.distanceCount
  obtain ⟨hsent, hsent'⟩ := hs.sentCount
  -- Three numbers come first, and the third one says how many lengths follow.
  unfold DynamicHead.opening at hcomes ⊢
  obtain ⟨hfirst, hcomes⟩ := append_prefix_drop.mp hcomes
  have hp₁ := le_of_isPrefix hp hfirst
  obtain ⟨hsecond, hcomes⟩ := append_prefix_drop.mp hcomes
  have hp₂ := le_of_isPrefix hp₁ hsecond
  obtain ⟨hthird, hcomes⟩ := append_prefix_drop.mp hcomes
  have hp₃ := le_of_isPrefix hp₂ hthird
  have hcode : PrefixCode.ofLengths h.code = .ok (.build h.code) :=
    ofLengths_eq_ok_iff.mpr ⟨by rw [hs.code_length]; decide, hs.admissible, rfl⟩
  unfold Inflater.dynamicCodes
  rw [(reads_take_lowFirst (by decide)).bind_eq hp ⟨by omega, rfl⟩ hfirst,
    (reads_take_lowFirst (by decide)).bind_eq hp₁ ⟨by omega, rfl⟩ hsecond,
    (reads_take_lowFirst (by decide)).bind_eq hp₂ ⟨by omega, rfl⟩ hthird]
  dsimp only
  rw [if_neg (by omega), if_neg (by omega), (reads_codeLengthLengths (by omega)).bind_eq hp₃
    ⟨h.sent, by rw [hs.length_sent]; omega, hs.sent_lt, rfl, rfl⟩ hcomes, hs.codeLengthCode_sent,
    hcode, Nat.add_sub_cancel' hliterals, Nat.add_sub_cancel' hdistances]
  simp only [List.length_append, Nat.add_assoc]
  rfl

/-- The tokens are read one after the other. -/
theorem dynamicCodes_bits (hs : h.StandsFor lengths) (hp : p ≤ 8 * data.size)
    (hcomes : h.bits <+: (BitOrder.lowFirst.stream data).drop p) :
    Inflater.dynamicCodes (.atBit data .lowFirst p)
      = codesFrom h.literalCount h.distanceCount (.build h.code) lengths
        (.atBit data .lowFirst (p + h.bits.length)) := by
  obtain ⟨hopening, htokens⟩ := append_prefix_drop.mp hcomes
  have hlengths := codeLengths_tokens hs.admissible hs.writable hs.expand_eq hs.length_le
    (le_of_isPrefix hp hopening) htokens
  rw [dynamicCodes_opening hs hp hopening, DynamicHead.bits, List.length_append, ← Nat.add_assoc]
  unfold codesFrom
  simp only [bind, EStateM.bind, hlengths]

/-- Lengths that are all known are not read any further. -/
theorem codesFrom_eq {n m : Nat} {code : PrefixCode} {r : BitReader}
    (hlen : lengths.length = n + m) : codesFrom n m code lengths r = codesOf n lengths r := by
  have hknown : Inflater.codeLengths code (n + m) lengths r = .ok lengths r := by
    rw [Inflater.codeLengths, if_neg (by omega)]
    rfl
  exact bind_of_ok hknown _

/-- A head with admissible lengths gives both codes. -/
theorem dynamicCodes_of_gives {literals distances : List Nat} (hg : h.Gives literals distances)
    (hp : p ≤ 8 * data.size) (hcomes : h.bits <+: (BitOrder.lowFirst.stream data).drop p) :
    Inflater.dynamicCodes (.atBit data .lowFirst p)
      = .ok (.build literals, .build distances) (.atBit data .lowFirst (p + h.bits.length)) := by
  have hs := hg.standsFor
  have hlen : (literals ++ distances).length = h.literalCount + h.distanceCount := by
    rw [List.length_append, hg.literals_length, hg.distances_length]
  have hlt : 256 < literals.length := hs.literalCount.1.trans_eq hg.literals_length.symm
  -- The end of the block is looked up in all lengths, but it is among those of the literal code.
  have hend : (literals ++ distances).getD Inflater.endOfBlock 0 ≠ 0 := by
    rw [Inflater.endOfBlock, List.getD_eq_getElem?_getD, List.getElem?_append_left hlt,
      ← List.getD_eq_getElem?_getD]
    exact hg.end_ne_zero
  have hliterals : PrefixCode.ofLengths literals = .ok (.build literals) :=
    ofLengths_eq_ok_iff.mpr ⟨hg.literals_length_le.trans (by decide), hg.literals_admissible, rfl⟩
  have hdistances : PrefixCode.ofLengths distances = .ok (.build distances) :=
    ofLengths_eq_ok_iff.mpr ⟨hg.distances_length_le.trans (by decide), hg.distances_admissible, rfl⟩
  rw [dynamicCodes_bits hs hp hcomes, codesFrom_eq hlen, codesOf, if_neg hend,
    ← hg.literals_length, List.take_left, List.drop_left, hliterals, hdistances]
  rfl

/-- A head without a code word for the end of a block is refused. -/
theorem dynamicCodes_of_no_end (hs : h.StandsFor lengths)
    (hlen : lengths.length = h.literalCount + h.distanceCount) (hend : lengths.getD 256 0 = 0)
    (hp : p ≤ 8 * data.size) (hcomes : h.bits <+: (BitOrder.lowFirst.stream data).drop p) :
    ∃ r, Inflater.dynamicCodes (.atBit data .lowFirst p)
      = .error (.deflate .missingEndOfBlock) r := by
  have hend' : lengths.getD Inflater.endOfBlock 0 = 0 := hend
  rw [dynamicCodes_bits hs hp hcomes, codesFrom_eq hlen, codesOf, if_pos hend']
  exact ⟨_, rfl⟩

/-- A token that stands for more lengths than there are left is refused. -/
theorem dynamicCodes_of_overrun (hs : h.StandsFor lengths) {t : LengthToken}
    (ht : t.Writable h.code) {more : List Nat} (hmore : t.expand lengths = some more)
    (hlt : lengths.length < h.literalCount + h.distanceCount)
    (hpast : h.literalCount + h.distanceCount < more.length) (hp : p ≤ 8 * data.size)
    (hcomes : h.bits ++ t.bits h.code <+: (BitOrder.lowFirst.stream data).drop p) :
    ∃ r, Inflater.dynamicCodes (.atBit data .lowFirst p)
      = .error (.deflate .codeLengthOverrun) r := by
  obtain ⟨hbits, htoken⟩ := append_prefix_drop.mp hcomes
  have hrun := codeLengths_token hs.admissible ht hmore hlt (le_of_isPrefix hp hbits) htoken
  rw [if_neg (Nat.not_le.mpr hpast)] at hrun
  rw [dynamicCodes_bits hs hp hbits]
  exact ⟨_, bind_of_error hrun _⟩

/-- A first token that repeats the length before it is refused. -/
theorem dynamicCodes_of_repeat_first (hs : h.StandsFor []) (hsymbol : h.code.getD 16 0 ≠ 0)
    (hp : p ≤ 8 * data.size)
    (hcomes : h.bits ++ codeWord h.code 16 <+: (BitOrder.lowFirst.stream data).drop p) :
    ∃ r, Inflater.dynamicCodes (.atBit data .lowFirst p)
      = .error (.deflate .repeatWithoutPrevious) r := by
  obtain ⟨hbits, hword⟩ := append_prefix_drop.mp hcomes
  have htotal : 0 < h.literalCount + h.distanceCount := by
    have hcount := hs.literalCount.1
    omega
  obtain ⟨r, hrun⟩ := codeLengths_repeat_first hs.admissible hsymbol htotal
    (le_of_isPrefix hp hbits) hword
  rw [dynamicCodes_bits hs hp hbits]
  exact ⟨r, bind_of_error hrun _⟩

end

theorem DynamicHead.Refused.dynamicCodes_eq {w : List Bool} {fault : DeflateFault}
    (h : Refused w fault) (hp : p ≤ 8 * data.size)
    (hcomes : w <+: (BitOrder.lowFirst.stream data).drop p) :
    ∃ r, Inflater.dynamicCodes (.atBit data .lowFirst p) = .error (.deflate fault) r := by
  cases h with
  | overrun hs ht hmore hlt hpast =>
    exact dynamicCodes_of_overrun hs ht hmore hlt hpast hp hcomes
  | repeatFirst hs hsymbol => exact dynamicCodes_of_repeat_first hs hsymbol hp hcomes
  | noEnd hs hlen hend => exact dynamicCodes_of_no_end hs hlen hend hp hcomes

end Apfs.Deflate

namespace Apfs.InPlaceInflater

open Deflate

/-! ### Decoding in place -/

variable {data : ByteArray} {s : InPlaceInflater} {p : Nat}

/-- Both codes are filled into tables, and nothing is written to the caller's buffer. -/
theorem dynamicCodes_eq_ok {q : Nat} {codes : PrefixCode × PrefixCode} (hp : p ≤ 8 * data.size)
    (hreader : s.reader = .atBit data .lowFirst p) (hout : s.out.offset ≤ s.out.data.size)
    (h : Inflater.dynamicCodes (.atBit data .lowFirst p) = .ok codes (.atBit data .lowFirst q)) :
    ∃ tables s', dynamicCodes s = .ok tables s' ∧ AreTablesOf tables codes ∧
      s'.reader = .atBit data .lowFirst q ∧ s'.out = s.out := by
  obtain ⟨output, hs⟩ := exists_matches hp hreader hout
  have hrefined := refines_dynamicCodes hs
  rw [Inflater.reading, h] at hrefined
  obtain ⟨tables, s', hresult, htables, hs', -⟩ := hrefined
  obtain ⟨q', -, hreader', hsame⟩ := hs'.exists_atBit
  refine ⟨tables, s', hresult, htables, ?_, hs'.out_eq.trans hs.out_eq.symm⟩
  rw [hreader', (WordReader.eq_atBit_iff data .lowFirst).mpr
    ((WordReader.toReader_atBit data .lowFirst q').trans hsame.symm)]

/-- The table of a code with admissible lengths is the one that is filled for them. -/
theorem ofLengths_eq_of_isTableOf {lengths : List Nat} {table : CodeTable}
    (hlen : lengths.length ≤ 65535) (h : Admissible lengths)
    (htable : table.IsTableOf (.build lengths)) :
    CodeTable.ofLengths lengths = .ok table ∧ DecodesCode lengths table := by
  have hsame := CodeTable.ofLengths_eq lengths
  rw [ofLengths_eq_ok_iff.mpr ⟨hlen, h, rfl⟩] at hsame
  obtain ⟨table', htable', his⟩ := hsame
  rw [htable', his.unique htable]
  exact ⟨rfl, htable.decodesCode h⟩

/-- What is refused is refused in place, and nothing is written to the caller's buffer. -/
theorem dynamicCodes_eq_error {e : Error} {r : BitReader} (hp : p ≤ 8 * data.size)
    (hreader : s.reader = .atBit data .lowFirst p) (hout : s.out.offset ≤ s.out.data.size)
    (h : Inflater.dynamicCodes (.atBit data .lowFirst p) = .error e r) :
    ∃ s', dynamicCodes s = .error (.failed e) s' ∧ s'.out = s.out := by
  obtain ⟨output, hs⟩ := exists_matches hp hreader hout
  have hrefined := refines_dynamicCodes hs
  rw [Inflater.reading, h] at hrefined
  obtain ⟨s', hresult, hs', -⟩ := hrefined
  exact ⟨s', hresult, hs'.out_eq.trans hs.out_eq.symm⟩

/-- Tables of the canonical codes with some lengths. -/
structure AreTablesFor (literals distances : List Nat) (tables : CodeTable × CodeTable) :
    Prop where
  literals_eq : CodeTable.ofLengths literals = .ok tables.1
  distances_eq : CodeTable.ofLengths distances = .ok tables.2
  decodes_literals : DecodesCode literals tables.1
  decodes_distances : DecodesCode distances tables.2

theorem AreTablesOf.areTablesFor {literals distances : List Nat} {tables : CodeTable × CodeTable}
    (h : AreTablesOf tables (.build literals, .build distances))
    (hlen : literals.length ≤ 286) (hlen' : distances.length ≤ 30)
    (hliterals : Admissible literals) (hdistances : Admissible distances) :
    AreTablesFor literals distances tables := by
  obtain ⟨heq, hdecodes⟩ := ofLengths_eq_of_isTableOf (hlen.trans (by decide)) hliterals h.1
  obtain ⟨heq', hdecodes'⟩ := ofLengths_eq_of_isTableOf (hlen'.trans (by decide)) hdistances h.2
  exact ⟨heq, heq', hdecodes, hdecodes'⟩

/-- What the head of a dynamic block is accepted for: the bits that come next stand for both codes,
    and are all that is read. -/
def Accepts (data : ByteArray) (p : Nat) (tables : CodeTable × CodeTable) (s s' : InPlaceInflater) :
    Prop :=
  ∃ literals distances w, CodesBits literals distances w ∧
    w <+: (BitOrder.lowFirst.stream data).drop p ∧ AreTablesFor literals distances tables ∧
    s'.reader = .atBit data .lowFirst (p + w.length) ∧ s'.out = s.out

/-- The head is accepted, or it is refused with an error; no access is out of range. -/
theorem dynamicCodes_cases (hp : p ≤ 8 * data.size)
    (hreader : s.reader = .atBit data .lowFirst p) (hout : s.out.offset ≤ s.out.data.size) :
    (∃ tables s', dynamicCodes s = .ok tables s' ∧ Accepts data p tables s s') ∨
    ∃ e s', dynamicCodes s = .error (.failed e) s' ∧ s'.out = s.out := by
  cases h : Inflater.dynamicCodes (.atBit data .lowFirst p) with
  | ok codes r =>
    obtain ⟨w, ⟨literals, distances, hbits, rfl⟩, hcomes, rfl⟩ :=
      (reads_dynamicCodes hp codes r).mp h
    obtain ⟨tables, s', hresult, htables, hreader', hout'⟩ := dynamicCodes_eq_ok hp hreader hout h
    have hcodes := hbits
    obtain ⟨-, -, ⟨-, hlen⟩, ⟨-, hlen'⟩, -, -, hliterals, hdistances, -⟩ := hcodes
    exact .inl ⟨tables, s', hresult, literals, distances, w, hbits, hcomes,
      htables.areTablesFor hlen hlen' hliterals hdistances, hreader', hout'⟩
  | error e r =>
    obtain ⟨s', hresult, hout'⟩ := dynamicCodes_eq_error hp hreader hout h
    exact .inr ⟨e, s', hresult, hout'⟩

/-- **The head of a dynamic block** is read however its lengths are cut into tokens, and gives the
    tables of both codes.  Runs past the last length, repetitions of nothing and codes without an
    end of the block are refused.  Only heads of the format are accepted, and whatever the bits
    are, no length is written out of its place. -/
theorem dynamicCodes_reads_and_refuses (hp : p ≤ 8 * data.size)
    (hreader : s.reader = .atBit data .lowFirst p) (hout : s.out.offset ≤ s.out.data.size) :
    (∀ h literals distances, DynamicHead.Gives h literals distances →
      h.bits <+: (BitOrder.lowFirst.stream data).drop p →
      ∃ tables s', dynamicCodes s = .ok tables s' ∧ AreTablesFor literals distances tables ∧
        s'.reader = .atBit data .lowFirst (p + h.bits.length) ∧ s'.out = s.out) ∧
    (∀ w fault, DynamicHead.Refused w fault → w <+: (BitOrder.lowFirst.stream data).drop p →
      ∃ s', dynamicCodes s = .error (.failed (.deflate fault)) s' ∧ s'.out = s.out) ∧
    (∀ tables s', dynamicCodes s = .ok tables s' → Accepts data p tables s s') ∧
    ∀ b s', dynamicCodes s ≠ .error (.breach b) s' := by
  have hcases := dynamicCodes_cases hp hreader hout
  refine ⟨fun h literals distances hgives hcomes => ?_, fun w fault hrefused hcomes => ?_,
    fun tables s' hresult => ?_, fun b s' hresult => ?_⟩
  · obtain ⟨tables, s', hresult, htables, hreader', hout'⟩ :=
      dynamicCodes_eq_ok hp hreader hout (dynamicCodes_of_gives hgives hp hcomes)
    exact ⟨tables, s', hresult, htables.areTablesFor hgives.literals_length_le
      hgives.distances_length_le hgives.literals_admissible hgives.distances_admissible, hreader',
      hout'⟩
  · obtain ⟨r, hread⟩ := hrefused.dynamicCodes_eq hp hcomes
    exact dynamicCodes_eq_error hp hreader hout hread
  · obtain ⟨tables', s₁, hresult', haccepts⟩ | ⟨e, s₁, hresult', -⟩ := hcases
    · obtain ⟨rfl, rfl⟩ := EStateM.Result.ok.inj (hresult'.symm.trans hresult)
      exact haccepts
    · cases hresult'.symm.trans hresult
  · obtain ⟨tables, s₁, hresult', -⟩ | ⟨e, s₁, hresult', -⟩ := hcases
    · cases hresult'.symm.trans hresult
    · cases hresult'.symm.trans hresult

/-- The same tokens give both codes if there are two distance lengths, and are refused if there is
    only one. -/
theorem dynamicCodes_sparseHead :
    let reads : ByteArray := ⟨#[0x20, 0xb8, 0x10, 0, 0, 0, 0, 0, 0xe4, 0x4f, 0xdd, 0]⟩
    let refuses : ByteArray := ⟨#[0x00, 0xb8, 0x10, 0, 0, 0, 0, 0, 0xe4, 0x4f, 0xdd, 0]⟩
    let s (data : ByteArray) : InPlaceInflater :=
      { reader := .atBit data .lowFirst 0, out := ⟨.empty, 0⟩ }
    (∃ tables s', dynamicCodes (s reads) = .ok tables s' ∧
      AreTablesFor (List.replicate 255 0 ++ [1, 1]) [1, 1] tables ∧
      s'.reader = .atBit reads .lowFirst 90) ∧
    ∃ s', dynamicCodes (s refuses) = .error (.failed (.deflate .codeLengthOverrun)) s' := by
  intro reads refuses s
  constructor
  · have hbits : (sparseHead 2 (sparseTokens ++ [.previous 0])).bits <+:
        (BitOrder.lowFirst.stream reads).drop 0 := by decide
    obtain ⟨tables, s', hresult, htables, hreader, -⟩ :=
      (dynamicCodes_reads_and_refuses (s := s reads) (Nat.zero_le _) rfl (Nat.zero_le _)).1
        _ _ _ gives_sparseHead hbits
    exact ⟨tables, s', hresult, htables, hreader⟩
  · have hbits : (sparseHead 1 sparseTokens).bits ++
        (LengthToken.previous 0).bits sparseCode <+:
        (BitOrder.lowFirst.stream refuses).drop 0 := by decide
    obtain ⟨s', hresult, -⟩ :=
      (dynamicCodes_reads_and_refuses (s := s refuses) (Nat.zero_le _) rfl (Nat.zero_le _)).2.1
        _ _ refused_sparseHead hbits
    exact ⟨s', hresult⟩

end Apfs.InPlaceInflater
