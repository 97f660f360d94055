import Apfs.Proofs.Compression.DeflateFormat
import Apfs.Proofs.Compression.TableDecoding

namespace Apfs.Deflate

/-!
# Writing the heads of dynamic blocks

The code lengths of a dynamic block are written as tokens: single lengths and runs.  There are many
ways to cut a sequence of lengths into tokens, and a run may reach from the lengths of the literal
code into those of the distance code.

* `codeWord` — the code word of a symbol.
* `LengthToken`, `expandLengths` — tokens, and the lengths that they stand for.
* `DynamicHead` — what the head of a block is written from; `DynamicHead.bits` are its bits.
* `DynamicHead.StandsFor` — a head, or the first part of one, that stands for some lengths.
* `DynamicHead.Gives`, `DynamicHead.Refused` — heads with both codes, and heads that go wrong.
-/

/-! ### Code words -/

/-- The code word of a symbol that has one, as bits. -/
def codeWord (code : List Nat) (symbol : Nat) : List Bool :=
  let l := code.getD symbol 0
  (lowBits l (firstWord code l + (code.take symbol).count l)).reverse

theorem codeWord_spec {code : List Nat} (h : Admissible code) {symbol : Nat}
    (hsymbol : code.getD symbol 0 ≠ 0) : CodeWord code symbol (codeWord code symbol) := by
  have hget : code[symbol]? = some (code.getD symbol 0) := by
    rw [List.getD_eq_getElem?_getD] at hsymbol ⊢
    cases hlength : code[symbol]? with
    | none => exact absurd (by rw [hlength]; rfl) hsymbol
    | some l => rfl
  obtain ⟨w, hlen, hword⟩ := h.exists_codeWord hget hsymbol
  -- The bits of the word are those of its number.
  obtain ⟨-, hreverse⟩ := eq_lowBits_iff.mp ⟨List.length_reverse, hword.2.2.symm⟩
  have heq : w = codeWord code symbol := by
    rw [← List.reverse_reverse w, hreverse, hlen]
    rfl
  rwa [← heq]

/-! ### Tokens -/

/-- A symbol of the code length code, with the number that is written behind it. -/
inductive LengthToken where
  /-- A single length. -/
  | single (l : Nat)
  /-- The length before, `3 + more` times. -/
  | previous (more : Nat)
  /-- Zero, `3 + more` times. -/
  | zeros (more : Nat)
  /-- Zero, `11 + more` times. -/
  | manyZeros (more : Nat)

namespace LengthToken

/-- The symbol of the code length code. -/
def symbol : LengthToken → Nat
  | single l => l
  | previous _ => 16
  | zeros _ => 17
  | manyZeros _ => 18

/-- The bits behind the code word of the symbol. -/
def extra : LengthToken → List Bool
  | single _ => []
  | previous more => lowBits 2 more
  | zeros more => lowBits 3 more
  | manyZeros more => lowBits 7 more

/-- The token can be written in the code: its number is not too large, and its symbol has a code
    word. -/
def Writable (code : List Nat) (t : LengthToken) : Prop :=
  code.getD t.symbol 0 ≠ 0 ∧ match t with
    | single l => l ≤ 15
    | previous more => more < 4
    | zeros more => more < 8
    | manyZeros more => more < 128

/-- The bits of the token in the code. -/
def bits (code : List Nat) (t : LengthToken) : List Bool := codeWord code t.symbol ++ t.extra

/-- The lengths that the token stands for, given those before it. -/
def run (before : List Nat) : LengthToken → Option (List Nat)
  | single l => some [l]
  | previous more => before.getLast?.map (List.replicate (3 + more))
  | zeros more => some (List.replicate (3 + more) 0)
  | manyZeros more => some (List.replicate (11 + more) 0)

/-- The lengths up to the end of the token, given those before it. -/
def expand (before : List Nat) (t : LengthToken) : Option (List Nat) :=
  (t.run before).map (before ++ ·)

variable {code before lengths : List Nat} {t : LengthToken}

theorem expand_eq_some_iff :
    t.expand before = some lengths ↔ ∃ run, t.run before = some run ∧ before ++ run = lengths := by
  rw [expand, Option.map_eq_some_iff]

/-- Each token stands for some length. -/
theorem length_lt_of_expand (h : t.expand before = some lengths) :
    before.length < lengths.length := by
  obtain ⟨run, hrun, rfl⟩ := expand_eq_some_iff.mp h
  have hpos : 0 < run.length := by
    cases t with
    | single l =>
      cases hrun
      exact Nat.one_pos
    | previous more =>
      obtain ⟨l, -, rfl⟩ := Option.map_eq_some_iff.mp hrun
      rw [List.length_replicate]
      omega
    | zeros more =>
      cases hrun
      rw [List.length_replicate]
      omega
    | manyZeros more =>
      cases hrun
      rw [List.length_replicate]
      omega
  rw [List.length_append]
  omega

/-- The bits of a token are those of its run. -/
theorem runBits (hcode : Admissible code) (ht : t.Writable code) {run : List Nat}
    (h : t.run before = some run) : RunBits code before run (t.bits code) := by
  obtain ⟨hsymbol, hmore⟩ := ht
  have hword := codeWord_spec hcode hsymbol
  -- The number that is written is the number that is read.
  have hnumber {width more : Nat} (h : more < 2 ^ width) :
      more = ofLowBits (lowBits width more) := by
    rw [ofLowBits_lowBits, Nat.mod_eq_of_lt h]
  cases t with
  | single l =>
    cases h
    rw [bits, extra, List.append_nil]
    exact .single hmore hword
  | previous more =>
    obtain ⟨l, hlast, rfl⟩ := Option.map_eq_some_iff.mp h
    have hrun := RunBits.previous hlast hword (length_lowBits 2 more)
    rwa [← hnumber hmore] at hrun
  | zeros more =>
    cases h
    have hrun := @RunBits.zeros code before _ _ hword (length_lowBits 3 more)
    rwa [← hnumber hmore] at hrun
  | manyZeros more =>
    cases h
    have hrun := @RunBits.manyZeros code before _ _ hword (length_lowBits 7 more)
    rwa [← hnumber hmore] at hrun

end LengthToken

/-- The lengths that tokens stand for, behind those before them. -/
def expandLengths (before : List Nat) (tokens : List LengthToken) : Option (List Nat) :=
  tokens.foldlM LengthToken.expand before

theorem expandLengths_cons_eq_some_iff {before lengths : List Nat} {t : LengthToken}
    {tokens : List LengthToken} :
    expandLengths before (t :: tokens) = some lengths ↔
      ∃ known, t.expand before = some known ∧ expandLengths known tokens = some lengths := by
  rw [expandLengths, List.foldlM_cons, Option.bind_eq_bind, Option.bind_eq_some_iff]
  rfl

theorem length_le_of_expandLengths {before lengths : List Nat} {tokens : List LengthToken}
    (h : expandLengths before tokens = some lengths) : before.length ≤ lengths.length := by
  induction tokens generalizing before with
  | nil =>
    cases h
    exact Nat.le_refl _
  | cons t tokens ih =>
    obtain ⟨known, hknown, h⟩ := expandLengths_cons_eq_some_iff.mp h
    exact (LengthToken.length_lt_of_expand hknown).le.trans (ih h)

/-! ### Heads -/

/-- What the head of a dynamic block is written from. -/
structure DynamicHead where
  /-- The number of lengths of the literal and length code. -/
  literalCount : Nat
  /-- The number of lengths of the distance code. -/
  distanceCount : Nat
  /-- The lengths of the code length code, by symbol. -/
  code : List Nat
  /-- How many of them are sent. -/
  sentCount : Nat
  /-- The tokens, as far as they are written. -/
  tokens : List LengthToken

namespace DynamicHead

/-- The lengths of the code length code that are sent, in the order in which they are. -/
def sent (h : DynamicHead) : List Nat :=
  (codeLengthOrder.take h.sentCount).map fun symbol => h.code.getD symbol 0

/-- The bits in front of the tokens. -/
def opening (h : DynamicHead) : List Bool :=
  lowBits 5 (h.literalCount - 257) ++ (lowBits 5 (h.distanceCount - 1) ++
    (lowBits 4 (h.sentCount - 4) ++ h.sent.flatMap (lowBits 3)))

/-- All bits. -/
def bits (h : DynamicHead) : List Bool :=
  h.opening ++ h.tokens.flatMap (LengthToken.bits h.code)

/-- The head is written by the rules of the format, up to some token, and its tokens stand for
    `lengths`, which are the first ones of both codes together. -/
structure StandsFor (h : DynamicHead) (lengths : List Nat) : Prop where
  literalCount : 257 ≤ h.literalCount ∧ h.literalCount ≤ 286
  distanceCount : 1 ≤ h.distanceCount ∧ h.distanceCount ≤ 30
  code_length : h.code.length = 19
  /-- Lengths of the code length code are written in three bits. -/
  code_lt : ∀ l ∈ h.code, l < 8
  admissible : Admissible h.code
  sentCount : 4 ≤ h.sentCount ∧ h.sentCount ≤ 19
  /-- Symbols whose lengths are not sent have no code word. -/
  sufficient : ∀ symbol ∈ codeLengthOrder.drop h.sentCount, h.code.getD symbol 0 = 0
  writable : ∀ t ∈ h.tokens, t.Writable h.code
  expand_eq : expandLengths [] h.tokens = some lengths
  length_le : lengths.length ≤ h.literalCount + h.distanceCount

variable {h : DynamicHead} {lengths : List Nat}

theorem StandsFor.length_sent (hs : h.StandsFor lengths) : h.sent.length = h.sentCount := by
  rw [sent, List.length_map, List.length_take]
  exact Nat.min_eq_left hs.sentCount.2

theorem StandsFor.sent_lt (hs : h.StandsFor lengths) : ∀ l ∈ h.sent, l < 8 := by
  intro l hl
  obtain ⟨symbol, -, rfl⟩ := List.mem_map.mp hl
  rw [List.getD_eq_getElem?_getD]
  cases hget : h.code[symbol]? with
  | none => decide
  | some l => exact hs.code_lt l (List.mem_of_getElem? hget)

/-- The lengths that are sent are enough to know all of them. -/
theorem StandsFor.codeLengthCode_sent (hs : h.StandsFor lengths) :
    codeLengthCode h.sent = h.code := by
  -- Each symbol has its place in the order, in front of `sentCount` or behind.
  have hfound : ∀ symbol < 19, symbol ∈ codeLengthOrder := by decide
  have hcode : h.code = (List.range 19).map fun symbol => h.code.getD symbol 0 := by
    apply List.ext_getElem
    · rw [List.length_map, List.length_range, hs.code_length]
    · intro i hi hi'
      rw [List.getElem_map, List.getElem_range, List.getD_eq_getElem?_getD,
        List.getElem?_eq_getElem hi]
      rfl
  conv_rhs => rw [hcode]
  refine List.map_congr_left fun symbol hsymbol => ?_
  have hplace : codeLengthOrder.idxOf symbol < codeLengthOrder.length :=
    List.idxOf_lt_length_of_mem (hfound symbol (List.mem_range.mp hsymbol))
  have hthere : codeLengthOrder[codeLengthOrder.idxOf symbol] = symbol := List.getElem_idxOf hplace
  rw [sent, List.getElem?_map]
  by_cases hsent : codeLengthOrder.idxOf symbol < h.sentCount
  · rw [List.getElem?_take_of_lt hsent, List.getElem?_eq_getElem hplace, hthere]
    rfl
  · have hdropped : symbol ∈ codeLengthOrder.drop h.sentCount := by
      rw [List.mem_drop_iff_getElem]
      refine ⟨codeLengthOrder.idxOf symbol - h.sentCount, by omega, ?_⟩
      simp only [Nat.add_sub_cancel' (Nat.le_of_not_lt hsent), hthere]
    rw [List.getElem?_take_eq_none (Nat.le_of_not_lt hsent), hs.sufficient symbol hdropped]
    rfl

/-- The head gives both codes, and a block with these codes can be ended. -/
structure Gives (h : DynamicHead) (literals distances : List Nat) : Prop where
  standsFor : h.StandsFor (literals ++ distances)
  literals_length : literals.length = h.literalCount
  distances_length : distances.length = h.distanceCount
  end_ne_zero : literals.getD 256 0 ≠ 0
  literals_admissible : Admissible literals
  distances_admissible : Admissible distances

theorem Gives.literals_length_le {literals distances : List Nat} (hg : h.Gives literals distances) :
    literals.length ≤ 286 := hg.literals_length.trans_le hg.standsFor.literalCount.2

theorem Gives.distances_length_le {literals distances : List Nat}
    (hg : h.Gives literals distances) : distances.length ≤ 30 :=
  hg.distances_length.trans_le hg.standsFor.distanceCount.2

/-- Bits of heads that go wrong, and the faults. -/
inductive Refused : List Bool → DeflateFault → Prop
  /-- A token stands for more lengths than there are left. -/
  | overrun {h : DynamicHead} {lengths more : List Nat} {t : LengthToken} : h.StandsFor lengths →
    t.Writable h.code → t.expand lengths = some more →
    lengths.length < h.literalCount + h.distanceCount →
    h.literalCount + h.distanceCount < more.length →
    Refused (h.bits ++ t.bits h.code) .codeLengthOverrun
  /-- The first token repeats the length before it. -/
  | repeatFirst {h : DynamicHead} : h.StandsFor [] → h.code.getD 16 0 ≠ 0 →
    Refused (h.bits ++ codeWord h.code 16) .repeatWithoutPrevious
  /-- There is no code word for the end of the block. -/
  | noEnd {h : DynamicHead} {lengths : List Nat} : h.StandsFor lengths →
    lengths.length = h.literalCount + h.distanceCount → lengths.getD 256 0 = 0 →
    Refused h.bits .missingEndOfBlock

end DynamicHead

/-! ### Tokens behind two heads -/

/-- A code in which single zeros cannot be written. -/
def sparseCode : List Nat := [0, 2, 0, 0, 0, 0, 0, 0, 0, 0, 0, 0, 0, 0, 0, 0, 2, 0, 1]

/-- A head of which the distance code has `n` lengths. -/
def sparseHead (n : Nat) (tokens : List LengthToken) : DynamicHead where
  literalCount := 257
  distanceCount := n
  code := sparseCode
  sentCount := 18
  tokens := tokens

/-- Tokens for the lengths in front of that of the end of the block. -/
def sparseTokens : List LengthToken := [.manyZeros 127, .manyZeros 106, .single 1]

theorem writable_sparseTokens : ∀ t ∈ sparseTokens, t.Writable sparseCode := by
  simp only [sparseTokens, List.forall_mem_cons]
  exact ⟨⟨by decide, by decide⟩, ⟨by decide, by decide⟩, ⟨by decide, by decide⟩,
    List.forall_mem_nil _⟩

theorem standsFor_sparseHead {n : Nat} {tokens : List LengthToken} {lengths : List Nat}
    (hn : 1 ≤ n ∧ n ≤ 30) (hwritable : ∀ t ∈ tokens, t.Writable sparseCode)
    (hlengths : expandLengths [] tokens = some lengths) (hle : lengths.length ≤ 257 + n) :
    (sparseHead n tokens).StandsFor lengths where
  literalCount := (by decide : 257 ≤ 257 ∧ 257 ≤ 286)
  distanceCount := hn
  code_length := rfl
  code_lt := (by decide : ∀ l ∈ sparseCode, l < 8)
  admissible := (⟨by decide, by decide⟩ : Admissible sparseCode)
  sentCount := (by decide : 4 ≤ 18 ∧ 18 ≤ 19)
  sufficient := (by decide : ∀ symbol ∈ codeLengthOrder.drop 18, sparseCode.getD symbol 0 = 0)
  writable := hwritable
  expand_eq := hlengths
  length_le := hle

/-- The last token stands for the length of the end of the block and for those of the distance
    code. -/
theorem gives_sparseHead :
    (sparseHead 2 (sparseTokens ++ [.previous 0])).Gives (List.replicate 255 0 ++ [1, 1])
      [1, 1] where
  standsFor := by
    have hlast : ∀ t ∈ [LengthToken.previous 0], t.Writable sparseCode :=
      List.forall_mem_singleton.mpr ⟨by decide, by decide⟩
    exact standsFor_sparseHead (by decide) (List.forall_mem_append.mpr
      ⟨writable_sparseTokens, hlast⟩) (by decide +kernel) (by decide +kernel)
  literals_length := by decide +kernel
  distances_length := rfl
  end_ne_zero := by decide +kernel
  literals_admissible := ⟨by decide +kernel, by decide +kernel⟩
  distances_admissible := ⟨by decide, by decide⟩

/-- With a single distance code the last token reaches past the last length. -/
theorem refused_sparseHead :
    DynamicHead.Refused ((sparseHead 1 sparseTokens).bits ++
      (LengthToken.previous 0).bits sparseCode) .codeLengthOverrun := by
  have hs : (sparseHead 1 sparseTokens).StandsFor (List.replicate 255 0 ++ [1]) :=
    standsFor_sparseHead (by decide) writable_sparseTokens (by decide +kernel) (by decide +kernel)
  exact .overrun hs ⟨by decide, by decide⟩ rfl (by decide +kernel) (by decide +kernel)

end Apfs.Deflate
