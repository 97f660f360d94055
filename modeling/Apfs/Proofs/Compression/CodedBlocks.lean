import Apfs.Proofs.Compression.DynamicCodes
import Apfs.Proofs.Compression.LimitedOutput

namespace Apfs.Deflate

/-!
# Decoding coded blocks

Decoding a coded block goes on as long as there is room before each token, so that only the last
token of a block may be cut off.

* `tokenRest` — what is decoded after the first code word of a token.
* `codedStep_eq_ok_iff` — decoding one token.
* `decodes_codedBlock` — decoding the tokens of a block.
-/

/-! ### Tokens -/

/-- Distances are at least 1. -/
theorem RangeBits.one_le_distance {j distance : Nat} {w : List Bool}
    (h : RangeBits (distanceRange j) distance w) : 1 ≤ distance := by
  obtain ⟨base, hrange, rfl⟩ := h
  unfold distanceRange at hrange
  split at hrange
  · obtain ⟨rfl, -⟩ := Prod.mk.inj (Option.some.inj hrange)
    omega
  · split at hrange
    · obtain ⟨rfl, -⟩ := Prod.mk.inj (Option.some.inj hrange)
      omega
    · cases hrange

/-- Appends a copy, as far as there is room. -/
def copyTo (n length distance : Nat) : Inflating (Option BlockEnd) := do
  let size := (← get).output.size
  if size < distance then throw (.deflate .distanceTooFar)
  let count := min length (n - size)
  Inflater.write (Bytes.copyBack · distance count)
  return none

/-- Decodes a copy, from the bits of its length on. -/
def copyStep (n : Nat) (distances : PrefixCode) (i : Nat) : Inflating (Option BlockEnd) := do
  let length ← Inflater.reading (Inflater.extended Inflater.lengthTable i .literalSymbol)
  let j ← Inflater.reading distances.decode
  let distance ← Inflater.reading (Inflater.extended Inflater.distanceTable j .distanceSymbol)
  copyTo n length distance

/-- Decodes the rest of a token, from the bits after its first code word on. -/
def tokenRest (n : Nat) (distances : PrefixCode) (symbol : Nat) :
    Inflating (Option BlockEnd) := do
  if symbol = Inflater.endOfBlock then return some .reached
  if n ≤ (← get).output.size then return some .outputFull
  if symbol < Inflater.endOfBlock then
    Inflater.write (·.push (UInt8.ofNat symbol))
    return none
  copyStep n distances (symbol - 257)

theorem codedStep_eq (n : Nat) (literals distances : PrefixCode) :
    Inflater.codedStep n literals distances
      = Inflater.reading literals.decode >>= tokenRest n distances := rfl

section

variable {n : Nat} {data : ByteArray} {p : Nat} {l : List UInt8}

/-- The distance tells whether a copy is possible. -/
theorem copyTo_eq {distance : Nat} (hroom : l.length < n) (hpos : 1 ≤ distance) (length : Nat) :
    copyTo n length distance (state n data p l)
      = if distance ≤ l.length then .ok none (state n data p (l ++ repeated l distance length))
        else .error (.deflate .distanceTooFar) (state n data p l) := by
  have hsize : (cut n l).size = l.length := by
    rw [size_cut]
    omega
  show (if (cut n l).size < distance then _ else _ : Inflating (Option BlockEnd)) _ = _
  by_cases hle : distance ≤ l.length
  · rw [if_neg (by omega), if_pos hle]
    show EStateM.Result.ok none (⟨.atBit data .lowFirst p,
      Bytes.copyBack (cut n l) distance (min length (n - (cut n l).size))⟩ : Inflater) = _
    rw [copyBack_cut hroom hpos hle]
    rfl
  · rw [if_pos (by omega), if_neg hle]
    rfl

/-- **Decoding a copy**, from the bits of its length on. -/
theorem copyStep_eq_ok_iff {distances : List Nat} (hdistances : ∀ l ∈ distances, l ≤ 15) (i : Nat)
    (hroom : l.length < n) (hp : p ≤ 8 * data.size) {r : Option BlockEnd} {s' : Inflater} :
    copyStep n (.build distances) i (state n data p l) = .ok r s' ↔
      ∃ length distance j extra word extra', RangeBits (lengthRange i) length extra ∧
        CodeWord distances j word ∧ RangeBits (distanceRange j) distance extra' ∧
        distance ≤ l.length ∧
        extra ++ (word ++ extra') <+: (BitOrder.lowFirst.stream data).drop p ∧
        r = none ∧ s' = state n data (p + (extra ++ (word ++ extra')).length)
          (l ++ repeated l distance length) := by
  unfold copyStep
  constructor
  · intro h
    obtain ⟨length, extra, hlength, hcomes, h⟩ :=
      (reading_bind_eq_ok_iff (reads_length i _) hp).mp h
    have hp₁ := le_of_isPrefix hp hcomes
    obtain ⟨j, word, hword, hcomes₁, h⟩ :=
      (reading_bind_eq_ok_iff (reads_decode hdistances _) hp₁).mp h
    have hp₂ := le_of_isPrefix hp₁ hcomes₁
    obtain ⟨distance, extra', hdistance, hcomes₂, h⟩ :=
      (reading_bind_eq_ok_iff (reads_distance j _) hp₂).mp h
    rw [copyTo_eq hroom hdistance.one_le_distance] at h
    by_cases hle : distance ≤ l.length
    · rw [if_pos hle] at h
      cases h
      refine ⟨length, distance, j, extra, word, extra', hlength, hword, hdistance, hle,
        append_prefix_drop.mpr ⟨hcomes, append_prefix_drop.mpr ⟨hcomes₁, hcomes₂⟩⟩, rfl, ?_⟩
      rw [List.length_append, List.length_append, Nat.add_assoc, Nat.add_assoc]
    · rw [if_neg hle] at h
      cases h
  · rintro ⟨length, distance, j, extra, word, extra', hlength, hword, hdistance, hle, hcomes,
      rfl, rfl⟩
    obtain ⟨hcomes, hrest⟩ := append_prefix_drop.mp hcomes
    obtain ⟨hcomes₁, hcomes₂⟩ := append_prefix_drop.mp hrest
    have hp₁ := le_of_isPrefix hp hcomes
    have hp₂ := le_of_isPrefix hp₁ hcomes₁
    refine (reading_bind_eq_ok_iff (reads_length i _) hp).mpr ⟨length, extra, hlength, hcomes, ?_⟩
    refine (reading_bind_eq_ok_iff (reads_decode hdistances _) hp₁).mpr
      ⟨j, word, hword, hcomes₁, ?_⟩
    refine (reading_bind_eq_ok_iff (reads_distance j _) hp₂).mpr
      ⟨distance, extra', hdistance, hcomes₂, ?_⟩
    rw [copyTo_eq hroom hdistance.one_le_distance, if_pos hle, List.length_append,
      List.length_append, Nat.add_assoc, Nat.add_assoc]

/-! The end of a block is looked for before the room, and the room before anything else. -/

theorem tokenRest_endOfBlock (distances : PrefixCode) (s : Inflater) :
    tokenRest n distances 256 s = .ok (some .reached) s := rfl

theorem tokenRest_of_le {symbol : Nat} (distances : PrefixCode) (hsymbol : symbol ≠ 256)
    (hfull : n ≤ l.length) :
    tokenRest n distances symbol (state n data p l)
      = .ok (some .outputFull) (state n data p l) := by
  have hsize : n ≤ (cut n l).size := by
    rw [size_cut]
    omega
  unfold tokenRest
  rw [if_neg (show symbol ≠ Inflater.endOfBlock from hsymbol)]
  show (if n ≤ (cut n l).size then _ else _ : Inflating (Option BlockEnd)) _ = _
  rw [if_pos hsize]
  rfl

theorem tokenRest_of_lt {symbol : Nat} (distances : PrefixCode) (hsymbol : symbol ≠ 256)
    (hroom : l.length < n) :
    tokenRest n distances symbol (state n data p l)
      = if symbol < 256 then .ok none (state n data p (l ++ [UInt8.ofNat symbol]))
        else copyStep n distances (symbol - 257) (state n data p l) := by
  have hsize : ¬ n ≤ (cut n l).size := by
    rw [size_cut]
    omega
  unfold tokenRest
  rw [if_neg (show symbol ≠ Inflater.endOfBlock from hsymbol)]
  show (if n ≤ (cut n l).size then _ else _ : Inflating (Option BlockEnd)) _ = _
  rw [if_neg hsize]
  by_cases hliteral : symbol < 256
  · rw [if_pos (show symbol < Inflater.endOfBlock from hliteral), if_pos hliteral]
    show EStateM.Result.ok none (⟨.atBit data .lowFirst p,
      (cut n l).push (UInt8.ofNat symbol)⟩ : Inflater) = _
    rw [push_cut hroom]
    rfl
  · rw [if_neg (show ¬ symbol < Inflater.endOfBlock from hliteral), if_neg hliteral]

/-- **Decoding one token.**  The block ends at the symbol for its end, also if the output is full;
    any other symbol shows that the output was full too early, or it starts a token. -/
theorem codedStep_eq_ok_iff {literals distances : List Nat} (hliterals : ∀ l ∈ literals, l ≤ 15)
    (hdistances : ∀ l ∈ distances, l ≤ 15) (hp : p ≤ 8 * data.size) {r : Option BlockEnd}
    {s' : Inflater} :
    Inflater.codedStep n (.build literals) (.build distances) (state n data p l) = .ok r s' ↔
      ∃ w, w <+: (BitOrder.lowFirst.stream data).drop p ∧
        (r = some .reached ∧ CodeWord literals 256 w ∧ s' = state n data (p + w.length) l ∨
        r = some .outputFull ∧ n ≤ l.length ∧ (∃ s, s ≠ 256 ∧ CodeWord literals s w) ∧
          s' = state n data (p + w.length) l ∨
        r = none ∧ l.length < n ∧ ∃ token l', TokenBits literals distances token w ∧
          token.expand l = some l' ∧ s' = state n data (p + w.length) l') := by
  rw [codedStep_eq, reading_bind_eq_ok_iff (reads_decode hliterals _) hp]
  constructor
  · rintro ⟨symbol, w, hword, hcomes, h⟩
    by_cases hend : symbol = 256
    · rw [hend, tokenRest_endOfBlock] at h
      cases h
      rw [hend] at hword
      exact ⟨w, hcomes, .inl ⟨rfl, hword, rfl⟩⟩
    by_cases hfull : n ≤ l.length
    · rw [tokenRest_of_le _ hend hfull] at h
      cases h
      exact ⟨w, hcomes, .inr (.inl ⟨rfl, hfull, ⟨symbol, hend, hword⟩, rfl⟩)⟩
    have hroom : l.length < n := Nat.lt_of_not_le hfull
    rw [tokenRest_of_lt _ hend hroom] at h
    by_cases hliteral : symbol < 256
    · rw [if_pos hliteral] at h
      cases h
      refine ⟨w, hcomes, .inr (.inr ⟨rfl, hroom, .literal (UInt8.ofNat symbol), _, ?_, rfl, rfl⟩)⟩
      rw [TokenBits, UInt8.toNat_ofNat_of_lt' hliteral]
      exact hword
    · rw [if_neg hliteral] at h
      obtain ⟨length, distance, j, extra, word, extra', hlength, hword', hdistance, hle,
        hcomes', rfl, rfl⟩ :=
        (copyStep_eq_ok_iff hdistances _ hroom (le_of_isPrefix hp hcomes)).mp h
      have hsymbol : symbol = 257 + (symbol - 257) := by omega
      rw [hsymbol] at hword
      refine ⟨w ++ (extra ++ (word ++ extra')), append_prefix_drop.mpr ⟨hcomes, hcomes'⟩,
        .inr (.inr ⟨rfl, hroom, .copy length distance, _,
          ⟨_, _, _, _, _, _, hword, hlength, hword', hdistance, rfl⟩, if_pos hle, ?_⟩)⟩
      rw [Nat.add_assoc, ← List.length_append]
  · rintro ⟨w, hcomes, ⟨rfl, hword, rfl⟩ | ⟨rfl, hfull, ⟨symbol, hend, hword⟩, rfl⟩ |
      ⟨rfl, hroom, token, l', htoken, hexpand, rfl⟩⟩
    · exact ⟨256, w, hword, hcomes, rfl⟩
    · exact ⟨symbol, w, hword, hcomes, tokenRest_of_le _ hend hfull⟩
    · cases token with
      | literal b =>
        have hb : b.toNat < 256 := b.toNat_lt
        refine ⟨b.toNat, w, htoken, hcomes, ?_⟩
        rw [tokenRest_of_lt _ (Nat.ne_of_lt hb) hroom, if_pos hb, UInt8.ofNat_toNat,
          Option.some.inj hexpand]
      | copy length distance =>
        obtain ⟨i, j, word, extra, word', extra', hword, hlength, hword', hdistance, rfl⟩ := htoken
        obtain ⟨hcomes, hcomes'⟩ := append_prefix_drop.mp hcomes
        refine ⟨257 + i, word, hword, hcomes, ?_⟩
        rw [tokenRest_of_lt _ (by omega) hroom, if_neg (by omega), Nat.add_sub_cancel_left]
        rw [Token.expand] at hexpand
        split at hexpand
        next hle =>
          refine (copyStep_eq_ok_iff hdistances i hroom (le_of_isPrefix hp hcomes)).mpr
            ⟨length, distance, j, extra, word', extra', hlength, hword', hdistance, hle, hcomes',
              rfl, ?_⟩
          rw [← Option.some.inj hexpand, Nat.add_assoc, ← List.length_append]
        next => cases hexpand

end

/-! ### Blocks of tokens -/

/-- A token starts with a code word other than that of the end of a block. -/
theorem TokenBits.exists_codeWord {literals distances : List Nat} {token : Token} {w : List Bool}
    (h : TokenBits literals distances token w) :
    ∃ symbol word, symbol ≠ 256 ∧ CodeWord literals symbol word ∧ word <+: w := by
  cases token with
  | literal b => exact ⟨b.toNat, w, Nat.ne_of_lt b.toNat_lt, h, List.prefix_rfl⟩
  | copy length distance =>
    obtain ⟨i, j, word, extra, word', extra', hword, -, -, -, rfl⟩ := h
    exact ⟨257 + i, word, by omega, hword, List.prefix_append ..⟩

section

variable {literals distances : List Nat} (hliterals : ∀ l ∈ literals, l ≤ 15)
  (hdistances : ∀ l ∈ distances, l ≤ 15) {n : Nat}

include hliterals hdistances

/-- Decoding goes on after the bits of a token that starts where there is room. -/
theorem codedBlock_cons {token : Token} {u : List Bool} {data : ByteArray} {p : Nat}
    {l m : List UInt8} (hp : p ≤ 8 * data.size) (hroom : l.length < n)
    (hbits : TokenBits literals distances token u)
    (hcomes : u <+: (BitOrder.lowFirst.stream data).drop p) (hexpand : token.expand l = some m) :
    Inflater.codedBlock n (.build literals) (.build distances) (state n data p l)
      = Inflater.codedBlock n (.build literals) (.build distances)
          (state n data (p + u.length) m) := by
  have hstep := (codedStep_eq_ok_iff hliterals hdistances hp).mpr
    ⟨u, hcomes, .inr (.inr ⟨rfl, hroom, token, m, hbits, hexpand, rfl⟩)⟩
  unfold Inflater.codedBlock
  rw [loop_of_none _ hstep]

/-- **Decoding the tokens of a block.**  All tokens must start where there is room; the last one
    may then be cut off. -/
theorem decodes_codedBlock :
    Decodes n (Inflater.codedBlock n (.build literals) (.build distances))
      (fun _ => TokensBits literals distances) expandTokens (StartsBefore n) where
  reached_iff {data p l s'} hp := by
    constructor
    · intro h
      -- Each round prepends the bits of a token, the last one reads the end of the block.
      refine loop_induction _ (P := fun s stop s' => ∀ p l, p ≤ 8 * data.size →
        s = state n data p l → stop = .reached → ∃ tokens w l',
          TokensBits literals distances tokens w ∧
            w <+: (BitOrder.lowFirst.stream data).drop p ∧ expandTokens l tokens = some l' ∧
            StartsBefore n l.length tokens ∧ s' = state n data (p + w.length) l')
        ?last ?next h p l hp rfl rfl
      case last =>
        rintro _ stop s' hstep p l hp rfl rfl
        obtain ⟨w, hcomes, ⟨-, hword, rfl⟩ | ⟨hstop, -⟩ | ⟨hstop, -⟩⟩ :=
          (codedStep_eq_ok_iff hliterals hdistances hp).mp hstep
        · exact ⟨[], w, l, .nil hword, hcomes, rfl, trivial, rfl⟩
        · cases hstop
        · cases hstop
      case next =>
        rintro _ s₁ stop s' hstep ih p l hp rfl rfl
        obtain ⟨u, hcomes, ⟨hstop, -⟩ | ⟨hstop, -⟩ | ⟨-, hroom, token, m, htoken, hm, rfl⟩⟩ :=
          (codedStep_eq_ok_iff hliterals hdistances hp).mp hstep
        · cases hstop
        · cases hstop
        · obtain ⟨tokens, w, l', hbits, hcomes', hexpand, hstarts, rfl⟩ :=
            ih _ m (le_of_isPrefix hp hcomes) rfl rfl
          rw [token.length_expand hm] at hstarts
          refine ⟨token :: tokens, u ++ w, l', .cons htoken hbits,
            append_prefix_drop.mpr ⟨hcomes, hcomes'⟩,
            expandTokens_cons_eq_some_iff.mpr ⟨m, hm, hexpand⟩, ⟨hroom, hstarts⟩, ?_⟩
          rw [List.length_append, Nat.add_assoc]
    · rintro ⟨tokens, w, l', hbits, hcomes, hexpand, hstarts, rfl⟩
      induction hbits generalizing p l with
      | nil hword =>
        cases hexpand
        exact loop_of_some _ ((codedStep_eq_ok_iff hliterals hdistances hp).mpr
          ⟨_, hcomes, .inl ⟨rfl, hword, rfl⟩⟩)
      | @cons token tokens u v htoken hbits ih =>
        -- The token starts where there is room, so that decoding goes on behind its bits.
        obtain ⟨m, hm, hexpand⟩ := expandTokens_cons_eq_some_iff.mp hexpand
        obtain ⟨hcomes, hcomes'⟩ := append_prefix_drop.mp hcomes
        obtain ⟨hroom, hstarts⟩ := hstarts
        rw [← token.length_expand hm] at hstarts
        rw [codedBlock_cons hliterals hdistances hp hroom htoken hcomes hm, List.length_append,
          ← Nat.add_assoc]
        exact ih (le_of_isPrefix hp hcomes) hcomes' hexpand hstarts
  outputFull {data p l s'} hp h := by
    refine loop_induction _ (P := fun s stop s' => ∀ p l, p ≤ 8 * data.size →
      s = state n data p l → stop = .outputFull →
        ∃ q l', n ≤ l'.length ∧ s' = state n data q l') ?last ?next h p l hp rfl rfl
    case last =>
      rintro _ stop s' hstep p l hp rfl rfl
      obtain ⟨w, hcomes, ⟨hstop, -⟩ | ⟨-, hfull, -, rfl⟩ | ⟨hstop, -⟩⟩ :=
        (codedStep_eq_ok_iff hliterals hdistances hp).mp hstep
      · cases hstop
      · exact ⟨_, l, hfull, rfl⟩
      · cases hstop
    case next =>
      rintro _ s₁ stop s' hstep ih p l hp rfl rfl
      obtain ⟨u, hcomes, ⟨hstop, -⟩ | ⟨hstop, -⟩ | ⟨-, hroom, token, m, htoken, hm, rfl⟩⟩ :=
        (codedStep_eq_ok_iff hliterals hdistances hp).mp hstep
      · cases hstop
      · cases hstop
      · exact ih _ m (le_of_isPrefix hp hcomes) rfl rfl
  of_not_fits {data p l tokens w l'} hp hbits hcomes hexpand hroom := by
    induction hbits generalizing p l with
    | nil hword => exact absurd trivial hroom
    | @cons token tokens u v htoken hbits ih =>
      obtain ⟨m, hm, hexpand'⟩ := expandTokens_cons_eq_some_iff.mp hexpand
      obtain ⟨hcomes, hcomes'⟩ := append_prefix_drop.mp hcomes
      by_cases hlt : l.length < n
      · rw [codedBlock_cons hliterals hdistances hp hlt htoken hcomes hm]
        refine ih (le_of_isPrefix hp hcomes) hcomes' hexpand' fun hstarts => hroom ⟨hlt, ?_⟩
        rw [← token.length_expand hm]
        exact hstarts
      · -- The first code word of the token tells that the output is full too early.
        obtain ⟨symbol, word, hne, hword, hfirst⟩ := htoken.exists_codeWord
        have hfull : n ≤ l.length := Nat.le_of_not_lt hlt
        obtain ⟨t, rfl⟩ := prefix_of_expandTokens hexpand
        refine ⟨p + word.length, loop_of_some _ ((codedStep_eq_ok_iff hliterals hdistances hp).mpr
          ⟨word, hfirst.trans hcomes, .inr (.inl ⟨rfl, hfull, ⟨symbol, hne, hword⟩, ?_⟩)⟩)⟩
        unfold state
        rw [cut_append_of_le hfull]

end

end Apfs.Deflate
