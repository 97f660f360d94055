import Apfs.Proofs.Compression.DeflateFormat

namespace Apfs.Deflate

/-!
# The bytes that blocks stand for

All blocks stand for the same bytes as their tokens, if stored bytes count as literals.  Whether
tokens can be decoded to their end with room for a number of bytes only depends on where they start.

* `Token.size`, `tokensSize` — the number of bytes that tokens stand for.
* `allTokens`, `expandFrom_eq` — the tokens of blocks stand for the same bytes as the blocks.
* `StartsBefore`, `Block.Fits`, `Fits` — tokens start before a byte.
* `EndsInLastCopy`, `fits_iff` — which streams can be decoded to their end.
-/

/-! ### Tokens -/

@[simp] theorem length_repeated (l : List UInt8) (distance length : Nat) :
    (repeated l distance length).length = length := by
  rw [repeated, List.length_map, List.length_range]

/-- The number of bytes that a token stands for. -/
def Token.size : Token → Nat
  | .literal _ => 1
  | .copy length _ => length

/-- The number of bytes that tokens stand for. -/
def tokensSize (tokens : List Token) : Nat := (tokens.map Token.size).sum

@[simp] theorem tokensSize_nil : tokensSize [] = 0 := rfl

@[simp] theorem tokensSize_cons (token : Token) (tokens : List Token) :
    tokensSize (token :: tokens) = token.size + tokensSize tokens := rfl

theorem tokensSize_append (tokens tokens' : List Token) :
    tokensSize (tokens ++ tokens') = tokensSize tokens + tokensSize tokens' := by
  rw [tokensSize, List.map_append, List.sum_append]
  rfl

theorem Token.length_expand {token : Token} {l l' : List UInt8}
    (h : token.expand l = some l') : l'.length = l.length + token.size := by
  cases token with
  | literal b =>
    cases h
    exact List.length_append
  | copy length distance =>
    rw [Token.expand] at h
    split at h
    · cases h
      rw [List.length_append, length_repeated, Token.size]
    · cases h

/-- Tokens are expanded one after the other. -/
theorem expandTokens_cons_eq_some_iff {token : Token} {tokens : List Token} {l l' : List UInt8} :
    expandTokens l (token :: tokens) = some l' ↔
      ∃ m, token.expand l = some m ∧ expandTokens m tokens = some l' := by
  rw [expandTokens, List.foldlM_cons, Option.bind_eq_bind, Option.bind_eq_some_iff]
  rfl

theorem length_expandTokens {tokens : List Token} {l l' : List UInt8}
    (h : expandTokens l tokens = some l') : l'.length = l.length + tokensSize tokens := by
  induction tokens generalizing l with
  | nil =>
    cases h
    rfl
  | cons token tokens ih =>
    obtain ⟨m, hm, h⟩ := expandTokens_cons_eq_some_iff.mp h
    rw [ih h, token.length_expand hm, tokensSize_cons, Nat.add_assoc]

theorem Token.prefix_of_expand {token : Token} {l l' : List UInt8}
    (h : token.expand l = some l') : l <+: l' := by
  cases token with
  | literal b =>
    cases h
    exact List.prefix_append ..
  | copy length distance =>
    rw [Token.expand] at h
    split at h
    · cases h
      exact List.prefix_append ..
    · cases h

/-- Tokens append bytes. -/
theorem prefix_of_expandTokens {tokens : List Token} {l l' : List UInt8}
    (h : expandTokens l tokens = some l') : l <+: l' := by
  induction tokens generalizing l with
  | nil =>
    cases h
    exact List.prefix_rfl
  | cons token tokens ih =>
    obtain ⟨m, hm, h⟩ := expandTokens_cons_eq_some_iff.mp h
    exact (token.prefix_of_expand hm).trans (ih h)

/-! ### Blocks -/

/-- The contents of a block as tokens.  Each stored byte counts as a literal. -/
def Block.tokens : Block → List Token
  | .stored bytes => bytes.map .literal
  | .fixed tokens => tokens
  | .dynamic _ _ tokens => tokens

/-- The contents of blocks as tokens. -/
def allTokens (blocks : List Block) : List Token := blocks.flatMap Block.tokens

/-- A block stands for the same bytes as its tokens. -/
theorem Block.expand_eq (l : List UInt8) (block : Block) :
    block.expand l = expandTokens l block.tokens := by
  cases block with
  | stored bytes =>
    show some (l ++ bytes) = expandTokens l (bytes.map .literal)
    induction bytes generalizing l with
    | nil =>
      rw [List.append_nil]
      rfl
    | cons b bytes ih =>
      have h := ih (l ++ [b])
      rw [List.append_assoc] at h
      exact h
  | fixed tokens => rfl
  | dynamic literals distances tokens => rfl

theorem Block.length_expand {block : Block} {l l' : List UInt8}
    (h : block.expand l = some l') : l'.length = l.length + tokensSize block.tokens := by
  rw [block.expand_eq] at h
  exact length_expandTokens h

/-- Blocks are expanded one after the other. -/
theorem expandFrom_cons_eq_some_iff {block : Block} {blocks : List Block} {l l' : List UInt8} :
    expandFrom l (block :: blocks) = some l' ↔
      ∃ m, block.expand l = some m ∧ expandFrom m blocks = some l' := by
  rw [expandFrom, List.foldlM_cons, Option.bind_eq_bind, Option.bind_eq_some_iff]
  rfl

/-- Blocks stand for the same bytes as their tokens. -/
theorem expandFrom_eq (l : List UInt8) (blocks : List Block) :
    expandFrom l blocks = expandTokens l (allTokens blocks) := by
  induction blocks generalizing l with
  | nil => rfl
  | cons block blocks ih =>
    show block.expand l >>= _ = List.foldlM Token.expand l (block.tokens ++ allTokens blocks)
    rw [List.foldlM_append, block.expand_eq]
    exact bind_congr fun m => ih m

/-- Blocks append bytes. -/
theorem prefix_of_expandFrom {blocks : List Block} {l l' : List UInt8}
    (h : expandFrom l blocks = some l') : l <+: l' := by
  rw [expandFrom_eq] at h
  exact prefix_of_expandTokens h

/-! ### Room -/

/-- Each of the tokens, which come after `m` bytes, starts before byte `n`. -/
def StartsBefore (n : Nat) : (m : Nat) → List Token → Prop
  | _, [] => True
  | m, token :: tokens => m < n ∧ StartsBefore n (m + token.size) tokens

theorem startsBefore_append {n m : Nat} {tokens tokens' : List Token} :
    StartsBefore n m (tokens ++ tokens') ↔
      StartsBefore n m tokens ∧ StartsBefore n (m + tokensSize tokens) tokens' := by
  induction tokens generalizing m with
  | nil => simp [StartsBefore]
  | cons token tokens ih => simp [StartsBefore, ih, and_assoc, Nat.add_assoc]

/-- Single bytes all start where there is room if there is room for all of them. -/
theorem startsBefore_literals {n m : Nat} {bytes : List UInt8} :
    StartsBefore n m (bytes.map .literal) ↔ bytes.length ≤ n - m := by
  induction bytes generalizing m with
  | nil => exact ⟨fun _ => Nat.zero_le _, fun _ => trivial⟩
  | cons b bytes ih =>
    rw [List.map_cons, StartsBefore, ih, List.length_cons, Token.size]
    omega

/-- There is room for the end of a block, which comes after `m` bytes, to be reached. -/
def Block.Fits (n m : Nat) (block : Block) : Prop := StartsBefore n m block.tokens

/-- There is room for the end of each of the blocks, which come after `m` bytes. -/
def Fits (n m : Nat) (blocks : List Block) : Prop := StartsBefore n m (allTokens blocks)

theorem fits_cons {n m : Nat} {block : Block} {blocks : List Block} :
    Fits n m (block :: blocks) ↔
      block.Fits n m ∧ Fits n (m + tokensSize block.tokens) blocks :=
  startsBefore_append

theorem fits_nil (n m : Nat) : Fits n m [] := trivial

/-- The last token is a copy, and byte `n` is one of its bytes other than the first one. -/
def EndsInLastCopy (n : Nat) (tokens : List Token) : Prop :=
  ∃ before length distance, tokens = before ++ [.copy length distance] ∧
    tokensSize before < n ∧ n < tokensSize before + length

/-- A copy has at least one byte. -/
theorem TokenBits.one_le_size {literals distances : List Nat} {token : Token} {w : List Bool}
    (h : TokenBits literals distances token w) : 1 ≤ token.size := by
  cases token with
  | literal b => exact Nat.le_refl 1
  | copy length distance =>
    obtain ⟨i, j, word, extra, word', extra', -, ⟨base, hrange, rfl⟩, -⟩ := h
    have hbase : 3 ≤ base := by
      unfold lengthRange at hrange
      split at hrange
      · obtain ⟨rfl, -⟩ := Prod.mk.inj (Option.some.inj hrange)
        omega
      · split at hrange
        · obtain ⟨rfl, -⟩ := Prod.mk.inj (Option.some.inj hrange)
          omega
        · split at hrange
          · obtain ⟨rfl, -⟩ := Prod.mk.inj (Option.some.inj hrange)
            omega
          · cases hrange
    show 1 ≤ base + ofLowBits extra
    omega

theorem TokensBits.one_le_size {literals distances : List Nat} {tokens : List Token}
    {w : List Bool} (h : TokensBits literals distances tokens w) :
    ∀ token ∈ tokens, 1 ≤ token.size := by
  induction h with
  | nil => exact fun _ h => absurd h List.not_mem_nil
  | cons htoken _ ih => exact List.forall_mem_cons.mpr ⟨htoken.one_le_size, ih⟩

theorem BlockBits.one_le_size {p : Nat} {block : Block} {w : List Bool}
    (h : BlockBits p block w) : ∀ token ∈ block.tokens, 1 ≤ token.size := by
  cases block with
  | stored bytes =>
    intro token htoken
    obtain ⟨b, -, rfl⟩ := List.mem_map.mp htoken
    exact Nat.le_refl 1
  | fixed tokens =>
    obtain ⟨v, hv, -⟩ := h
    exact hv.one_le_size
  | dynamic literals distances tokens =>
    obtain ⟨u, v, -, hv, -⟩ := h
    exact hv.one_le_size

/-- All tokens of a stream stand for at least one byte. -/
theorem StreamBits.one_le_size {p : Nat} {blocks : List Block} {w : List Bool}
    (h : StreamBits p blocks w) : ∀ token ∈ allTokens blocks, 1 ≤ token.size := by
  induction h with
  | last hbits =>
    intro token htoken
    rw [allTokens, List.flatMap_singleton] at htoken
    exact hbits.one_le_size token htoken
  | more hbits _ ih =>
    intro token htoken
    rw [allTokens, List.flatMap_cons, List.mem_append] at htoken
    exact htoken.elim (hbits.one_le_size token) (ih token)

/-- Tokens that end where there is room start where there is room. -/
theorem startsBefore_of_le {n m : Nat} {tokens : List Token}
    (hpos : ∀ token ∈ tokens, 1 ≤ token.size) (h : m + tokensSize tokens ≤ n) :
    StartsBefore n m tokens := by
  induction tokens generalizing m with
  | nil => trivial
  | cons token tokens ih =>
    obtain ⟨hone, hpos⟩ := List.forall_mem_cons.mp hpos
    rw [tokensSize_cons] at h
    exact ⟨by omega, ih hpos (by omega)⟩

/-- **When the end of the last block is reached.**  Either there is room for all bytes, or the
    output ends inside the last copy. -/
theorem startsBefore_iff {n : Nat} {tokens : List Token}
    (hpos : ∀ token ∈ tokens, 1 ≤ token.size) :
    StartsBefore n 0 tokens ↔ tokensSize tokens ≤ n ∨ EndsInLastCopy n tokens := by
  by_cases hle : tokensSize tokens ≤ n
  · have hstarts : StartsBefore n 0 tokens := startsBefore_of_le hpos (by omega)
    exact ⟨fun _ => .inl hle, fun _ => hstarts⟩
  · rw [or_iff_right hle]
    constructor
    · intro hstarts
      -- There is a last token, since no tokens would need no room.
      have hne : tokens ≠ [] := by
        rintro rfl
        exact hle (Nat.zero_le n)
      obtain ⟨before, token, rfl⟩ : ∃ before token, tokens = before ++ [token] :=
        ⟨_, _, (List.dropLast_concat_getLast hne).symm⟩
      obtain ⟨-, hlast, -⟩ := startsBefore_append.mp hstarts
      rw [tokensSize_append, tokensSize_cons, tokensSize_nil] at hle
      cases token with
      | literal b =>
        -- A literal that starts where there is room ends there as well.
        rw [Token.size] at hle
        omega
      | copy length distance =>
        rw [Token.size] at hle
        exact ⟨before, length, distance, rfl, by omega, by omega⟩
    · rintro ⟨before, length, distance, rfl, hstart, -⟩
      have hbefore : ∀ token ∈ before, 1 ≤ token.size :=
        fun token h => hpos token (List.mem_append_left _ h)
      refine startsBefore_append.mpr ⟨startsBefore_of_le hbefore (by omega), by omega, trivial⟩

/-- The end of the last block of a stream is reached with room for all bytes, or if the output
    ends inside the last copy. -/
theorem fits_iff {p n : Nat} {blocks : List Block} {w : List Bool} {bytes : List UInt8}
    (hbits : StreamBits p blocks w) (hexpand : expand blocks = some bytes) :
    Fits n 0 blocks ↔ bytes.length ≤ n ∨ EndsInLastCopy n (allTokens blocks) := by
  have hsize : bytes.length = tokensSize (allTokens blocks) := by
    rw [expand, expandFrom_eq] at hexpand
    have hlen := length_expandTokens hexpand
    rw [List.length_nil, Nat.zero_add] at hlen
    exact hlen
  rw [hsize]
  exact startsBefore_iff hbits.one_le_size

end Apfs.Deflate
