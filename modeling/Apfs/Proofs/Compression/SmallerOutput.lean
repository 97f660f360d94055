import Apfs.Proofs.Compression.Truncation

namespace Apfs.Deflate

/-!
# Decoding into a smaller output

Decoding into fewer bytes takes the same steps until the output is full, and then stops at the next
step that needs room.  What follows was decoded with more room before, so it cannot fail either.

* `Follows` — one decoder does what another one does, or stops as its output is full; there is a
  rule for each way in which decoders are built.
* `follows_storedBlock`, `follows_codedStep`, `follows_blocks` — decoding into fewer bytes follows
  decoding into more.
* `inflate_into_of_le` — what a buffer receives is known from a longer one.
-/

/-- Wherever `y` decodes something into `m` bytes, `x` does the same with `n` bytes, or ends with
    the result `full` when its `n` bytes are those that `y` has first. -/
def Follows {α : Type} (full : α) (n m : Nat) (x y : Inflating α) : Prop :=
  ∀ ⦃data p l a s'⦄, p ≤ 8 * data.size → y (state m data p l) = .ok a s' →
    ∃ q l', q ≤ 8 * data.size ∧ l <+: l' ∧ s' = state m data q l' ∧
      (x (state n data p l) = .ok a (state n data q l') ∨
        n ≤ l'.length ∧ ∃ q', x (state n data p l) = .ok full (state n data q' l'))

/-- Output that is full stays the same when more bytes come. -/
theorem state_eq_of_le {n : Nat} {l l' : List UInt8} (hfull : n ≤ l.length) (h : l <+: l')
    (data : ByteArray) (p : Nat) : state n data p l = state n data p l' := by
  obtain ⟨t, rfl⟩ := h
  unfold state
  rw [cut_append_of_le hfull]

namespace Follows

variable {α β : Type} {full : α} {n m : Nat} {x y : Inflating α}

/-- What is read before does not depend on the room. -/
theorem reading_bind {r : BitReading β} {G : Grammar β} {f g : β → Inflating α}
    (hr : Reads .lowFirst r G) (h : ∀ b p w, G p b w → Follows full n m (f b) (g b)) :
    Follows full n m (Inflater.reading r >>= f) (Inflater.reading r >>= g) := by
  intro data p l a s' hp hy
  obtain ⟨b, w, hw, hcomes, hy⟩ := (reading_bind_eq_ok_iff hr hp).mp hy
  obtain ⟨q, l', hq, hprefix, hs, hx⟩ := h b p w hw (le_of_isPrefix hp hcomes) hy
  refine ⟨q, l', hq, hprefix, hs, ?_⟩
  obtain hsame | ⟨hfull, q', hstops⟩ := hx
  · exact .inl ((reading_bind_eq_ok_iff hr hp).mpr ⟨b, w, hw, hcomes, hsame⟩)
  · exact .inr ⟨hfull, q', (reading_bind_eq_ok_iff hr hp).mpr ⟨b, w, hw, hcomes, hstops⟩⟩

/-- Results may be changed. -/
theorem map (f : α → β) (h : Follows full n m x y) :
    Follows (f full) n m (do return f (← x)) (do return f (← y)) := by
  intro data p l b s' hp hy
  obtain ⟨a, s₁, hy, hreturn⟩ := bind_eq_ok_iff.mp hy
  cases hreturn
  obtain ⟨q, l', hq, hprefix, hs, hx⟩ := h hp hy
  refine ⟨q, l', hq, hprefix, hs, ?_⟩
  obtain hsame | ⟨hfull, q', hstops⟩ := hx
  · exact .inl (bind_eq_ok_iff.mpr ⟨a, _, hsame, rfl⟩)
  · exact .inr ⟨hfull, q', bind_eq_ok_iff.mpr ⟨full, _, hstops, rfl⟩⟩

/-- **Repeated steps** are followed if each of them is. -/
theorem loop {x y : Inflating (Option α)} (hx : Strict Inflater.remaining x)
    (hy : Strict Inflater.remaining y) (h : Follows (some full) n m x y) :
    Follows full n m (Apfs.loop x hx) (Apfs.loop y hy) := by
  intro data p l a s' hp hloop
  -- Each round is followed, or the loop that has less room ends there.
  refine loop_induction _ (P := fun s a s' => ∀ p l, p ≤ 8 * data.size → s = state m data p l →
    ∃ q l', q ≤ 8 * data.size ∧ l <+: l' ∧ s' = state m data q l' ∧
      (Apfs.loop x hx (state n data p l) = .ok a (state n data q l') ∨
        n ≤ l'.length ∧
          ∃ q', Apfs.loop x hx (state n data p l) = .ok full (state n data q' l')))
    ?last ?next hloop p l hp rfl
  case last =>
    rintro _ a s' hstep p l hp rfl
    obtain ⟨q, l', hq, hprefix, hs, hsame | ⟨hfull, q', hstops⟩⟩ := h hp hstep
    · exact ⟨q, l', hq, hprefix, hs, .inl (loop_of_some _ hsame)⟩
    · exact ⟨q, l', hq, hprefix, hs, .inr ⟨hfull, q', loop_of_some _ hstops⟩⟩
  case next =>
    rintro _ s₁ a s' hstep ih p l hp rfl
    obtain ⟨q, l₁, hq, hprefix, rfl, hx₁⟩ := h hp hstep
    obtain ⟨q₁, l', hq₁, hprefix₁, hs, hrest⟩ := ih q l₁ hq rfl
    refine ⟨q₁, l', hq₁, hprefix.trans hprefix₁, hs, ?_⟩
    obtain hsame | ⟨hfull, q', hstops⟩ := hx₁
    · rw [loop_of_none _ hsame]
      exact hrest
    · rw [state_eq_of_le hfull hprefix₁] at hstops
      exact .inr ⟨hfull.trans hprefix₁.length_le, q', loop_of_some _ hstops⟩

end Follows

/-! ### Blocks -/

section

variable {n m : Nat} (hnm : n ≤ m)

include hnm

theorem follows_storedBlock :
    Follows .outputFull n m (Inflater.storedBlock n) (Inflater.storedBlock m) := by
  intro data p l stop s' hp hy
  obtain ⟨bytes, w, hbits, hcomes, rfl, rfl⟩ := (storedBlock_eq_ok_iff hp).mp hy
  refine ⟨_, l ++ bytes, le_of_isPrefix hp hcomes, List.prefix_append .., rfl, ?_⟩
  have hx := (storedBlock_eq_ok_iff (n := n) (l := l) hp).mpr ⟨bytes, w, hbits, hcomes, rfl, rfl⟩
  by_cases hfits : bytes.length ≤ n - l.length
  · have hfits' : bytes.length ≤ m - l.length := by omega
    rw [if_pos hfits] at hx
    rw [if_pos hfits']
    exact .inl hx
  · rw [if_neg hfits] at hx
    refine .inr ⟨?_, _, hx⟩
    rw [List.length_append]
    omega

/-- The symbol that shows that the output is full may be the first one of a token that is decoded
    when there is more room. -/
theorem follows_codedStep {literals distances : List Nat} (hliterals : ∀ l ∈ literals, l ≤ 15)
    (hdistances : ∀ l ∈ distances, l ≤ 15) :
    Follows (some .outputFull) n m
      (Inflater.codedStep n (.build literals) (.build distances))
      (Inflater.codedStep m (.build literals) (.build distances)) := by
  intro data p l r s' hp hy
  obtain ⟨w, hcomes, ⟨rfl, hword, rfl⟩ | ⟨rfl, hfull, hword, rfl⟩ |
    ⟨rfl, hroom, token, l', htoken, hexpand, rfl⟩⟩ :=
    (codedStep_eq_ok_iff hliterals hdistances hp).mp hy
  · refine ⟨_, l, le_of_isPrefix hp hcomes, List.prefix_rfl, rfl, .inl ?_⟩
    exact (codedStep_eq_ok_iff hliterals hdistances hp).mpr ⟨w, hcomes, .inl ⟨rfl, hword, rfl⟩⟩
  · refine ⟨_, l, le_of_isPrefix hp hcomes, List.prefix_rfl, rfl, .inl ?_⟩
    exact (codedStep_eq_ok_iff hliterals hdistances hp).mpr
      ⟨w, hcomes, .inr (.inl ⟨rfl, hnm.trans hfull, hword, rfl⟩)⟩
  · have hprefix := token.prefix_of_expand hexpand
    refine ⟨_, l', le_of_isPrefix hp hcomes, hprefix, rfl, ?_⟩
    by_cases hlt : l.length < n
    · exact .inl ((codedStep_eq_ok_iff hliterals hdistances hp).mpr
        ⟨w, hcomes, .inr (.inr ⟨rfl, hlt, token, l', htoken, hexpand, rfl⟩)⟩)
    · have hfull : n ≤ l.length := Nat.le_of_not_lt hlt
      obtain ⟨symbol, word, hne, hword, hfirst⟩ := htoken.exists_codeWord
      refine .inr ⟨hfull.trans hprefix.length_le, p + word.length, ?_⟩
      rw [← state_eq_of_le hfull hprefix]
      exact (codedStep_eq_ok_iff hliterals hdistances hp).mpr
        ⟨word, hfirst.trans hcomes, .inr (.inl ⟨rfl, hfull, ⟨symbol, hne, hword⟩, rfl⟩)⟩

theorem follows_codedBlock {literals distances : List Nat} (hliterals : ∀ l ∈ literals, l ≤ 15)
    (hdistances : ∀ l ∈ distances, l ≤ 15) :
    Follows .outputFull n m
      (Inflater.codedBlock n (.build literals) (.build distances))
      (Inflater.codedBlock m (.build literals) (.build distances)) :=
  .loop _ _ (follows_codedStep hnm hliterals hdistances)

theorem follows_contents (kind : Nat) :
    Follows .outputFull n m (contents n kind) (contents m kind) := by
  match kind with
  | 0 => exact follows_storedBlock hnm
  | 1 => exact follows_codedBlock hnm fixedLiterals_le fixedDistances_le
  | 2 =>
    refine Follows.reading_bind reads_dynamicCodes fun codes p w hcodes => ?_
    obtain ⟨literals, distances, hcodes, rfl⟩ := hcodes
    obtain ⟨-, -, -, -, -, -, hadmissible, hadmissible', -⟩ := hcodes
    exact follows_codedBlock hnm hadmissible.1 hadmissible'.1
  | kind + 3 =>
    intro data p l stop s' hp hy
    cases hy

theorem follows_block : Follows (some .outputFull) n m (Inflater.block n) (Inflater.block m) := by
  rw [block_eq, block_eq]
  refine .reading_bind (reads_take_lowFirst (by decide)) fun last p w _ => ?_
  have hcontents : Follows BlockEnd.outputFull n m
      (Inflater.reading (BitReader.take 2) >>= contents n)
      (Inflater.reading (BitReader.take 2) >>= contents m) :=
    .reading_bind (reads_take_lowFirst (by decide)) fun kind p w _ => follows_contents hnm kind
  exact hcontents.map fun stop => if stop = .outputFull ∨ last = 1 then some stop else none

/-- **Decoding into fewer bytes** follows decoding into more. -/
theorem follows_blocks : Follows .outputFull n m (Inflater.blocks n) (Inflater.blocks m) :=
  .loop _ _ (follows_block hnm)

/-- Where decoding into `m` bytes succeeds, decoding into `n` bytes does, and both outputs are the
    first of the same bytes. -/
theorem inflate_of_le {data : ByteArray} (h : (inflate data m).outcome = .ok ()) :
    ∃ l, inflate data m = .ok (cut m l) ∧ inflate data n = .ok (cut n l) := by
  rw [inflate, decodeAll_eq _ data m] at h
  cases hresult : Inflater.blocks m (state m data 0 []) with
  | ok stop s' =>
    obtain ⟨q, l, -, -, rfl, hx⟩ := follows_blocks hnm (Nat.zero_le _) hresult
    refine ⟨l, ?_, ?_⟩
    · rw [inflate, decodeAll_eq _ data m, hresult]
      rfl
    · rw [inflate, decodeAll_eq _ data n]
      obtain hsame | ⟨-, q', hstops⟩ := hx
      · rw [hsame]
        rfl
      · rw [hstops]
        rfl
  | error e s' =>
    rw [hresult] at h
    cases h

end

/-! ### Buffers -/

/-- **Decoding is monotone in the size of the buffer.**  What a buffer receives is the start of what
    a longer one does; and if that is not filled, all buffers that are not filled receive the
    same. -/
theorem inflate_into_of_le {data small large : ByteArray} {w : Nat}
    (hle : small.size ≤ large.size) (h : ((inflate data large.size).into large).1 = .ok w) :
    ((inflate data small.size).into small).1 = .ok (min small.size w) ∧
      ((inflate data small.size).into small).2.extract 0 (min small.size w)
        = ((inflate data large.size).into large).2.extract 0 (min small.size w) ∧
      (w < large.size → ∀ buffer : ByteArray, w < buffer.size →
        ((inflate data buffer.size).into buffer).1 = .ok w ∧
          ((inflate data buffer.size).into buffer).2.extract 0 w
            = ((inflate data large.size).into large).2.extract 0 w) := by
  obtain ⟨bytes, hlarge, rfl⟩ := into_eq_ok_iff.mp h
  obtain ⟨l, hl, hsmall⟩ := inflate_of_le hle (congrArg Decoded.outcome hlarge)
  obtain rfl : bytes = cut large.size l := congrArg Decoded.output (hlarge.symm.trans hl)
  have hsize : min small.size (cut large.size l).size = (cut small.size l).size := by
    rw [size_cut, size_cut]
    omega
  rw [hlarge]
  refine ⟨into_eq_ok_iff.mpr ⟨_, hsmall, hsize.symm⟩, ?_, fun hroom buffer hbuffer => ?_⟩
  · rw [hsmall, extract_into_ok _ _ (Nat.min_le_right ..), hsize, extract_into_ok _ _ le_rfl,
      ← cut_toList, ← cut_toList, size_cut]
    unfold cut
    rw [List.take_take, List.take_take]
    congr 3
    omega
  · -- Nothing is cut off, so the output is all that the blocks of the stream stand for.
    obtain ⟨blocks, all, hencodes, hexpand⟩ :=
      exists_encodes_of_inflate (congrArg Decoded.outcome hlarge) (by rw [hlarge]; exact hroom)
    have hall : cut large.size l = cut large.size all :=
      congrArg Decoded.output (hlarge.symm.trans (inflate_of_encodes hencodes hexpand _))
    have hlength : all.length < large.size := by
      rw [hall, size_cut] at hroom
      omega
    have hwhole : cut large.size l = ⟨all.toArray⟩ := by
      rw [hall, cut_of_length_le (Nat.le_of_lt hlength)]
    rw [hwhole] at hbuffer ⊢
    have hdone : inflate data buffer.size = .ok ⟨all.toArray⟩ := by
      rw [inflate_of_encodes hencodes hexpand, cut_of_length_le]
      exact Nat.le_of_lt hbuffer
    refine ⟨into_eq_ok_iff.mpr ⟨_, hdone, rfl⟩, ?_⟩
    rw [hdone, extract_into_ok _ _ le_rfl, extract_into_ok _ _ le_rfl]

/-- Buffers for two of four bytes, and for more than four. -/
theorem inflate_into_of_le_twoBlocks :
    let data : ByteArray := ⟨#[0x00, 0x01, 0x00, 0xfe, 0xff, 0x61, 0x03, 0x02, 0x00]⟩
    let small : ByteArray := ⟨#[0, 1]⟩
    let large : ByteArray := ⟨#[0, 1, 2, 3, 4]⟩
    let larger : ByteArray := ⟨#[0, 1, 2, 3, 4, 5]⟩
    small.size ≤ large.size ∧ ((inflate data large.size).into large).1 = .ok 4 ∧
      ((inflate data small.size).into small).1 = .ok 2 ∧
      ((inflate data larger.size).into larger).1 = .ok 4 := by
  intro data small large larger
  have hdone : inflate data large.size = .ok ⟨#[0x61, 0x61, 0x61, 0x61]⟩ :=
    inflate_of_encodes encodes_twoBlocks rfl _
  have hlarge : ((inflate data large.size).into large).1 = .ok 4 :=
    into_eq_ok_iff.mpr ⟨_, hdone, rfl⟩
  have hle : small.size ≤ large.size := by decide
  obtain ⟨hsmall, -, hall⟩ := inflate_into_of_le hle hlarge
  exact ⟨hle, hlarge, hsmall, (hall (by decide) larger (by decide)).1⟩

end Apfs.Deflate
