import Apfs.Proofs.Compression.CodedBlocks
import Apfs.Proofs.Compression.StoredBlocks

namespace Apfs.Deflate

/-!
# Decoding deflate streams

A stream is decoded block by block.  The rules for parts of a stream lead from stored bytes and
tokens to blocks, and from blocks to streams.

* `decodes_contents`, `decodes_block` — decoding a block.
* `decodes_blocks` — decoding all blocks.
* `inflate_of_encodes`, `exists_encodes_of_inflate` — streams are decoded, and nothing else.
* `inflate_into_iff` — decoding into a buffer follows the format.
-/

/-! ### Blocks -/

/-- Decodes the contents of a block of the given kind. -/
def contents (n : Nat) : (kind : Nat) → Inflating BlockEnd
  | 0 => Inflater.storedBlock n
  | 1 => Inflater.codedBlock n .fixedLiterals .fixedDistances
  | 2 => do
    let (literals, distances) ← Inflater.reading Inflater.dynamicCodes
    Inflater.codedBlock n literals distances
  | _ => throw (.deflate .blockType)

/-- Which blocks are of a kind, and the bits of their contents. -/
def KindBits (kind : Nat) : Grammar Block := fun p block w =>
  kind = 0 ∧ (∃ bytes, block = .stored bytes ∧ StoredBits p bytes w) ∨
  kind = 1 ∧ (∃ tokens, block = .fixed tokens ∧ TokensBits fixedLiterals fixedDistances tokens w) ∨
  kind = 2 ∧ ∃ literals distances tokens u v, block = .dynamic literals distances tokens ∧
    CodesBits literals distances u ∧ TokensBits literals distances tokens v ∧ w = u ++ v

/-- Decoding a dynamic block.  Different code lengths may have the same code, so the block is one of
    any lengths for which the bits that were read stand. -/
theorem decodes_dynamic (n : Nat) (codes : PrefixCode × PrefixCode) (u : List Bool)
    (hcodes : ∃ literals distances, CodesBits literals distances u ∧
      codes = (.build literals, .build distances)) :
    Decodes n (Inflater.codedBlock n codes.1 codes.2)
      (fun _ block w => ∃ lengths : List Nat × List Nat,
        (CodesBits lengths.1 lengths.2 u ∧ codes = (.build lengths.1, .build lengths.2)) ∧
          ∃ tokens, block = .dynamic lengths.1 lengths.2 tokens ∧
            TokensBits lengths.1 lengths.2 tokens w)
      Block.expand (Block.Fits n) := by
  obtain ⟨literals, distances, hcodes, rfl⟩ := hcodes
  refine .any ⟨(literals, distances), hcodes, rfl⟩ fun lengths hlengths => ?_
  obtain ⟨hcodes, hbuild⟩ := hlengths
  obtain ⟨hliterals, hdistances⟩ := Prod.mk.inj hbuild
  obtain ⟨-, -, -, -, -, -, hadmissible, hadmissible', -⟩ := hcodes
  show Decodes n (Inflater.codedBlock n (.build literals) (.build distances)) _ _ _
  rw [hliterals, hdistances]
  exact (decodes_codedBlock hadmissible.1 hadmissible'.1).embed
    (Block.dynamic lengths.1 lengths.2) (fun _ _ => rfl) fun _ _ => Iff.rfl

theorem fixedLiterals_le : ∀ l ∈ fixedLiterals, l ≤ 15 := by
  intro l hl
  simp only [fixedLiterals, List.mem_append, List.mem_replicate] at hl
  omega

theorem fixedDistances_le : ∀ l ∈ fixedDistances, l ≤ 15 := by
  intro l hl
  rw [List.eq_of_mem_replicate hl]
  decide

/-- Decoding the contents of a block, the kind of which is known. -/
theorem decodes_contents (n kind : Nat) :
    Decodes n (contents n kind) (KindBits kind) Block.expand (Block.Fits n) := by
  match kind with
  | 0 =>
    refine Decodes.congr ((decodes_storedBlock n).embed Block.stored (fun _ _ => rfl)
      fun _ _ => startsBefore_literals) fun p block w => ?_
    simp [KindBits]
  | 1 =>
    refine Decodes.congr ((decodes_codedBlock fixedLiterals_le fixedDistances_le).embed Block.fixed
      (fun _ _ => rfl) fun _ _ => Iff.rfl) fun p block w => ?_
    simp [KindBits]
  | 2 =>
    refine Decodes.congr (Decodes.reading_bind reads_dynamicCodes fun codes _ u hcodes =>
      decodes_dynamic n codes u hcodes) fun p block w => ?_
    constructor
    · rintro ⟨_, u, v, -, ⟨⟨literals, distances⟩, ⟨hcodes, -⟩, tokens, rfl, htokens⟩, rfl⟩
      exact .inr (.inr ⟨rfl, literals, distances, tokens, u, v, rfl, hcodes, htokens, rfl⟩)
    · rintro (⟨hkind, -⟩ | ⟨hkind, -⟩ | ⟨-, literals, distances, tokens, u, v, rfl, hcodes,
        htokens, rfl⟩)
      · cases hkind
      · cases hkind
      · exact ⟨_, u, v, ⟨literals, distances, hcodes, rfl⟩,
          ⟨(literals, distances), ⟨hcodes, rfl⟩, tokens, rfl, htokens⟩, rfl⟩
  | kind + 3 =>
    refine Decodes.congr (Decodes.throw _) fun p block w => ?_
    simp [KindBits]

/-- The bits of a block start with its kind. -/
theorem blockBits_iff {p : Nat} {block : Block} {w : List Bool} :
    BlockBits p block w ↔ ∃ kind v, kind < 4 ∧ KindBits kind (p + 2) block v ∧
      w = lowBits 2 kind ++ v := by
  constructor
  · intro h
    cases block with
    | stored bytes =>
      obtain ⟨pad, hpad, hlt, rfl⟩ := h
      exact ⟨0, _, by decide, .inl ⟨rfl, bytes, rfl, pad, hpad, hlt, rfl⟩, rfl⟩
    | fixed tokens =>
      obtain ⟨v, hv, rfl⟩ := h
      exact ⟨1, v, by decide, .inr (.inl ⟨rfl, tokens, rfl, hv⟩), rfl⟩
    | dynamic literals distances tokens =>
      obtain ⟨u, v, hu, hv, rfl⟩ := h
      exact ⟨2, _, by decide, .inr (.inr ⟨rfl, _, _, _, u, v, rfl, hu, hv, rfl⟩), rfl⟩
  · rintro ⟨kind, v, hkind, ⟨rfl, bytes, rfl, pad, hpad, hlt, rfl⟩ | ⟨rfl, tokens, rfl, hv⟩ |
      ⟨rfl, literals, distances, tokens, u, v, rfl, hu, hv, rfl⟩, rfl⟩
    · exact ⟨pad, hpad, hlt, rfl⟩
    · exact ⟨v, hv, rfl⟩
    · exact ⟨u, v, hu, hv, rfl⟩

/-- **Decoding a block** up to its end. -/
theorem decodes_block (n : Nat) :
    Decodes n (Inflater.reading (BitReader.take 2) >>= contents n) BlockBits Block.expand
      (Block.Fits n) := by
  refine (Decodes.reading_bind (reads_take_lowFirst (by decide)) fun kind p u _ =>
    decodes_contents n kind).congr fun p block w => ?_
  rw [blockBits_iff]
  constructor
  · rintro ⟨kind, _, v, ⟨hkind, rfl⟩, hbits, rfl⟩
    exact ⟨kind, v, hkind, hbits, rfl⟩
  · rintro ⟨kind, v, hkind, hbits, rfl⟩
    exact ⟨kind, _, v, ⟨hkind, rfl⟩, hbits, rfl⟩

/-- Blocks are decoded one after the other, until one is marked or ends too early. -/
theorem block_eq (n : Nat) :
    Inflater.block n = do
      let last ← Inflater.reading (BitReader.take 1)
      let stop ← Inflater.reading (BitReader.take 2) >>= contents n
      return if stop = .outputFull ∨ last = 1 then some stop else none := by
  unfold Inflater.block
  refine bind_congr fun last => ?_
  rw [bind_assoc]
  refine bind_congr fun kind => ?_
  match kind with
  | 0 => rfl
  | 1 => rfl
  | 2 =>
    show _ = (Inflater.reading Inflater.dynamicCodes >>= _) >>= _
    rw [bind_assoc]
    rfl
  | kind + 3 => rfl

/-! ### Streams -/

section

variable {n : Nat} {data : ByteArray} {p : Nat} {l : List UInt8} (hp : p ≤ 8 * data.size)

include hp

/-- A block is decoded after the bit that tells whether it is the last one. -/
theorem block_eq_ok_iff {r : Option BlockEnd} {s' : Inflater} :
    Inflater.block n (state n data p l) = .ok r s' ↔
      ∃ last stop, [last] <+: (BitOrder.lowFirst.stream data).drop p ∧
        (Inflater.reading (BitReader.take 2) >>= contents n) (state n data (p + 1) l)
          = .ok stop s' ∧
        r = if stop = .outputFull ∨ last then some stop else none := by
  have hlast (last : Bool) : BitOrder.lowFirst.number [last] = 1 ↔ last = true := by
    rw [BitOrder.number_singleton, Bool.toNat_eq_one]
  rw [block_eq, reading_bind_eq_ok_iff (reads_take .lowFirst (by decide)) hp]
  constructor
  · rintro ⟨_, w, ⟨hw, rfl⟩, hcomes, h⟩
    obtain ⟨last, rfl⟩ := List.length_eq_one_iff.mp hw
    obtain ⟨stop, s₁, hs, h⟩ := bind_eq_ok_iff.mp h
    simp only [hlast] at h
    cases h
    exact ⟨last, stop, hcomes, hs, rfl⟩
  · rintro ⟨last, stop, hcomes, hs, rfl⟩
    refine ⟨_, [last], ⟨rfl, rfl⟩, hcomes, bind_eq_ok_iff.mpr ⟨stop, s', hs, ?_⟩⟩
    simp only [hlast]
    rfl

/-- **Decoding one block** up to its end. -/
theorem block_iff (last : Bool) {s' : Inflater} :
    Inflater.block n (state n data p l) = .ok (if last then some .reached else none) s' ↔
      ∃ block w l', BlockBits (p + 1) block w ∧
        last :: w <+: (BitOrder.lowFirst.stream data).drop p ∧ block.expand l = some l' ∧
        block.Fits n l.length ∧ s' = state n data (p + 1 + w.length) l' := by
  rw [block_eq_ok_iff hp]
  constructor
  · rintro ⟨last', stop, hcomes, hs, hr⟩
    -- A round without a result and a last round differ in the bit, and both reach their end.
    have hstop : stop = .reached ∧ last' = last := by
      cases stop <;> cases last' <;> cases last <;> simp at hr ⊢
    obtain ⟨rfl, rfl⟩ := hstop
    obtain ⟨block, w, l', hbits, hcomes', hexpand, hfits, hs⟩ :=
      ((decodes_block n).reached_iff (le_of_isPrefix hp hcomes)).mp hs
    exact ⟨block, w, l', hbits, append_prefix_drop.mpr ⟨hcomes, hcomes'⟩, hexpand, hfits, hs⟩
  · rintro ⟨block, w, l', hbits, hcomes, hexpand, hfits, hs⟩
    obtain ⟨hcomes, hcomes'⟩ := (append_prefix_drop (u := [last])).mp hcomes
    refine ⟨last, .reached, hcomes, ?_, by simp⟩
    exact ((decodes_block n).reached_iff (le_of_isPrefix hp hcomes)).mpr
      ⟨block, w, l', hbits, hcomes', hexpand, hfits, hs⟩

theorem block_outputFull {s' : Inflater}
    (h : Inflater.block n (state n data p l) = .ok (some .outputFull) s') :
    ∃ q l', n ≤ l'.length ∧ s' = state n data q l' := by
  obtain ⟨last, stop, hcomes, hs, hr⟩ := (block_eq_ok_iff hp).mp h
  split at hr
  next =>
    obtain rfl := Option.some.inj hr
    exact (decodes_block n).outputFull (le_of_isPrefix hp hcomes) hs
  next => cases hr

/-- The output is full where decoding a block ends too early. -/
theorem le_of_outputFull {q : Nat} {m : List UInt8}
    (h : Inflater.block n (state n data p l) = .ok (some .outputFull) (state n data q m)) :
    n ≤ m.length := by
  obtain ⟨q', l', hfull, hs⟩ := block_outputFull hp h
  have hsize : (cut n m).size = (cut n l').size := congrArg (fun s => s.output.size) hs
  rw [size_cut, size_cut] at hsize
  omega

theorem block_of_not_fits {last : Bool} {block : Block} {w : List Bool} {l' : List UInt8}
    (hbits : BlockBits (p + 1) block w)
    (hcomes : last :: w <+: (BitOrder.lowFirst.stream data).drop p)
    (hexpand : block.expand l = some l') (hfull : ¬ block.Fits n l.length) :
    ∃ q, Inflater.block n (state n data p l) = .ok (some .outputFull) (state n data q l') := by
  obtain ⟨hcomes, hcomes'⟩ := (append_prefix_drop (u := [last])).mp hcomes
  obtain ⟨q, hs⟩ :=
    (decodes_block n).of_not_fits (le_of_isPrefix hp hcomes) hbits hcomes' hexpand hfull
  exact ⟨q, (block_eq_ok_iff hp).mpr ⟨last, _, hcomes, hs, by simp⟩⟩

end

/-- The bits of a block that is not the last one stand before those of the other blocks. -/
theorem more_prefix_drop {stream u v : List Bool} {p : Nat} :
    false :: (u ++ v) <+: stream.drop p ↔
      false :: u <+: stream.drop p ∧ v <+: stream.drop (p + 1 + u.length) := by
  have h := append_prefix_drop (l := stream) (u := false :: u) (v := v) (p := p)
  rw [List.length_cons, Nat.add_comm u.length, ← Nat.add_assoc] at h
  exact h

theorem length_more (p : Nat) (u v : List Bool) :
    p + (false :: (u ++ v)).length = p + 1 + u.length + v.length := by
  rw [List.length_cons, List.length_append]
  omega

theorem le_of_more {data : ByteArray} {p : Nat} {u : List Bool} (hp : p ≤ 8 * data.size)
    (h : false :: u <+: (BitOrder.lowFirst.stream data).drop p) :
    p + 1 + u.length ≤ 8 * data.size := by
  have hle := le_of_isPrefix hp h
  rw [List.length_cons] at hle
  omega

/-- **Decoding all blocks** up to the end of the last one. -/
theorem decodes_blocks (n : Nat) :
    Decodes n (Inflater.blocks n) StreamBits expandFrom (Fits n) where
  reached_iff {data p l s'} hp := by
    constructor
    · intro h
      -- Each round prepends the bits of a block that is not marked; the last block is marked.
      refine loop_induction _ (P := fun s stop s' => ∀ p l, p ≤ 8 * data.size →
        s = state n data p l → stop = .reached → ∃ blocks w l', StreamBits p blocks w ∧
          w <+: (BitOrder.lowFirst.stream data).drop p ∧ expandFrom l blocks = some l' ∧
          Fits n l.length blocks ∧ s' = state n data (p + w.length) l')
        ?last ?next h p l hp rfl rfl
      case last =>
        rintro _ stop s' hstep p l hp rfl rfl
        obtain ⟨block, w, l', hbits, hcomes, hexpand, hfits, rfl⟩ :=
          (block_iff hp true).mp hstep
        refine ⟨[block], true :: w, l', .last hbits, hcomes,
          expandFrom_cons_eq_some_iff.mpr ⟨l', hexpand, rfl⟩, fits_cons.mpr ⟨hfits, fits_nil ..⟩, ?_⟩
        rw [List.length_cons, Nat.add_assoc, Nat.add_comm 1]
      case next =>
        rintro _ s₁ stop s' hstep ih p l hp rfl rfl
        obtain ⟨block, u, m, hbits, hcomes, hm, hfits, rfl⟩ := (block_iff hp false).mp hstep
        obtain ⟨blocks, v, l', hstream, hcomes', hexpand, hfits', rfl⟩ :=
          ih _ m (le_of_more hp hcomes) rfl rfl
        rw [block.length_expand hm] at hfits'
        refine ⟨block :: blocks, false :: (u ++ v), l', .more hbits hstream,
          more_prefix_drop.mpr ⟨hcomes, hcomes'⟩,
          expandFrom_cons_eq_some_iff.mpr ⟨m, hm, hexpand⟩,
          fits_cons.mpr ⟨hfits, hfits'⟩, ?_⟩
        rw [length_more]
    · rintro ⟨blocks, w, l', hbits, hcomes, hexpand, hfits, rfl⟩
      induction hbits generalizing l with
      | @last p block w hbits =>
        obtain ⟨m, hm, hexpand⟩ := expandFrom_cons_eq_some_iff.mp hexpand
        cases hexpand
        refine loop_of_some _ ((block_iff hp true).mpr
          ⟨block, w, _, hbits, hcomes, hm, (fits_cons.mp hfits).1, ?_⟩)
        rw [List.length_cons, Nat.add_assoc, Nat.add_comm 1]
      | @more p block blocks u v hbits hstream ih =>
        obtain ⟨m, hm, hexpand⟩ := expandFrom_cons_eq_some_iff.mp hexpand
        obtain ⟨hcomes, hcomes'⟩ := more_prefix_drop.mp hcomes
        obtain ⟨hfits, hfits'⟩ := fits_cons.mp hfits
        have hstep := (block_iff hp false).mpr ⟨block, u, m, hbits, hcomes, hm, hfits, rfl⟩
        rw [← block.length_expand hm] at hfits'
        rw [Inflater.blocks, loop_of_none _ hstep, length_more]
        exact ih (le_of_more hp hcomes) hcomes' hexpand hfits'
  outputFull {data p l s'} hp h := by
    refine loop_induction _ (P := fun s stop s' => ∀ p l, p ≤ 8 * data.size →
      s = state n data p l → stop = .outputFull →
        ∃ q l', n ≤ l'.length ∧ s' = state n data q l') ?last ?next h p l hp rfl rfl
    case last =>
      rintro _ stop s' hstep p l hp rfl rfl
      exact block_outputFull hp hstep
    case next =>
      rintro _ s₁ stop s' hstep ih p l hp rfl rfl
      obtain ⟨block, u, m, hbits, hcomes, hm, hfits, rfl⟩ := (block_iff hp false).mp hstep
      exact ih _ m (le_of_more hp hcomes) rfl rfl
  of_not_fits {data p l blocks w l'} hp hbits hcomes hexpand hroom := by
    induction hbits generalizing l with
    | @last p block w hbits =>
      obtain ⟨m, hm, hexpand⟩ := expandFrom_cons_eq_some_iff.mp hexpand
      cases hexpand
      have hfull : ¬ block.Fits n l.length := fun hfits =>
        hroom (fits_cons.mpr ⟨hfits, fits_nil ..⟩)
      obtain ⟨q, hstep⟩ := block_of_not_fits hp hbits hcomes hm hfull
      exact ⟨q, loop_of_some _ hstep⟩
    | @more p block blocks u v hbits hstream ih =>
      obtain ⟨m, hm, hexpand'⟩ := expandFrom_cons_eq_some_iff.mp hexpand
      obtain ⟨hcomes, hcomes'⟩ := more_prefix_drop.mp hcomes
      -- Either the block is decoded to its end, or decoding ends in it.
      by_cases hfits : block.Fits n l.length
      · have hstep := (block_iff hp false).mpr ⟨block, u, m, hbits, hcomes, hm, hfits, rfl⟩
        rw [Inflater.blocks, loop_of_none _ hstep]
        refine ih (le_of_more hp hcomes) hcomes' hexpand' fun hfits' =>
          hroom (fits_cons.mpr ⟨hfits, ?_⟩)
        rw [← block.length_expand hm]
        exact hfits'
      · -- The block is decoded as far as there is room, and none is left for those after it.
        obtain ⟨q, hstep⟩ := block_of_not_fits hp hbits hcomes hm hfits
        obtain ⟨t, rfl⟩ := prefix_of_expandFrom hexpand'
        refine ⟨q, loop_of_some _ ?_⟩
        rw [hstep, state, state, cut_append_of_le (le_of_outputFull hp hstep)]

/-! ### Whole streams -/

/-- The state in which decoding starts. -/
theorem state_zero (n : Nat) (data : ByteArray) :
    state n data 0 [] = ⟨.ofBytes data .lowFirst, .empty⟩ := by
  have hcut : cut n [] = .empty := by
    unfold cut
    rw [List.take_nil]
    rfl
  unfold state
  rw [hcut, BitReader.ofBytes_eq_atBit]

/-- What a step leaves behind. -/
def leftBy {α : Type} : EStateM.Result Error Inflater α → Decoded
  | .ok _ s => ⟨s.output, .ok ()⟩
  | .error e s => ⟨s.output, .error e⟩

theorem decodeAll_eq {α : Type} (x : Inflating α) (data : ByteArray) (n : Nat) :
    Inflater.decodeAll x data = leftBy (x (state n data 0 [])) := by
  unfold Inflater.decodeAll
  rw [← state_zero n]
  cases x (state n data 0 [])
  all_goals rfl

/-- **Completeness.**  A stream is decoded as far as there is room. -/
theorem inflate_of_encodes {data : ByteArray} {blocks : List Block} {bytes : List UInt8}
    (hencodes : Encodes data blocks) (hexpand : expand blocks = some bytes) (n : Nat) :
    inflate data n = .ok (cut n bytes) := by
  obtain ⟨w, hbits, hcomes⟩ := hencodes
  by_cases hfits : Fits n 0 blocks
  · have hreached := ((decodes_blocks n).reached_iff (Nat.zero_le _)).mpr
      ⟨blocks, w, bytes, hbits, hcomes, hexpand, hfits, rfl⟩
    rw [inflate, decodeAll_eq _ data n, hreached]
    rfl
  · obtain ⟨q, hfull⟩ :=
      (decodes_blocks n).of_not_fits (Nat.zero_le _) hbits hcomes hexpand hfits
    rw [inflate, decodeAll_eq _ data n, hfull]
    rfl

/-- **Soundness.**  What is decoded without filling the output is a stream. -/
theorem exists_encodes_of_inflate {data : ByteArray} {n : Nat}
    (hok : (inflate data n).outcome = .ok ()) (hsize : (inflate data n).output.size < n) :
    ∃ blocks bytes, Encodes data blocks ∧ expand blocks = some bytes := by
  rw [inflate, decodeAll_eq _ data n] at hok hsize
  cases hresult : Inflater.blocks n (state n data 0 []) with
  | ok stop s' =>
    rw [hresult] at hsize
    cases stop with
    | reached =>
      obtain ⟨blocks, w, bytes, hbits, hcomes, hexpand, -, -⟩ :=
        ((decodes_blocks n).reached_iff (Nat.zero_le _)).mp hresult
      exact ⟨blocks, bytes, ⟨w, hbits, hcomes⟩, hexpand⟩
    | outputFull =>
      obtain ⟨q, l', hfull, rfl⟩ := (decodes_blocks n).outputFull (Nat.zero_le _) hresult
      have hcut : (cut n l').size < n := hsize
      rw [size_cut] at hcut
      omega
  | error e s' =>
    rw [hresult] at hok
    cases hok

/-- A piece that is put at the start of a buffer. -/
theorem overlay_zero (buffer piece : ByteArray) :
    Bytes.overlay buffer 0 piece = piece ++ buffer.extract piece.size buffer.size := by
  have hnone : buffer.extract 0 0 = .empty := by
    apply ByteArray.ext
    rw [ByteArray.data_extract, Array.extract_empty_of_stop_le_start (Nat.le_refl 0)]
    rfl
  rw [Bytes.overlay, hnone, ByteArray.empty_append, Nat.zero_add]

/-- A buffer that is decoded into starts with the output. -/
theorem extract_into_ok (output buffer : ByteArray) {k : Nat} (h : k ≤ output.size) :
    ((Decoded.ok output).into buffer).2.extract 0 k = output.extract 0 k := by
  show (Bytes.overlay buffer 0 output).extract 0 k = _
  rw [overlay_zero, ← cut_toList, ← cut_toList, ByteArray.toList_data_append, cut, cut,
    List.take_append_of_le_length h]

/-- Decoding into a buffer gives the number of bytes that are decoded. -/
theorem into_eq_ok_iff {d : Decoded} {buffer : ByteArray} {w : Nat} :
    (d.into buffer).1 = .ok w ↔ ∃ output, d = .ok output ∧ output.size = w := by
  obtain ⟨output, outcome⟩ := d
  cases outcome with
  | ok u =>
    constructor
    · intro h
      exact ⟨output, rfl, Except.ok.inj h⟩
    · rintro ⟨output', h, rfl⟩
      rw [h]
      rfl
  | error e =>
    constructor
    · intro h
      cases h
    · rintro ⟨output', h, -⟩
      cases congrArg Decoded.outcome h

/-- **Decoding follows the format.**  The number of bytes is less than the size of the buffer
    exactly for the streams that stand for so many bytes; and a stream for whose bytes there is room
    is decoded into the start of the buffer. -/
theorem inflate_into_iff (data buffer : ByteArray) :
    (∀ w < buffer.size, ((inflate data buffer.size).into buffer).1 = .ok w ↔
      ∃ blocks bytes, Encodes data blocks ∧ expand blocks = some bytes ∧ bytes.length = w) ∧
    ∀ blocks bytes, Encodes data blocks → expand blocks = some bytes →
      bytes.length ≤ buffer.size → (inflate data buffer.size).into buffer
        = (.ok bytes.length,
            ⟨bytes.toArray⟩ ++ buffer.extract bytes.length buffer.size) := by
  have hinto {blocks : List Block} {bytes : List UInt8} (hencodes : Encodes data blocks)
      (hexpand : expand blocks = some bytes) (hle : bytes.length ≤ buffer.size) :
      (inflate data buffer.size).into buffer
        = (.ok bytes.length,
            ⟨bytes.toArray⟩ ++ buffer.extract bytes.length buffer.size) := by
    have hsize : (⟨bytes.toArray⟩ : ByteArray).size = bytes.length := List.size_toArray
    rw [inflate_of_encodes hencodes hexpand, cut_of_length_le hle]
    show (Except.ok (⟨bytes.toArray⟩ : ByteArray).size, Bytes.overlay buffer 0 ⟨bytes.toArray⟩) = _
    rw [overlay_zero, hsize]
  constructor
  · intro w hw
    constructor
    · intro hok
      obtain ⟨output, hdone, rfl⟩ := into_eq_ok_iff.mp hok
      -- As the buffer is not full, nothing was cut off.
      obtain ⟨blocks, bytes, hencodes, hexpand⟩ :=
        exists_encodes_of_inflate (congrArg Decoded.outcome hdone) (by rw [hdone]; exact hw)
      rw [inflate_of_encodes hencodes hexpand] at hdone
      obtain rfl : cut buffer.size bytes = output := congrArg Decoded.output hdone
      have hsize : (cut buffer.size bytes).size = min buffer.size bytes.length := size_cut ..
      exact ⟨blocks, bytes, hencodes, hexpand, by omega⟩
    · rintro ⟨blocks, bytes, hencodes, hexpand, rfl⟩
      rw [hinto hencodes hexpand (Nat.le_of_lt hw)]
  · intro blocks bytes hencodes hexpand hle
    exact hinto hencodes hexpand hle

/-! A stored byte, and a block in the fixed code that repeats it. -/

theorem tokenBits_fixedCopy :
    TokenBits fixedLiterals fixedDistances (.copy 3 1)
      [false, false, false, false, false, false, true, false, false, false, false, false] := by
  refine ⟨0, 0, [false, false, false, false, false, false, true], [],
    [false, false, false, false, false], [], ?_, ⟨3, rfl, rfl⟩, ?_, ⟨1, rfl, rfl⟩, rfl⟩
  · unfold CodeWord
    decide +kernel
  · unfold CodeWord
    decide +kernel

theorem codeWord_fixedEnd : CodeWord fixedLiterals 256 (List.replicate 7 false) := by
  unfold CodeWord
  decide +kernel

theorem encodes_twoBlocks :
    Encodes ⟨#[0x00, 0x01, 0x00, 0xfe, 0xff, 0x61, 0x03, 0x02, 0x00]⟩
      [.stored [0x61], .fixed [.copy 3 1]] := by
  refine ⟨_, .more ⟨List.replicate 5 false, rfl, by decide, rfl⟩
    (.last ⟨_, .cons tokenBits_fixedCopy (.nil codeWord_fixedEnd), rfl⟩), ?_⟩
  decide +kernel

theorem inflate_into_twoBlocks :
    let data : ByteArray := ⟨#[0x00, 0x01, 0x00, 0xfe, 0xff, 0x61, 0x03, 0x02, 0x00]⟩
    let buffer : ByteArray := ⟨#[0, 1, 2, 3, 4]⟩
    let blocks : List Block := [.stored [0x61], .fixed [.copy 3 1]]
    let bytes : List UInt8 := [0x61, 0x61, 0x61, 0x61]
    Encodes data blocks ∧ expand blocks = some bytes ∧ bytes.length < buffer.size ∧
      ((inflate data buffer.size).into buffer).1 = .ok 4 ∧
      (inflate data buffer.size).into buffer
        = (.ok bytes.length,
            ⟨bytes.toArray⟩ ++ buffer.extract bytes.length buffer.size) := by
  intro data buffer blocks bytes
  have hencodes : Encodes data blocks := encodes_twoBlocks
  have hlt : bytes.length < buffer.size := by decide
  have hexpand : expand blocks = some bytes := by decide
  exact ⟨hencodes, hexpand, hlt,
    ((inflate_into_iff data buffer).1 4 hlt).mpr ⟨blocks, bytes, hencodes, hexpand, rfl⟩,
    (inflate_into_iff data buffer).2 blocks bytes hencodes hexpand (Nat.le_of_lt hlt)⟩

end Apfs.Deflate
