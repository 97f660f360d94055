import Apfs.Proofs.Compression.InPlaceStreams
import Apfs.Proofs.Compression.Truncation

namespace Apfs

/-!
# Decoding into a caller's buffer

What is in the buffer before decoding has no influence, and the bytes behind those that are written
are left alone.  Whatever the data are, decoding ends with a number of bytes or with an error: no
access is out of range, and each round of a loop consumes some of the input.

* `SameWriting`, `sameWriting_of_size_eq` — two buffers of the same size.
* `EndsWithin`, `endsWithin_and_consumes` — any data and any buffer.
-/

variable {data buffer : ByteArray}

/-! ### Old contents -/

/-- Two results of decoding into buffers with different contents: they are the same, the same bytes
    were written, and the bytes behind them are those of either buffer. -/
structure SameWriting (buffer₁ buffer₂ : ByteArray)
    (result₁ result₂ : Except Stop Nat × InPlaceInflater) : Prop where
  /-- Decoding gives the number of bytes that are written, or an error. -/
  outcome : (∃ w, result₁.1 = .ok w ∧ result₂.1 = .ok w ∧ result₁.2.out.offset = w) ∨
    ∃ e, result₁.1 = .error (.failed e) ∧ result₂.1 = .error (.failed e)
  offset_eq : result₁.2.out.offset = result₂.2.out.offset
  size_eq : result₁.2.out.data.size = buffer₁.size ∧ result₂.2.out.data.size = buffer₂.size
  /-- The bytes that are written. -/
  written : ∀ i < result₁.2.out.offset,
    Bytes.get result₁.2.out.data i = Bytes.get result₂.2.out.data i
  /-- The bytes behind them. -/
  unchanged : ∀ i, result₁.2.out.offset ≤ i →
    Bytes.get result₁.2.out.data i = Bytes.get buffer₁ i ∧
    Bytes.get result₂.2.out.data i = Bytes.get buffer₂ i

/-- What one decoder leaves behind in two buffers. -/
theorem InPlaceInflater.Leaves.sameWriting {buffer₁ buffer₂ : ByteArray} {d : Decoded}
    {result₁ result₂ : Except Stop Nat × InPlaceInflater} (h₁ : Leaves data buffer₁ d result₁)
    (h₂ : Leaves data buffer₂ d result₂) : SameWriting buffer₁ buffer₂ result₁ result₂ := by
  have hout₁ := h₁.out_eq
  have hout₂ := h₂.out_eq
  have houtcome₁ := h₁.outcome_eq
  have houtcome₂ := h₂.outcome_eq
  constructor
  case outcome =>
    cases hd : d.outcome with
    | ok u =>
      rw [hd] at houtcome₁ houtcome₂
      exact .inl ⟨_, houtcome₁, houtcome₂, by rw [hout₁]; rfl⟩
    | error e =>
      rw [hd] at houtcome₁ houtcome₂
      exact .inr ⟨e, houtcome₁, houtcome₂⟩
  case offset_eq =>
    rw [hout₁, hout₂]
    rfl
  case size_eq =>
    rw [hout₁, hout₂]
    exact ⟨OutputBuffer.size_holding h₁.size_le, OutputBuffer.size_holding h₂.size_le⟩
  case written =>
    rw [hout₁, hout₂]
    intro i hi
    rw [OutputBuffer.get_holding h₁.size_le hi, OutputBuffer.get_holding h₂.size_le hi]
  case unchanged =>
    rw [hout₁, hout₂]
    intro i hi
    exact ⟨OutputBuffer.get_holding_of_le h₁.size_le hi,
      OutputBuffer.get_holding_of_le h₂.size_le hi⟩

/-- **Old contents of the buffer** have no influence on decoding, and what is not overwritten stays,
    whether decoding succeeds or fails. -/
theorem sameWriting_of_size_eq (data : ByteArray) {buffer₁ buffer₂ : ByteArray}
    (h : buffer₁.size = buffer₂.size) :
    SameWriting buffer₁ buffer₂ (inflateInPlace data buffer₁) (inflateInPlace data buffer₂) ∧
    SameWriting buffer₁ buffer₂ (inflateZlibInPlace data buffer₁)
      (inflateZlibInPlace data buffer₂) := by
  have hinflate := leaves_inflateInPlace data buffer₁
  have hzlib := leaves_inflateZlibInPlace data buffer₁
  rw [h] at hinflate hzlib
  exact ⟨hinflate.sameWriting (leaves_inflateInPlace data buffer₂),
    hzlib.sameWriting (leaves_inflateZlibInPlace data buffer₂)⟩

/-- Four bytes are written into two buffers of five. -/
theorem sameWriting_literalAndCopy :
    let zeros : ByteArray := ⟨#[0, 0, 0, 0, 0]⟩
    let others : ByteArray := ⟨#[1, 2, 3, 4, 5]⟩
    zeros.size = others.size ∧
      SameWriting zeros others (inflateZlibInPlace Deflate.literalAndCopy zeros)
        (inflateZlibInPlace Deflate.literalAndCopy others) ∧
      (inflateZlibInPlace Deflate.literalAndCopy others).1 = .ok 4 ∧
      Bytes.get (inflateZlibInPlace Deflate.literalAndCopy others).2.out.data 4 = 5 := by
  intro zeros others
  have hsize : zeros.size = others.size := rfl
  have hsame := (sameWriting_of_size_eq Deflate.literalAndCopy hsize).2
  have hleaves := leaves_inflateZlibInPlace Deflate.literalAndCopy others
  rw [show others.size = 5 from rfl, Deflate.inflateZlib_literalAndCopy] at hleaves
  have hoffset : (inflateZlibInPlace Deflate.literalAndCopy zeros).2.out.offset = 4 := by
    rw [hsame.offset_eq, hleaves.out_eq]
    rfl
  exact ⟨hsize, hsame, hleaves.outcome_eq, (hsame.unchanged 4 (Nat.le_of_eq hoffset)).2⟩

/-! ### Any data -/

/-- Decoding ends with a number of bytes that are in the buffer, or with an error, after no more
    rounds of all loops than the data have bits.  Nothing happens on the way that must not
    happen. -/
structure EndsWithin (data buffer : ByteArray) (result : Except Stop Nat × InPlaceInflater) :
    Prop where
  outcome : (∃ w ≤ buffer.size, result.1 = .ok w) ∨ ∃ e, result.1 = .error (.failed e)
  rounds_le : result.2.rounds ≤ 8 * data.size

theorem InPlaceInflater.Leaves.endsWithin {d : Decoded}
    {result : Except Stop Nat × InPlaceInflater} (h : Leaves data buffer d result) :
    EndsWithin data buffer result where
  outcome := by
    have houtcome := h.outcome_eq
    cases hd : d.outcome with
    | ok u =>
      rw [hd] at houtcome
      exact .inl ⟨_, h.size_le, houtcome⟩
    | error e =>
      rw [hd] at houtcome
      exact .inr ⟨e, houtcome⟩
  rounds_le := h.rounds_le

/-- Any state in the midst of decoding matches one with an output that grows. -/
theorem InPlaceInflater.exists_matches {s : InPlaceInflater} {p : Nat} (hp : p ≤ 8 * data.size)
    (hreader : s.reader = .atBit data .lowFirst p) (hout : s.out.offset ≤ s.out.data.size) :
    ∃ output, Matches data s.out.data s ⟨.atBit data .lowFirst p, output⟩ := by
  have hsize : (s.out.data.extract 0 s.out.offset).size = s.out.offset := by
    rw [ByteArray.size_extract]
    omega
  refine ⟨s.out.data.extract 0 s.out.offset, ⟨p, hp, hreader, rfl⟩, ?_, by rw [hsize]; exact hout⟩
  have hdata : Bytes.overlay s.out.data 0 (s.out.data.extract 0 s.out.offset) = s.out.data := by
    apply Bytes.ext_get
    · exact Bytes.size_overlay (by omega)
    · intro i _
      rw [Bytes.get_overlay (by omega)]
      by_cases hi : i < s.out.offset
      · rw [if_pos (by omega), Nat.sub_zero, Bytes.get_extract _ (by omega), Nat.zero_add]
      · rw [if_neg (by omega)]
  rw [OutputBuffer.holding, hdata, hsize]

/-- Decoding a block consumes at least one bit. -/
theorem InPlaceInflater.remaining_block_lt {s s' : InPlaceInflater} {p : Nat}
    {stop : BlockEnd ⊕ Unit} (hp : p ≤ 8 * data.size) (hreader : s.reader = .atBit data .lowFirst p)
    (hout : s.out.offset ≤ s.out.data.size) (h : block s = .ok stop s') :
    s'.remaining < s.remaining := by
  obtain ⟨output, ht⟩ := exists_matches hp hreader hout
  have hblock := refines_block ht
  cases hresult : Inflater.block s.out.data.size ⟨.atBit data .lowFirst p, output⟩ with
  | ok stop' t' =>
    rw [hresult] at hblock
    obtain ⟨stop₁, s₁, h₁, -, -, hlater⟩ := hblock
    obtain ⟨-, rfl⟩ := EStateM.Result.ok.inj (h.symm.trans h₁)
    exact hlater.remaining_lt
  | error e t' =>
    rw [hresult] at hblock
    obtain ⟨s₁, h₁, -⟩ := hblock
    cases h.symm.trans h₁

/-- **Decoding ends, in range,** whatever the data and the size of the buffer; each symbol and each
    block consumes at least one bit. -/
theorem endsWithin_and_consumes (data buffer : ByteArray) :
    EndsWithin data buffer (inflateInPlace data buffer) ∧
    EndsWithin data buffer (inflateZlibInPlace data buffer) ∧
    (∀ (table : CodeTable) (r : WordReader) (symbol : Nat) (r' : WordReader),
      table.decode r = .ok symbol r' → r'.remaining < r.remaining) ∧
    ∀ (s : InPlaceInflater) (p : Nat) (stop : BlockEnd ⊕ Unit) (s' : InPlaceInflater),
      p ≤ 8 * data.size → s.reader = .atBit data .lowFirst p → s.out.offset ≤ s.out.data.size →
      InPlaceInflater.block s = .ok stop s' → s'.remaining < s.remaining :=
  ⟨(leaves_inflateInPlace data buffer).endsWithin,
    (leaves_inflateZlibInPlace data buffer).endsWithin,
    fun _ _ _ _ h => CodeTable.remaining_decode_lt h,
    fun _ _ _ _ hp hreader hout h => InPlaceInflater.remaining_block_lt hp hreader hout h⟩

/-- An empty stored block, which is the last one. -/
def emptyBlock : ByteArray := ⟨#[0x01, 0x00, 0x00, 0xff, 0xff]⟩

/-- The empty block takes all bits of its data, and a code word of one bit takes that bit. -/
theorem endsWithin_emptyBlock :
    let table : CodeTable := ⟨#[0, 1, 0, 0, 0, 0, 0, 0, 0, 0, 0, 0, 0, 0, 0, 0], #[7]⟩
    let r : WordReader := { data := emptyBlock, order := .highFirst }
    let r' : WordReader := { r with next := 1, buffer := 1, buffered := 7 }
    let s : InPlaceInflater := { reader := .atBit emptyBlock .lowFirst 0, out := ⟨.empty, 0⟩ }
    let s' : InPlaceInflater := { s with reader := { s.reader with next := 5 } }
    EndsWithin emptyBlock .empty (inflateInPlace emptyBlock .empty) ∧
      table.decode r = .ok 7 r' ∧ r'.remaining < r.remaining ∧
      InPlaceInflater.block s = .ok (.inl .reached) s' ∧ s'.remaining < s.remaining := by
  intro table r r' s s'
  obtain ⟨hends, -, hsymbol, hblock⟩ := endsWithin_and_consumes emptyBlock .empty
  have hdecode : table.decode r = .ok 7 r' := by
    cbv
  have hstep : InPlaceInflater.block s = .ok (.inl .reached) s' := by
    cbv
  exact ⟨hends, hdecode, hsymbol _ _ _ _ hdecode, hstep,
    hblock _ 0 _ _ (Nat.zero_le _) rfl (Nat.zero_le _) hstep⟩

end Apfs
