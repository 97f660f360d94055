import Apfs.Compression.InPlace.Inflate
import Apfs.Proofs.Bytes.Pieces
import Apfs.Proofs.Compression.TableDecoding

namespace Apfs

/-!
# Decoding in place

Decoding in place does what decoding into an output that grows does: the bytes that were written
are the output, and the rest of the buffer is as it was.  All checks on the way are passed.  Each
round of a loop is paid for by a bit of the input, so that the rounds that are completed and the
bits that are left, taken together, do not become more.

* `OutputBuffer.holding` — a buffer with some output in it, and what is written to it.
* `Matches` — a state of decoding in place and one with an output that grows.
* `Refines` — a step in place does what a step with an output that grows does; there is a rule for
  each way in which decoders are built.
-/

variable {α β γ δ : Type} {data buffer output : ByteArray}

/-! ### Bytes -/

/-- Replacing a byte is writing a piece of one byte. -/
theorem Bytes.set_eq_overlay {i : Nat} (h : i < data.size) (b : UInt8) :
    data.set i b h = Bytes.overlay data i ⟨#[b]⟩ := by
  have hpiece : (⟨#[b]⟩ : ByteArray).size = 1 := rfl
  have hfits : i + (⟨#[b]⟩ : ByteArray).size ≤ data.size := h
  have hsize : (data.set i b h).size = data.size := Array.size_set h
  apply Bytes.ext_get
  · rw [hsize, Bytes.size_overlay hfits]
  · intro j hj
    have hlt : j < data.size := by rwa [hsize] at hj
    have hget : (data.set i b h)[j] = if i = j then b else data[j] := Array.getElem_set ..
    rw [Bytes.get_of_lt hj, hget, Bytes.get_overlay hfits, hpiece]
    by_cases hij : i = j
    · rw [if_pos hij, if_pos (by omega), hij, Nat.sub_self]
      rfl
    · rw [if_neg hij, if_neg (by omega), Bytes.get_of_lt hlt]

/-- Two pieces that are written one after the other are one piece. -/
theorem Bytes.overlay_overlay {start : Nat} {a b : ByteArray}
    (h : start + a.size + b.size ≤ data.size) :
    overlay (overlay data start a) (start + a.size) b = overlay data start (a ++ b) := by
  have hfirst : start + a.size ≤ data.size := by omega
  have hsecond : start + a.size + b.size ≤ (overlay data start a).size := by
    rw [size_overlay hfirst]
    exact h
  have hboth : start + (a ++ b).size ≤ data.size := by
    rw [ByteArray.size_append]
    omega
  apply ext_get
  · rw [size_overlay hsecond, size_overlay hfirst, size_overlay hboth]
  · intro i _
    rw [get_overlay hsecond, get_overlay hfirst, get_overlay hboth, get_append,
      ByteArray.size_append]
    -- The byte is in front of both pieces, in the first one, in the second one, or behind them.
    by_cases hfront : i < start
    · rw [if_neg (by omega), if_neg (by omega), if_neg (by omega)]
    · by_cases hin : i < start + a.size
      · rw [if_neg (by omega), if_pos (by omega), if_pos (by omega), if_pos (by omega)]
      · by_cases hin' : i < start + a.size + b.size
        · rw [if_pos (by omega), if_pos (by omega), if_neg (by omega), Nat.sub_sub]
        · rw [if_neg (by omega), if_neg (by omega), if_neg (by omega)]

/-! ### Buffers -/

namespace OutputBuffer

/-- The buffer with some output at its start. -/
def holding (buffer output : ByteArray) : OutputBuffer :=
  ⟨Bytes.overlay buffer 0 output, output.size⟩

theorem size_holding (h : output.size ≤ buffer.size) :
    (holding buffer output).data.size = buffer.size :=
  Bytes.size_overlay (by omega)

/-- The bytes that are written are the output. -/
theorem get_holding (h : output.size ≤ buffer.size) {i : Nat} (hi : i < output.size) :
    Bytes.get (holding buffer output).data i = Bytes.get output i := by
  rw [holding, Bytes.get_overlay (by omega), if_pos (by omega), Nat.sub_zero]

/-- The other bytes are as they were. -/
theorem get_holding_of_le (h : output.size ≤ buffer.size) {i : Nat} (hi : output.size ≤ i) :
    Bytes.get (holding buffer output).data i = Bytes.get buffer i := by
  rw [holding, Bytes.get_overlay (by omega), if_neg (by omega)]

/-- A piece that is written behind the output extends it. -/
theorem overlay_holding {piece : ByteArray} (h : output.size + piece.size ≤ buffer.size) :
    Bytes.overlay (holding buffer output).data output.size piece
      = (holding buffer (output ++ piece)).data := by
  have hpieces := @Bytes.overlay_overlay buffer 0 output piece (by omega)
  rwa [Nat.zero_add] at hpieces

/-- The bytes that are written are the output. -/
theorem extract_holding (h : output.size ≤ buffer.size) :
    (holding buffer output).data.extract 0 output.size = output := by
  have hsize := size_holding h
  apply Bytes.ext_get
  · rw [ByteArray.size_extract]
    omega
  · intro i hi
    rw [ByteArray.size_extract] at hi
    rw [Bytes.get_extract _ (by omega), Nat.zero_add, get_holding h (by omega)]

theorem room_holding (h : output.size ≤ buffer.size) :
    room (holding buffer output) = .ok (buffer.size - output.size) (holding buffer output) := by
  have hle : (holding buffer output).offset ≤ (holding buffer output).data.size := by
    rw [size_holding h]
    exact h
  unfold room
  rw [bind_of_get, minus_of_le hle, size_holding h]
  rfl

theorem push_holding (h : output.size < buffer.size) (b : UInt8) :
    push b (holding buffer output) = .ok () (holding buffer (output.push b)) := by
  have hlt : output.size < (holding buffer output).data.size := by
    rw [size_holding (by omega)]
    exact h
  have hpush : output.push b = output ++ ⟨#[b]⟩ := by
    apply ByteArray.ext
    rw [ByteArray.data_append]
    rfl
  have hset : (holding buffer output).data.set output.size b hlt
      = (holding buffer (output.push b)).data := by
    rw [Bytes.set_eq_overlay, hpush]
    exact overlay_holding h
  show (if h : output.size < (holding buffer output).data.size then _ else _ :
    EStateM.Result Stop OutputBuffer Unit) = _
  rw [dif_pos hlt]
  exact congrArg (EStateM.Result.ok ()) (congrArg₂ mk hset ByteArray.size_push.symm)

theorem append_holding {bytes : ByteArray} {count : Nat} (h : output.size + count ≤ buffer.size)
    (hcount : count ≤ bytes.size) :
    append bytes count (holding buffer output)
      = .ok () (holding buffer (output ++ bytes.extract 0 count)) := by
  have hsize : (bytes.extract 0 count).size = count := by
    rw [ByteArray.size_extract]
    omega
  have hfits : output.size + count ≤ (holding buffer output).data.size := by
    rw [size_holding (by omega)]
    exact h
  show (if output.size + count ≤ (holding buffer output).data.size ∧ count ≤ bytes.size then _
    else _ : EStateM.Result Stop OutputBuffer Unit) = _
  rw [if_pos ⟨hfits, hcount⟩]
  refine congrArg (EStateM.Result.ok ()) (congrArg₂ mk (overlay_holding (by omega)) ?_)
  rw [ByteArray.size_append, hsize]

theorem repeatByte_holding {distance : Nat} (h : output.size < buffer.size) (hpos : 1 ≤ distance)
    (hle : distance ≤ output.size) :
    repeatByte distance (holding buffer output)
      = .ok () (holding buffer (output.push (Bytes.get output (output.size - distance)))) := by
  have hlt : output.size - distance < (holding buffer output).data.size := by
    rw [size_holding (by omega)]
    omega
  have hoffset : (holding buffer output).offset = output.size := rfl
  unfold repeatByte
  rw [bind_of_get, hoffset, minus_of_le hle, pure_bind, byteAt_of_lt hlt, pure_bind,
    get_holding (by omega) (by omega), push_holding h]

/-- Bytes are copied one after the other as far as there is room. -/
theorem repeatBytes_holding {distance count : Nat} (h : output.size + count ≤ buffer.size)
    (hpos : 1 ≤ distance) (hle : distance ≤ output.size) :
    repeatBytes distance count (holding buffer output)
      = .ok () (holding buffer (Bytes.copyBack output distance count)) := by
  induction count generalizing output with
  | zero => rfl
  | succ count ih =>
    rw [repeatBytes, bind_of_ok (repeatByte_holding (by omega) hpos hle),
      ih (by rw [ByteArray.size_push]; omega) (by rw [ByteArray.size_push]; omega)]
    rfl

/-- **Copying** never reads a byte that is not written. -/
theorem copyBack_holding {distance : Nat} (h : output.size ≤ buffer.size) (hpos : 1 ≤ distance)
    (hle : distance ≤ output.size) (length : Nat) :
    copyBack distance length (holding buffer output)
      = .ok () (holding buffer
        (Bytes.copyBack output distance (min length (buffer.size - output.size)))) := by
  have hoffset : (holding buffer output).offset = output.size := rfl
  unfold copyBack
  rw [bind_of_get, hoffset, if_neg (by omega), expect_of (c := 0 < distance) hpos, pure_bind,
    bind_of_ok (room_holding h), repeatBytes_holding (by omega) hpos hle]

/-- Copies from before the start are refused. -/
theorem copyBack_holding_of_lt {distance : Nat} (hlt : output.size < distance) (length : Nat) :
    copyBack distance length (holding buffer output)
      = .error (.failed (.deflate .distanceTooFar)) (holding buffer output) := by
  have hoffset : (holding buffer output).offset = output.size := rfl
  unfold copyBack
  rw [bind_of_get, hoffset, if_pos hlt]
  rfl

end OutputBuffer

/-! ### States -/

namespace InPlaceInflater

/-- The number of rounds that may be completed by the end: each round to come takes a bit. -/
def roundLimit (s : InPlaceInflater) : Nat := s.rounds + s.remaining

/-- The state `s'` comes after `s`.  At least `k` of the bits that were read on the way are those of
    no round. -/
structure Later (k : Nat) (s s' : InPlaceInflater) : Prop where
  rounds_le : s.rounds ≤ s'.rounds
  roundLimit_le : s'.roundLimit + k ≤ s.roundLimit

theorem Later.refl (s : InPlaceInflater) : Later 0 s s := ⟨Nat.le_refl _, Nat.le_refl _⟩

theorem Later.trans {k l : Nat} {s s' s₁ : InPlaceInflater} (h : Later k s s')
    (h' : Later l s' s₁) : Later (k + l) s s₁ where
  rounds_le := h.rounds_le.trans h'.rounds_le
  roundLimit_le := by
    have hle := h.roundLimit_le
    have hle' := h'.roundLimit_le
    omega

theorem Later.weaken {k l : Nat} {s s' : InPlaceInflater} (h : Later k s s') (hle : l ≤ k) :
    Later l s s' :=
  ⟨h.rounds_le, (Nat.add_le_add_left hle _).trans h.roundLimit_le⟩

/-- Bits of no round are bits that were read. -/
theorem Later.remaining_lt {s s' : InPlaceInflater} (h : Later 1 s s') :
    s'.remaining < s.remaining := by
  have hrounds := h.rounds_le
  have hlimit := h.roundLimit_le
  unfold roundLimit at hlimit
  omega

/-- A bit pays for a round. -/
theorem Later.round {s s' : InPlaceInflater} (h : Later 1 s s') :
    Later 0 s { s' with rounds := s'.rounds + 1 } where
  rounds_le := h.rounds_le.trans (Nat.le_succ _)
  roundLimit_le := by
    have hlimit := h.roundLimit_le
    unfold roundLimit at hlimit ⊢
    show s'.rounds + 1 + s'.remaining + 0 ≤ _
    omega

/-- The state of decoding in place is that of decoding with an output that grows. -/
structure Matches (data buffer : ByteArray) (s : InPlaceInflater) (t : Inflater) : Prop where
  exists_atBit : ∃ p ≤ 8 * data.size, s.reader = .atBit data .lowFirst p ∧
    t.input = .atBit data .lowFirst p
  out_eq : s.out = .holding buffer t.output
  size_le : t.output.size ≤ buffer.size

namespace Matches

variable {s : InPlaceInflater} {t : Inflater}

/-- The rounds do not matter. -/
theorem withRounds (h : Matches data buffer s t) (rounds : Nat) :
    Matches data buffer { s with rounds } t :=
  ⟨h.exists_atBit, h.out_eq, h.size_le⟩

theorem room_eq (h : Matches data buffer s t) :
    writing OutputBuffer.room s = .ok (buffer.size - t.output.size) s := by
  obtain ⟨reader, out, rounds⟩ := s
  obtain rfl := h.out_eq
  simp only [writing, OutputBuffer.room_holding h.size_le]

/-- Writing in place extends the output. -/
theorem exists_writing (h : Matches data buffer s t) {x : Writing α} {a : α}
    (hx : x (.holding buffer t.output) = .ok a (.holding buffer output))
    (hsize : output.size ≤ buffer.size) :
    ∃ s', writing x s = .ok a s' ∧ Matches data buffer s' { t with output } ∧ Later 0 s s' := by
  obtain ⟨reader, out, rounds⟩ := s
  obtain rfl := h.out_eq
  refine ⟨⟨reader, .holding buffer output, rounds⟩, ?_, ⟨h.exists_atBit, rfl, hsize⟩,
    Nat.le_refl _, Nat.le_refl _⟩
  simp only [writing, hx]

end Matches

/-! ### Steps -/

/-- What becomes of a step in place that starts in the state `s`: `x` is what `y` is, up to the
    relation `V` between their values.  On the way at least `k` bits are read for which no round is
    completed. -/
def Refined (data buffer : ByteArray) (k : Nat) (V : α → β → Prop) (s : InPlaceInflater)
    (x : EStateM.Result Stop InPlaceInflater α) (y : EStateM.Result Error Inflater β) : Prop :=
  match y with
  | .ok b t' => ∃ a s', x = .ok a s' ∧ V a b ∧ Matches data buffer s' t' ∧ Later k s s'
  | .error e t' => ∃ s', x = .error (.failed e) s' ∧ Matches data buffer s' t' ∧
    s'.rounds ≤ s.roundLimit

/-- A step in place does what a step with an output that grows does, if they start in states that
    match. -/
def Refines (data buffer : ByteArray) (k : Nat) (V : α → β → Prop) (x : InflatingInPlace α)
    (y : Inflating β) : Prop :=
  ∀ ⦃s t⦄, Matches data buffer s t → Refined data buffer k V s (x s) (y t)

/-- What became of the steps that followed. -/
theorem Refined.of_later {k l : Nat} {V : α → β → Prop} {s s' : InPlaceInflater}
    {x : EStateM.Result Stop InPlaceInflater α} {y : EStateM.Result Error Inflater β}
    (hlater : Later k s s') (h : Refined data buffer l V s' x y) :
    Refined data buffer (k + l) V s x y := by
  cases y with
  | ok b t =>
    obtain ⟨a, s₁, hx, hab, hs₁, hlater'⟩ := h
    exact ⟨a, s₁, hx, hab, hs₁, hlater.trans hlater'⟩
  | error e t =>
    obtain ⟨s₁, hx, hs₁, hrounds⟩ := h
    exact ⟨s₁, hx, hs₁, hrounds.trans ((Nat.le_add_right _ k).trans hlater.roundLimit_le)⟩

namespace Refines

variable {k l : Nat} {V : α → β → Prop} {W : γ → δ → Prop} {x : InflatingInPlace α}
  {y : Inflating β} {f : α → InflatingInPlace γ} {g : β → Inflating δ}

theorem pure {a : α} {b : β} (h : V a b) : Refines data buffer 0 V (Pure.pure a) (Pure.pure b) :=
  fun s _ hs => ⟨a, s, rfl, h, hs, .refl s⟩

theorem fail (e : Error) : Refines data buffer k V (Apfs.fail e) (throw e) :=
  fun s _ hs => ⟨s, rfl, hs, Nat.le_add_right _ _⟩

/-- **Sequencing.** -/
theorem bind (h : Refines data buffer k V x y)
    (hf : ∀ a b, V a b → Refines data buffer 0 W (f a) (g b)) :
    Refines data buffer k W (x >>= f) (y >>= g) := by
  intro s t hs
  have hx := h hs
  cases hy : y t with
  | ok b t' =>
    rw [hy] at hx
    obtain ⟨a, s', hx, hab, hs', hlater⟩ := hx
    rw [bind_of_ok hy, bind_of_ok hx]
    exact (hf a b hab hs').of_later hlater
  | error e t' =>
    rw [hy] at hx
    obtain ⟨s', hx, hs', hrounds⟩ := hx
    rw [bind_of_error hy, bind_of_error hx]
    exact ⟨s', rfl, hs', hrounds⟩

/-- Less may be said. -/
theorem weaken (h : Refines data buffer k V x y) (hle : l ≤ k) : Refines data buffer l V x y := by
  intro s t hs
  have hx := h hs
  cases hy : y t with
  | ok b t' =>
    rw [hy] at hx
    obtain ⟨a, s', hx, hab, hs', hlater⟩ := hx
    exact ⟨a, s', hx, hab, hs', hlater.weaken hle⟩
  | error e t' =>
    rw [hy] at hx
    exact hx

/-- A check that is made before the same steps. -/
theorem check {c : Prop} [Decidable c] {e : Error} {r : δ → Inflating β}
    (h : ¬ c → Refines data buffer k V x y) :
    Refines data buffer k V (if c then Apfs.fail e else x) (if c then throw e >>= r else y) := by
  by_cases hc : c
  · rw [if_pos hc, if_pos hc]
    exact .fail e
  · rw [if_neg hc, if_neg hc]
    exact h hc

end Refines

/-! ### Reading -/

/-- Readings that do the same do the same in the midst of decoding. -/
theorem refines_reading {k : Nat} {V : α → β → Prop} {x : WordReading α} {y : BitReading β}
    (h : Mirrors V x y) (hy : ∀ ⦃r b r'⦄, y r = .ok b r' → r'.remaining + k ≤ r.remaining) :
    Refines data buffer k V (reading x) (Inflater.reading y) := by
  rintro ⟨reader, out, rounds⟩ ⟨input, output⟩ ⟨⟨p, hp, rfl, rfl⟩, hout, hsize⟩
  have hx := @h data .lowFirst p hp
  cases hresult : y (.atBit data .lowFirst p) with
  | ok b r =>
    have hconsumed := hy hresult
    rw [hresult] at hx
    obtain ⟨a, q, hq, rfl, hx, hab⟩ := hx
    simp only [Inflater.reading, reading, hresult, hx]
    refine ⟨a, _, rfl, hab, ⟨⟨q, hq, rfl, rfl⟩, hout, hsize⟩, Nat.le_refl _, ?_⟩
    rw [BitReader.remaining_atBit data .lowFirst hp, BitReader.remaining_atBit data .lowFirst hq]
      at hconsumed
    simp only [roundLimit, remaining, WordReader.remaining_atBit data .lowFirst hp,
      WordReader.remaining_atBit data .lowFirst hq]
    omega
  | error e r =>
    rw [hresult] at hx
    obtain ⟨q, hq, rfl, hx⟩ := hx
    simp only [Inflater.reading, reading, hresult, hx]
    exact ⟨_, rfl, ⟨⟨q, hq, rfl, rfl⟩, hout, hsize⟩, Nat.le_add_right _ _⟩

theorem refines_bits {n : Nat} (hn : n ≤ 32) :
    Refines data buffer n (fun v m => v = m ∧ m < 2 ^ n) (bits n)
      (Inflater.reading (BitReader.take n)) := by
  unfold bits
  rw [expect_of hn, pure_bind, ← bind_pure (Inflater.reading (BitReader.take n))]
  refine (refines_reading (mirrors_take n) fun r v r' h => ?_).bind fun v m hv => .pure hv
  exact Nat.le_of_eq (BitReader.remaining_take h)

theorem refines_takeBytes (n : Nat) :
    Refines data buffer 0 (fun a b => a = b ∧ a.size = n) (reading (WordReader.takeBytes n))
      (Inflater.reading (BitReader.takeBytes n)) :=
  refines_reading (mirrors_takeBytes n) fun _ _ _ h => BitReader.remaining_takeBytes_le h

theorem refines_decode {code : PrefixCode} {table : CodeTable} (h : table.IsTableOf code) :
    Refines data buffer 1 Eq (reading table.decode) (Inflater.reading code.decode) :=
  refines_reading (mirrors_decode h) fun _ _ _ h => PrefixCode.remaining_decode_lt h

/-! ### Loops -/

section

variable {step : γ → InflatingInPlace (α ⊕ γ)} {c c' : γ} {a : α} {s s' : InPlaceInflater}

/-- A step that tells by its value whether it is the last one, and one that tells by whether there
    is a value. -/
def SameEnd (V : α → β → Prop) : α ⊕ γ → Option β → Prop
  | .inl a, some b => V a b
  | .inr _, none => True
  | _, _ => False

theorem repeatRounds_of_inl (h : step c s = .ok (.inl a) s') (hlt : s'.remaining < s.remaining) :
    repeatRounds step c s = .ok a { s' with rounds := s'.rounds + 1 } := by
  rw [repeatRounds, h]
  dsimp only
  rw [if_pos hlt]

theorem repeatRounds_of_inr (h : step c s = .ok (.inr c') s') (hlt : s'.remaining < s.remaining) :
    repeatRounds step c s = repeatRounds step c' { s' with rounds := s'.rounds + 1 } := by
  rw [repeatRounds, h]
  dsimp only
  rw [if_pos hlt]

theorem repeatRounds_of_error {e : Stop} (h : step c s = .error e s') :
    repeatRounds step c s = .error e s' := by
  rw [repeatRounds, h]

end

/-- **Repeated steps.**  If the step in place and the other one end at the same time, so do the
    loops.  By induction on the rounds of the other loop. -/
theorem refines_loop {V : α → β → Prop} {step : γ → InflatingInPlace (α ⊕ γ)}
    {x : Inflating (Option β)} (hx : Strict Inflater.remaining x)
    (hstep : ∀ c, Refines data buffer 1 (SameEnd V) (step c) x) (c : γ) :
    Refines data buffer 0 V (repeatRounds step c) (loop x hx) := by
  intro s t hs
  fun_induction loop x hx t generalizing s c with
  | case1 t b t' hy =>
    have hround := hstep c hs
    rw [hy] at hround
    obtain ⟨a | c', s', hstep', hab, hs', hlater⟩ := hround
    · rw [repeatRounds_of_inl hstep' hlater.remaining_lt]
      exact ⟨a, _, rfl, hab, hs'.withRounds _, hlater.round⟩
    · exact hab.elim
  | case2 t t' hy ih =>
    have hround := hstep c hs
    rw [hy] at hround
    obtain ⟨a | c', s', hstep', hab, hs', hlater⟩ := hround
    · exact hab.elim
    · rw [repeatRounds_of_inr hstep' hlater.remaining_lt]
      exact (ih c' (hs'.withRounds _)).of_later hlater.round
  | case3 t e t' hy =>
    have hround := hstep c hs
    rw [hy] at hround
    obtain ⟨s', hstep', hs', hrounds⟩ := hround
    rw [repeatRounds_of_error hstep']
    exact ⟨s', rfl, hs', hrounds⟩

/-- **A single round**, of a loop that is no loop on the other side. -/
theorem refines_round {U : α ⊕ γ → β → Prop} {W : α → δ → Prop}
    {step : γ → InflatingInPlace (α ⊕ γ)} {y : Inflating β} {g : β → Inflating δ} {c : γ}
    (hstep : Refines data buffer 1 U (step c) y)
    (hlast : ∀ a b, U (.inl a) b → Refines data buffer 0 W (Pure.pure a) (g b))
    (hnext : ∀ c' b, U (.inr c') b → Refines data buffer 0 W (repeatRounds step c') (g b)) :
    Refines data buffer 0 W (repeatRounds step c) (y >>= g) := by
  intro s t hs
  have hround := hstep hs
  cases hy : y t with
  | ok b t' =>
    rw [hy] at hround
    rw [bind_of_ok hy]
    obtain ⟨a | c', s', hstep', hab, hs', hlater⟩ := hround
    · rw [repeatRounds_of_inl hstep' hlater.remaining_lt]
      exact (hlast a b hab (hs'.withRounds _)).of_later hlater.round
    · rw [repeatRounds_of_inr hstep' hlater.remaining_lt]
      exact (hnext c' b hab (hs'.withRounds _)).of_later hlater.round
  | error e t' =>
    rw [hy] at hround
    rw [bind_of_error hy]
    obtain ⟨s', hstep', hs', hrounds⟩ := hround
    rw [repeatRounds_of_error hstep']
    exact ⟨s', rfl, hs', hrounds⟩

end InPlaceInflater

end Apfs
