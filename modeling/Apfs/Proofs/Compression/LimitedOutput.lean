import Apfs.Compression.Inflate
import Apfs.Proofs.Compression.Expansion

namespace Apfs.Deflate

/-!
# Decoding into an output of limited size

The output is cut to the bytes for which there is room.  Decoding a part of a stream reaches its end
if there is room for all that the part starts, and otherwise stops with the output full; in both
cases the output is what the part stands for, cut to its size.

* `cut` — the bytes of an expansion for which there is room.
* `state` — the state of decoding after a number of bits, with the output cut to its size.
* `Decodes` — what decoding a part of a stream does; there is a rule for each way in which decoders
  are built.
* `loop_of_none`, `loop_of_some`, `loop_induction` — steps that are repeated.
-/

/-! ### Output that is cut to its size -/

/-- The first `n` of some bytes, as an output. -/
def cut (n : Nat) (l : List UInt8) : ByteArray := ⟨(l.take n).toArray⟩

theorem size_cut (n : Nat) (l : List UInt8) : (cut n l).size = min n l.length := by
  show (l.take n).toArray.size = _
  rw [List.size_toArray, List.length_take]

theorem cut_of_length_le {n : Nat} {l : List UInt8} (h : l.length ≤ n) :
    cut n l = ⟨l.toArray⟩ := by
  unfold cut
  rw [List.take_of_length_le h]

/-- The first bytes of a byte string. -/
theorem cut_toList (n : Nat) (bytes : ByteArray) :
    cut n bytes.data.toList = bytes.extract 0 n := by
  have htake := toList_extract bytes 0 n
  rw [Nat.zero_add, List.drop_zero] at htake
  apply ByteArray.ext
  apply Array.toList_inj.mp
  exact htake.symm

/-- Bytes for which there is no room change nothing. -/
theorem cut_append_of_le {n : Nat} {l : List UInt8} (h : n ≤ l.length) (m : List UInt8) :
    cut n (l ++ m) = cut n l := by
  unfold cut
  rw [List.take_append_of_le_length h]

/-- A byte for which there is room is appended. -/
theorem push_cut {n : Nat} {l : List UInt8} (h : l.length < n) (b : UInt8) :
    (cut n l).push b = cut n (l ++ [b]) := by
  have hlen : (l ++ [b]).length ≤ n := by
    rw [List.length_append, List.length_singleton]
    exact h
  rw [cut_of_length_le (Nat.le_of_lt h), cut_of_length_le hlen, ByteArray.push, List.push_toArray]

/-- Bytes are appended as far as there is room. -/
theorem cut_append (n : Nat) (l m : List UInt8) :
    cut n l ++ cut (n - (cut n l).size) m = cut n (l ++ m) := by
  have hroom : n - min n l.length = n - l.length := by omega
  apply ByteArray.ext
  rw [size_cut, hroom, ByteArray.data_append]
  unfold cut
  rw [List.append_toArray, List.take_append]

/-! ### Copies -/

/-- A shorter copy is the start of a longer one. -/
theorem take_repeated (l : List UInt8) (distance length n : Nat) :
    (repeated l distance length).take n = repeated l distance (min n length) := by
  rw [repeated, ← List.map_take, List.take_range, repeated]

/-- The first byte of a copy becomes the last byte that is there for the rest of it. -/
theorem repeated_succ {l : List UInt8} {distance : Nat} (hpos : 1 ≤ distance)
    (hle : distance ≤ l.length) (length : Nat) :
    repeated l distance (length + 1)
      = l.getD (l.length - distance) 0 ::
        repeated (l ++ [l.getD (l.length - distance) 0]) distance length := by
  unfold repeated
  rw [List.range_succ_eq_map, List.map_cons, List.map_map, Nat.zero_mod, Nat.add_zero]
  congr 1
  apply List.map_congr_left
  intro i _
  rw [List.length_append, List.length_singleton]
  show l.getD (l.length - distance + (i + 1) % distance) 0 = _
  have hmod : i % distance < distance := Nat.mod_lt i hpos
  have hnext : (i + 1) % distance = (i % distance + 1) % distance := (Nat.mod_add_mod ..).symm
  by_cases hlast : i % distance + 1 = distance
  · -- The copy starts again with its first byte, which is now the last one that is there.
    have hindex : l.length + 1 - distance + i % distance = l.length := by omega
    rw [hnext, hlast, Nat.mod_self, Nat.add_zero, hindex,
      List.getD_eq_getElem?_getD (l := l ++ _), List.getElem?_concat_length, Option.getD_some]
  · have hindex : l.length + 1 - distance + i % distance
        = l.length - distance + (i % distance + 1) := by omega
    rw [hnext, Nat.mod_eq_of_lt (by omega), hindex, List.getD_eq_getElem?_getD,
      List.getD_eq_getElem?_getD, List.getElem?_append_left (by omega)]

/-- **Copying byte by byte** repeats the last bytes that are there. -/
theorem copyBack_eq {l : List UInt8} {distance : Nat} (hpos : 1 ≤ distance)
    (hle : distance ≤ l.length) (count : Nat) :
    Bytes.copyBack ⟨l.toArray⟩ distance count = ⟨(l ++ repeated l distance count).toArray⟩ := by
  induction count generalizing l with
  | zero =>
    rw [repeated, List.range_zero, List.map_nil, List.append_nil]
    rfl
  | succ count ih =>
    have hget : Bytes.get ⟨l.toArray⟩ ((⟨l.toArray⟩ : ByteArray).size - distance)
        = l.getD (l.length - distance) 0 := by
      have hsize : (⟨l.toArray⟩ : ByteArray).size = l.length := List.size_toArray
      have hlt : l.length - distance < l.length := by omega
      rw [hsize, Bytes.get, dif_pos (by rw [hsize]; exact hlt), List.getD_eq_getElem?_getD,
        List.getElem?_eq_getElem hlt, Option.getD_some]
      rfl
    have hpush (x : UInt8) : (⟨l.toArray⟩ : ByteArray).push x = ⟨(l ++ [x]).toArray⟩ := by
      rw [ByteArray.push, List.push_toArray]
    -- The byte that was just copied counts among those that the rest may repeat.
    rw [Bytes.copyBack, hget, hpush, ih (by rw [List.length_append]; omega),
      repeated_succ hpos hle, List.append_assoc, List.singleton_append]

/-- A copy is cut off where there is no more room. -/
theorem copyBack_cut {n : Nat} {l : List UInt8} {distance : Nat} (h : l.length < n)
    (hpos : 1 ≤ distance) (hle : distance ≤ l.length) (length : Nat) :
    Bytes.copyBack (cut n l) distance (min length (n - (cut n l).size))
      = cut n (l ++ repeated l distance length) := by
  have hsize : (cut n l).size = l.length := by
    rw [size_cut]
    omega
  have htake : l.take n = l := List.take_of_length_le (Nat.le_of_lt h)
  rw [hsize, cut_of_length_le (Nat.le_of_lt h), copyBack_eq hpos hle]
  unfold cut
  rw [List.take_append, htake, take_repeated, Nat.min_comm]

/-! ### The state of decoding -/

/-- The state of decoding `data` after `p` bits, with the output cut to `n` bytes. -/
def state (n : Nat) (data : ByteArray) (p : Nat) (l : List UInt8) : Inflater :=
  ⟨.atBit data .lowFirst p, cut n l⟩

/-- What was read is passed on, and the output is left alone. -/
theorem reading_bind_of_ok {α β : Type} {x : BitReading α} {n : Nat} {data : ByteArray} {p : Nat}
    {l : List UInt8} {a : α} {r : BitReader} (h : x (.atBit data .lowFirst p) = .ok a r)
    (f : α → Inflating β) :
    (Inflater.reading x >>= f) (state n data p l) = f a ⟨r, cut n l⟩ := by
  have hinput : (state n data p l).input = .atBit data .lowFirst p := rfl
  simp only [bind, EStateM.bind, Inflater.reading]
  rw [hinput, h]
  rfl

/-- Nothing comes after a failure to read. -/
theorem reading_bind_of_error {α β : Type} {x : BitReading α} {n : Nat} {data : ByteArray}
    {p : Nat} {l : List UInt8} {e : Error} {r : BitReader}
    (h : x (.atBit data .lowFirst p) = .error e r) (f : α → Inflating β) :
    (Inflater.reading x >>= f) (state n data p l) = .error e ⟨r, cut n l⟩ := by
  have hinput : (state n data p l).input = .atBit data .lowFirst p := rfl
  simp only [bind, EStateM.bind, Inflater.reading]
  rw [hinput, h]
  rfl

/-- **Reading in the midst of decoding** leaves the output alone. -/
theorem reading_bind_eq_ok_iff {α β : Type} {x : BitReading α} {G : Grammar α}
    (hx : Reads .lowFirst x G) {f : α → Inflating β} {n : Nat} {data : ByteArray} {p : Nat}
    {l : List UInt8} (hp : p ≤ 8 * data.size) {b : β} {s' : Inflater} :
    (Inflater.reading x >>= f) (state n data p l) = .ok b s' ↔
      ∃ a w, G p a w ∧ w <+: (BitOrder.lowFirst.stream data).drop p ∧
        f a (state n data (p + w.length) l) = .ok b s' := by
  constructor
  · intro h
    cases hresult : x (.atBit data .lowFirst p) with
    | ok a r =>
      rw [reading_bind_of_ok hresult] at h
      obtain ⟨w, hw, hcomes, rfl⟩ := (hx hp a r).mp hresult
      exact ⟨a, w, hw, hcomes, h⟩
    | error e r =>
      rw [reading_bind_of_error hresult] at h
      cases h
  · rintro ⟨a, w, hw, hcomes, h⟩
    rw [reading_bind_of_ok ((hx hp a _).mpr ⟨w, hw, hcomes, rfl⟩)]
    exact h

/-! ### Parts of a stream -/

/-- What decoding a part of a stream into `n` bytes does.  `Bits` tells which bits stand for a
    part, `expand` which bytes there are after it, and `Fits` whether there is enough room, given
    the number of bytes before it, for its end to be reached. -/
structure Decodes {γ : Type} (n : Nat) (x : Inflating BlockEnd) (Bits : Grammar γ)
    (expand : List UInt8 → γ → Option (List UInt8)) (Fits : Nat → γ → Prop) : Prop where
  /-- The end is reached exactly if the bits of a part come next for which there is room. -/
  reached_iff : ∀ {data p l s'}, p ≤ 8 * data.size →
    (x (state n data p l) = .ok .reached s' ↔ ∃ c w l', Bits p c w ∧
      w <+: (BitOrder.lowFirst.stream data).drop p ∧ expand l c = some l' ∧ Fits l.length c ∧
      s' = state n data (p + w.length) l')
  /-- Where decoding ends too early, the output is full. -/
  outputFull : ∀ {data p l s'}, p ≤ 8 * data.size → x (state n data p l) = .ok .outputFull s' →
    ∃ q l', n ≤ l'.length ∧ s' = state n data q l'
  /-- A part for which there is no room is decoded as far as there is room. -/
  of_not_fits : ∀ {data p l c w l'}, p ≤ 8 * data.size → Bits p c w →
    w <+: (BitOrder.lowFirst.stream data).drop p → expand l c = some l' → ¬ Fits l.length c →
    ∃ q, x (state n data p l) = .ok .outputFull (state n data q l')

namespace Decodes

variable {γ δ : Type} {n : Nat} {x : Inflating BlockEnd} {Bits Bits' : Grammar γ}
  {expand : List UInt8 → γ → Option (List UInt8)} {Fits : Nat → γ → Prop}

/-- Only which bits stand for a part matters. -/
theorem congr (h : Decodes n x Bits expand Fits) (hBits : ∀ p c w, Bits p c w ↔ Bits' p c w) :
    Decodes n x Bits' expand Fits where
  reached_iff hp := by simp only [h.reached_iff hp, hBits]
  outputFull hp := h.outputFull hp
  of_not_fits hp hc := h.of_not_fits hp ((hBits ..).mpr hc)

/-- Nothing is decoded by a failure. -/
theorem throw (e : Error) :
    Decodes n (MonadExcept.throw e) (fun _ _ _ => False) expand Fits where
  reached_iff hp := by
    constructor
    · intro h
      cases h
    · rintro ⟨c, w, l', h, -⟩
      exact h.elim
  outputFull hp h := by cases h
  of_not_fits hp h := h.elim

/-- A part may be given another name. -/
theorem embed {expand' : List UInt8 → δ → Option (List UInt8)} {Fits' : Nat → δ → Prop}
    (h : Decodes n x Bits expand Fits) (f : γ → δ) (hexpand : ∀ l c, expand' l (f c) = expand l c)
    (hfits : ∀ m c, Fits' m (f c) ↔ Fits m c) :
    Decodes n x (fun p d w => ∃ c, d = f c ∧ Bits p c w) expand' Fits' where
  reached_iff {data p l s'} hp := by
    rw [h.reached_iff hp]
    constructor
    · rintro ⟨c, w, l', hc, hcomes, hl, hfit, hs⟩
      exact ⟨f c, w, l', ⟨c, rfl, hc⟩, hcomes, (hexpand ..).trans hl, (hfits ..).mpr hfit, hs⟩
    · rintro ⟨_, w, l', ⟨c, rfl, hc⟩, hcomes, hl, hfit, hs⟩
      exact ⟨c, w, l', hc, hcomes, (hexpand ..).symm.trans hl, (hfits ..).mp hfit, hs⟩
  outputFull hp := h.outputFull hp
  of_not_fits hp hd hcomes hl hfit := by
    obtain ⟨c, rfl, hc⟩ := hd
    rw [hfits] at hfit
    exact h.of_not_fits hp hc hcomes ((hexpand ..).symm.trans hl) hfit

/-- Parts may be of several kinds that are decoded in the same way. -/
theorem any {ι : Type} {P : ι → Prop} {Bits : ι → Grammar γ} (hP : ∃ i, P i)
    (h : ∀ i, P i → Decodes n x (Bits i) expand Fits) :
    Decodes n x (fun p c w => ∃ i, P i ∧ Bits i p c w) expand Fits where
  reached_iff {data p l s'} hp := by
    constructor
    · intro hs
      obtain ⟨i, hi⟩ := hP
      obtain ⟨c, w, l', hc, hrest⟩ := ((h i hi).reached_iff hp).mp hs
      exact ⟨c, w, l', ⟨i, hi, hc⟩, hrest⟩
    · rintro ⟨c, w, l', ⟨i, hi, hc⟩, hrest⟩
      exact ((h i hi).reached_iff hp).mpr ⟨c, w, l', hc, hrest⟩
  outputFull hp hs := by
    obtain ⟨i, hi⟩ := hP
    exact (h i hi).outputFull hp hs
  of_not_fits hp hc := by
    obtain ⟨i, hi, hc⟩ := hc
    exact (h i hi).of_not_fits hp hc

/-- What is read before a part may tell how to decode it. -/
theorem reading_bind {α : Type} {x : BitReading α} {G : Grammar α} {f : α → Inflating BlockEnd}
    {Bits : α → List Bool → Grammar γ} (hx : Reads .lowFirst x G)
    (h : ∀ a p u, G p a u → Decodes n (f a) (Bits a u) expand Fits) :
    Decodes n (Inflater.reading x >>= f)
      (fun p c w => ∃ a u v, G p a u ∧ Bits a u (p + u.length) c v ∧ w = u ++ v) expand Fits where
  reached_iff {data p l s'} hp := by
    rw [reading_bind_eq_ok_iff hx hp]
    constructor
    · rintro ⟨a, u, hu, hcomes, hs⟩
      obtain ⟨c, v, l', hc, hcomes', hl, hfit, rfl⟩ :=
        ((h a p u hu).reached_iff (le_of_isPrefix hp hcomes)).mp hs
      refine ⟨c, u ++ v, l', ⟨a, u, v, hu, hc, rfl⟩,
        append_prefix_drop.mpr ⟨hcomes, hcomes'⟩, hl, hfit, ?_⟩
      rw [List.length_append, Nat.add_assoc]
    · rintro ⟨c, _, l', ⟨a, u, v, hu, hc, rfl⟩, hcomes, hl, hfit, rfl⟩
      obtain ⟨hcomes, hcomes'⟩ := append_prefix_drop.mp hcomes
      refine ⟨a, u, hu, hcomes, ((h a p u hu).reached_iff (le_of_isPrefix hp hcomes)).mpr
        ⟨c, v, l', hc, hcomes', hl, hfit, ?_⟩⟩
      rw [List.length_append, Nat.add_assoc]
  outputFull {data p l s'} hp hs := by
    obtain ⟨a, u, hu, hcomes, hs⟩ := (reading_bind_eq_ok_iff hx hp).mp hs
    exact (h a p u hu).outputFull (le_of_isPrefix hp hcomes) hs
  of_not_fits {data p l c w l'} hp hc hcomes hl hfit := by
    obtain ⟨a, u, v, hu, hc, rfl⟩ := hc
    obtain ⟨hcomes, hcomes'⟩ := append_prefix_drop.mp hcomes
    obtain ⟨q, hs⟩ := (h a p u hu).of_not_fits (le_of_isPrefix hp hcomes) hc hcomes' hl hfit
    exact ⟨q, (reading_bind_eq_ok_iff hx hp).mpr ⟨a, u, hu, hcomes, hs⟩⟩

end Decodes

/-! ### Repeated steps -/

section Repeated

variable {σ α : Type} {left : σ → Nat} {x : EStateM Error σ (Option α)} (hx : Strict left x)
  {s s' : σ} {a : α}

/-- A step that gives no result is followed by others. -/
theorem loop_of_none (h : x s = .ok none s') : loop x hx s = loop x hx s' := by
  rw [loop]
  split
  next hs =>
    rw [h] at hs
    cases hs
  next hs =>
    rw [h] at hs
    cases hs
    rfl
  next hs =>
    rw [h] at hs
    cases hs

/-- A step that gives a result is the last one. -/
theorem loop_of_some (h : x s = .ok (some a) s') : loop x hx s = .ok a s' := by
  rw [loop]
  split
  next hs =>
    rw [h] at hs
    cases hs
    rfl
  next hs =>
    rw [h] at hs
    cases hs
  next hs =>
    rw [h] at hs
    cases hs

/-- What holds after the last round and is carried back by each other round holds of all rounds. -/
theorem loop_induction {P : σ → α → σ → Prop} (last : ∀ s a s', x s = .ok (some a) s' → P s a s')
    (next : ∀ s s₁ a s', x s = .ok none s₁ → P s₁ a s' → P s a s')
    (h : loop x hx s = .ok a s') : P s a s' := by
  fun_induction loop x hx s with
  | case1 s b s₁ hs =>
    injection h with hb hs₁
    subst hb hs₁
    exact last s b s₁ hs
  | case2 s s₁ hs ih => exact next s s₁ a s' hs (ih h)
  | case3 => cases h

end Repeated

end Apfs.Deflate
