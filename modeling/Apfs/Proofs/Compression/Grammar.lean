import Apfs.Checked
import Apfs.Proofs.Block.Steady
import Apfs.Proofs.Compression.BitStream

namespace Apfs

/-!
# Readers and the grammars that they read

A grammar tells which bits stand for a value.  A reader reads a grammar if it succeeds exactly where
the bits that come next stand for a value, gives that value, and reads no more than those bits.

* `Grammar` — which bits stand for a value at a place of a stream.
* `Reads` — a reader reads a grammar; there is a rule for each way in which readers are built.
* `reads_take`, `reads_takeBytes` — the grammars of the requests of a bit reader.
-/

variable {α β : Type}

/-- The bits that stand for a value, where the number of bits before them may matter. -/
abbrev Grammar (α : Type) := (p : Nat) → α → List Bool → Prop

/-- The reader succeeds exactly where the bits that come next belong to the grammar, and then
    gives what they stand for and has read them. -/
def Reads (order : BitOrder) (x : BitReading α) (G : Grammar α) : Prop :=
  ∀ ⦃data p⦄, p ≤ 8 * data.size → ∀ a r, x (.atBit data order p) = .ok a r ↔
    ∃ w, G p a w ∧ w <+: (order.stream data).drop p ∧ r = .atBit data order (p + w.length)

/-- Bits that come next are there. -/
theorem le_of_isPrefix {order : BitOrder} {data : ByteArray} {p : Nat} {w : List Bool}
    (hp : p ≤ 8 * data.size) (hw : w <+: (order.stream data).drop p) :
    p + w.length ≤ 8 * data.size := by
  have hlen := hw.length_le
  rw [List.length_drop, order.length_stream] at hlen
  omega

/-- Two runs of bits come next exactly if the first one does and then the second one. -/
theorem append_prefix_drop {l u v : List Bool} {p : Nat} :
    u ++ v <+: l.drop p ↔ u <+: l.drop p ∧ v <+: l.drop (p + u.length) := by
  rw [← List.drop_drop]
  constructor
  · rintro ⟨t, ht⟩
    rw [← ht, List.append_assoc, List.drop_left]
    exact ⟨List.prefix_append .., List.prefix_append ..⟩
  · rintro ⟨⟨t, ht⟩, hv⟩
    rw [← ht, List.drop_left] at hv
    rw [← ht]
    exact (List.prefix_append_right_inj u).mpr hv

namespace Reads

variable {order : BitOrder} {x : BitReading α} {G G' : Grammar α}

/-- Only what a grammar says matters. -/
theorem congr (h : Reads order x G) (hG : ∀ p a w, G p a w ↔ G' p a w) : Reads order x G' := by
  intro data p hp a r
  simp only [h hp, hG]

theorem pure (a : α) :
    Reads order (Pure.pure a : BitReading α) fun _ b w => b = a ∧ w = [] := by
  intro data p hp b r
  constructor
  · intro h
    cases h
    exact ⟨[], ⟨rfl, rfl⟩, List.nil_prefix, rfl⟩
  · rintro ⟨w, ⟨rfl, rfl⟩, -, rfl⟩
    rfl

theorem throw (e : Error) :
    Reads order (MonadExcept.throw e : BitReading α) fun _ _ _ => False := by
  intro data p hp b r
  constructor
  · intro h
    cases h
  · rintro ⟨w, h, -⟩
    exact h.elim

/-- **Sequencing.**  First come the bits of one grammar, then those of another, which may rely on
    what the first has given. -/
theorem bind_of {f : α → BitReading β} {H : α → Grammar β} (hx : Reads order x G)
    (hf : ∀ a p u, G p a u → Reads order (f a) (H a)) :
    Reads order (x >>= f)
      fun p b w => ∃ a u v, G p a u ∧ H a (p + u.length) b v ∧ w = u ++ v := by
  intro data p hp b r
  rw [bind_eq_ok_iff]
  constructor
  · rintro ⟨a, r₁, h, h'⟩
    obtain ⟨u, hu, hcomes, rfl⟩ := (hx hp a r₁).mp h
    obtain ⟨v, hv, hcomes', rfl⟩ := (hf a p u hu (le_of_isPrefix hp hcomes) b r).mp h'
    refine ⟨u ++ v, ⟨a, u, v, hu, hv, rfl⟩, append_prefix_drop.mpr ⟨hcomes, hcomes'⟩, ?_⟩
    rw [List.length_append, Nat.add_assoc]
  · rintro ⟨_, ⟨a, u, v, hu, hv, rfl⟩, hcomes, rfl⟩
    obtain ⟨hcomes, hcomes'⟩ := append_prefix_drop.mp hcomes
    refine ⟨a, _, (hx hp a _).mpr ⟨u, hu, hcomes, rfl⟩, ?_⟩
    refine (hf a p u hu (le_of_isPrefix hp hcomes) b _).mpr ⟨v, hv, hcomes', ?_⟩
    rw [List.length_append, Nat.add_assoc]

/-- What follows goes on behind the bits that are read. -/
theorem bind_eq {f : α → BitReading β} {data : ByteArray} {p : Nat} {a : α} {w : List Bool}
    (hx : Reads order x G) (hp : p ≤ 8 * data.size) (hw : G p a w)
    (hcomes : w <+: (order.stream data).drop p) :
    (x >>= f) (.atBit data order p) = f a (.atBit data order (p + w.length)) :=
  bind_of_ok ((hx hp a _).mpr ⟨w, hw, hcomes, rfl⟩) f

/-- Sequencing, where the second grammar is read after anything. -/
theorem bind {f : α → BitReading β} {H : α → Grammar β} (hx : Reads order x G)
    (hf : ∀ a, Reads order (f a) (H a)) :
    Reads order (x >>= f)
      fun p b w => ∃ a u v, G p a u ∧ H a (p + u.length) b v ∧ w = u ++ v :=
  hx.bind_of fun a _ _ _ => hf a

/-- A computation that does not read anything, before a reading. -/
theorem ofExcept {y : Except Error β} {f : β → BitReading α} {H : β → Grammar α}
    (h : ∀ b, y = .ok b → Reads order (f b) (H b)) :
    Reads order ((MonadExcept.ofExcept y : BitReading β) >>= f)
      fun p a w => ∃ b, y = .ok b ∧ H b p a w := by
  cases y with
  | ok b =>
    refine Reads.congr (h b rfl) fun p a w => ?_
    constructor
    · exact fun hw => ⟨b, rfl, hw⟩
    · rintro ⟨b', hb, hw⟩
      cases hb
      exact hw
  | error e =>
    intro data p hp a r
    constructor
    · intro h
      obtain ⟨_, _, hthrow, -⟩ := bind_eq_ok_iff.mp h
      cases hthrow
    · rintro ⟨w, ⟨b, hb, -⟩, -⟩
      cases hb

/-- A check before a reading. -/
theorem check {c : Prop} [Decidable c] {e : Error} {f : β → BitReading α}
    (h : ¬ c → Reads order x G) :
    Reads order (if c then (MonadExcept.throw e : BitReading β) >>= f else x)
      fun p a w => ¬ c ∧ G p a w := by
  by_cases hc : c
  · rw [if_pos hc]
    intro data p hp a r
    constructor
    · intro h
      obtain ⟨_, _, hthrow, -⟩ := bind_eq_ok_iff.mp h
      cases hthrow
    · rintro ⟨w, ⟨hnot, -⟩, -⟩
      exact absurd hc hnot
  · rw [if_neg hc]
    exact (h hc).congr fun p a w => by simp [hc]

end Reads

/-! ### The requests of a bit reader -/

/-- A number of a given width stands for itself. -/
theorem reads_take (order : BitOrder) {n : Nat} (hn : n ≤ 32) :
    Reads order (BitReader.take n) fun _ v w => w.length = n ∧ v = order.number w := by
  intro data p hp v r
  by_cases hlen : p + n ≤ 8 * data.size
  · rw [BitReader.take_atBit data order hn hlen]
    have hnext : (((order.stream data).drop p).take n).length = n := by
      rw [List.length_take, List.length_drop, order.length_stream]
      omega
    constructor
    · intro h
      cases h
      exact ⟨_, ⟨hnext, rfl⟩, List.take_prefix .., by rw [hnext]⟩
    · rintro ⟨w, ⟨hw, rfl⟩, hcomes, rfl⟩
      rw [List.prefix_iff_eq_take.mp hcomes, hw, hnext]
  · rw [BitReader.take_atBit_of_lt data order hn hp (by omega)]
    constructor
    · intro h
      cases h
    · rintro ⟨w, ⟨rfl, -⟩, hcomes, -⟩
      exact absurd (le_of_isPrefix hp hcomes) hlen

/-- A number of a given width, the least significant bit of which comes first. -/
theorem reads_take_lowFirst {n : Nat} (hn : n ≤ 32) :
    Reads .lowFirst (BitReader.take n) fun _ v w => v < 2 ^ n ∧ w = lowBits n v :=
  (reads_take .lowFirst hn).congr fun _ _ _ => eq_lowBits_iff

/-- Bytes of which some bits come first. -/
theorem bitsOf_prefix_iff (order : BitOrder) {a b : List UInt8} :
    order.bitsOf a <+: order.bitsOf b ↔ a <+: b := by
  constructor
  · intro h
    induction a generalizing b with
    | nil => exact List.nil_prefix
    | cons x a ih =>
      cases b with
      | nil =>
        have hlen := h.length_le
        rw [BitOrder.length_bitsOf, BitOrder.length_bitsOf, List.length_nil, List.length_cons]
          at hlen
        omega
      | cons y b =>
        obtain ⟨t, ht⟩ := h
        rw [BitOrder.bitsOf, BitOrder.bitsOf, List.flatMap_cons, List.flatMap_cons,
          List.append_assoc] at ht
        obtain ⟨hxy, hrest⟩ := List.append_inj ht (by rw [order.length_bits, order.length_bits])
        have heq : x = y := by
          have hnumber := congrArg order.number hxy
          rw [order.number_bits, order.number_bits] at hnumber
          exact UInt8.toNat_inj.mp hnumber
        rw [heq]
        exact (List.prefix_cons_inj y).mpr (ih ⟨t, hrest⟩)
  · rintro ⟨t, rfl⟩
    rw [BitOrder.bitsOf, BitOrder.bitsOf, List.flatMap_append]
    exact List.prefix_append ..

/-- The number of bits from a place up to the next byte boundary. -/
def padding (p : Nat) : Nat := 8 * ((p + 7) / 8) - p

/-- The bytes of a range, as a list. -/
theorem toList_extract (data : ByteArray) (k n : Nat) :
    (data.extract k (k + n)).data.toList = (data.data.toList.drop k).take n := by
  rw [ByteArray.data_extract, Array.toList_extract, List.extract_eq_take_drop,
    Nat.add_sub_cancel_left]

/-- Whole bytes stand after bits that lead to a byte boundary. -/
theorem reads_takeBytes (order : BitOrder) (n : Nat) :
    Reads order (BitReader.takeBytes n) fun p bytes w =>
      bytes.size = n ∧ ∃ pad, pad.length = padding p ∧ w = pad ++ order.stream bytes := by
  intro data p hp bytes r
  have hboundary : p + padding p = 8 * ((p + 7) / 8) := by
    unfold padding
    omega
  by_cases hlen : (p + 7) / 8 + n ≤ data.size
  · rw [BitReader.takeBytes_atBit data order hlen]
    have hsize : (data.extract ((p + 7) / 8) ((p + 7) / 8 + n)).size = n := by
      rw [ByteArray.size_extract]
      omega
    constructor
    · intro h
      cases h
      have hpad : (((order.stream data).drop p).take (padding p)).length = padding p := by
        rw [List.length_take, List.length_drop, order.length_stream]
        omega
      refine ⟨_, ⟨hsize, _, hpad, rfl⟩, append_prefix_drop.mpr ⟨List.take_prefix .., ?_⟩, ?_⟩
      · rw [hpad, hboundary, drop_stream, BitOrder.stream, bitsOf_prefix_iff, toList_extract]
        exact List.take_prefix ..
      · rw [List.length_append, hpad, order.length_stream, hsize, ← Nat.add_assoc, hboundary,
          Nat.mul_add]
    · rintro ⟨w, ⟨hbytes, pad, hpad, rfl⟩, hcomes, rfl⟩
      obtain ⟨-, hcomes⟩ := append_prefix_drop.mp hcomes
      rw [hpad, hboundary, drop_stream, BitOrder.stream, bitsOf_prefix_iff] at hcomes
      have heq : data.extract ((p + 7) / 8) ((p + 7) / 8 + n) = bytes := by
        apply ByteArray.ext
        apply Array.toList_inj.mp
        rw [toList_extract, List.prefix_iff_eq_take.mp hcomes]
        exact congrArg (fun n => List.take n _) hbytes.symm
      rw [heq, List.length_append, hpad, order.length_stream, hbytes, ← Nat.add_assoc, hboundary,
        Nat.mul_add]
  · obtain ⟨e, r', herror⟩ := BitReader.takeBytes_atBit_of_lt data order (Nat.lt_of_not_le hlen)
    rw [herror]
    constructor
    · intro h
      cases h
    · rintro ⟨w, ⟨hbytes, pad, hpad, rfl⟩, hcomes, -⟩
      have hle := le_of_isPrefix hp hcomes
      rw [List.length_append, hpad, order.length_stream, hbytes] at hle
      omega

end Apfs
