import Apfs.Proofs.Compression.WordReader

namespace Apfs

/-!
# The same reading in two ways

A reading with a word as its buffer and one with a number as its buffer may do the same.  The checks
of the former are then all passed.

* `Mirrors` — one reading does at every bit what another one does; there is a rule for each way in
  which readings are built.
* `mirrors_take`, `mirrors_takeBytes` — the requests of both readers.
-/

variable {α β γ δ : Type}

/-- At every bit `x` gives what `y` gives there, up to the relation `V` between their values, and
    leads to the same bit.  If `y` fails, `x` fails with the same error. -/
def Mirrors (V : α → β → Prop) (x : WordReading α) (y : BitReading β) : Prop :=
  ∀ ⦃data order p⦄, p ≤ 8 * data.size →
    match y (.atBit data order p) with
    | .ok b r => ∃ a q, q ≤ 8 * data.size ∧ r = .atBit data order q ∧
      x (.atBit data order p) = .ok a (.atBit data order q) ∧ V a b
    | .error e r => ∃ q, q ≤ 8 * data.size ∧ r = .atBit data order q ∧
      x (.atBit data order p) = .error (.failed e) (.atBit data order q)

namespace Mirrors

variable {V : α → β → Prop} {W : γ → δ → Prop} {x : WordReading α} {y : BitReading β}

theorem pure {a : α} {b : β} (h : V a b) : Mirrors V (Pure.pure a) (Pure.pure b) :=
  fun _ _ p hp => ⟨a, p, hp, rfl, rfl, h⟩

theorem fail (e : Error) : Mirrors V (Apfs.fail e) (throw e) :=
  fun _ _ p hp => ⟨p, hp, rfl, rfl⟩

/-- **Sequencing.** -/
theorem bind {f : α → WordReading γ} {g : β → BitReading δ} (h : Mirrors V x y)
    (hf : ∀ a b, V a b → Mirrors W (f a) (g b)) : Mirrors W (x >>= f) (y >>= g) := by
  intro data order p hp
  have hx := @h data order p hp
  cases hy : y (.atBit data order p) with
  | ok b r =>
    rw [hy] at hx
    obtain ⟨a, q, hq, rfl, hx, hab⟩ := hx
    rw [bind_of_ok hy, bind_of_ok hx]
    exact hf a b hab hq
  | error e r =>
    rw [hy] at hx
    obtain ⟨q, hq, rfl, hx⟩ := hx
    rw [bind_of_error hy]
    exact ⟨q, hq, rfl, bind_of_error hx f⟩

end Mirrors

/-- Bits are read as the same number. -/
theorem mirrors_take (n : Nat) :
    Mirrors (fun v m => v.toNat = m ∧ m < 2 ^ n) (WordReader.take n) (BitReader.take n) := by
  intro data order p hp
  by_cases hwide : 32 < n
  · have hrefused : BitReader.take n (.atBit data order p)
        = .error (.argument .bitCount) (.atBit data order p) := by
      unfold BitReader.take
      rw [if_pos hwide]
    rw [hrefused]
    exact ⟨p, hp, rfl, WordReader.take_of_lt hwide _⟩
  · by_cases hle : p + n ≤ 8 * data.size
    · rw [BitReader.take_atBit data order (by omega) hle]
      have hlen : (((order.stream data).drop p).take n).length = n := by
        rw [List.length_take, List.length_drop, order.length_stream]
        omega
      refine ⟨_, p + n, hle, rfl, WordReader.take_atBit data order (by omega) hle, ?_, ?_⟩
      · exact WordReader.toNat_number order (by omega)
      · have hlt := order.number_lt (((order.stream data).drop p).take n)
        rwa [hlen] at hlt
    · rw [BitReader.take_atBit_of_lt data order (by omega) hp (by omega)]
      exact ⟨p, hp, rfl, WordReader.take_atBit_of_lt data order (by omega) hp (by omega)⟩

/-- Whole bytes are read alike. -/
theorem mirrors_takeBytes (n : Nat) :
    Mirrors (fun a b => a = b ∧ a.size = n) (WordReader.takeBytes n) (BitReader.takeBytes n) := by
  intro data order p hp
  by_cases hle : (p + 7) / 8 + n ≤ data.size
  · rw [BitReader.takeBytes_atBit data order hle]
    refine ⟨_, _, ?_, rfl, WordReader.takeBytes_atBit data order hle, rfl, ?_⟩
    · omega
    · rw [ByteArray.size_extract]
      omega
  · have hboundary : 8 * ((p + 7) / 8) ≤ 8 * data.size := by omega
    have hnext : (8 * ((p + 7) / 8) + 7) / 8 = (p + 7) / 8 := by omega
    have hrefused : BitReader.takeBytes n (.atBit data order p)
        = .error (.bitsExhausted (min (8 * n) BitReader.requestLimit)
            (8 * data.size - 8 * ((p + 7) / 8))) (.atBit data order (8 * ((p + 7) / 8))) := by
      unfold BitReader.takeBytes
      dsimp only
      rw [BitReader.skipToByte_atBit, BitReader.remaining_atBit data order hboundary]
      unfold BitReader.atBit BitReader.holding
      dsimp only
      rw [hnext, Bytes.slice?, if_neg hle]
    rw [hrefused]
    exact ⟨_, hboundary, rfl, WordReader.takeBytes_atBit_of_lt data order hp (by omega)⟩

end Apfs
