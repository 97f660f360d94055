import Apfs.Proofs.Bytes.Pieces

namespace Apfs.Bytes

/-!
# Folds over byte strings

A fold over a range of bytes takes them one after the other.  Stated for folds that may fail, and
for those that cannot, as the equations of a recursion on the offset.

* `foldlM_of_lt`, `foldlM_of_le` — a fold whose range is not empty, or is.
* `foldl_of_lt`, `foldl_of_le` — the same where nothing fails.
-/

variable {β : Type} {m : Type → Type} [Monad m] {data : ByteArray} {i stop : Nat}

/-- A fold over a range that is not empty starts with its first byte. -/
theorem foldlM_of_lt (f : β → UInt8 → m β) (s : β) (hi : i < stop) (hstop : stop ≤ data.size) :
    data.foldlM f s i stop = f s (get data i) >>= fun s => data.foldlM f s (i + 1) stop := by
  have hloop : stop - i = (stop - (i + 1)) + 1 := by omega
  simp only [ByteArray.foldlM, dif_pos hstop]
  rw [hloop, ByteArray.foldlM.loop, dif_pos hi, get_of_lt]

/-- A fold over an empty range does nothing. -/
theorem foldlM_of_le (f : β → UInt8 → m β) (s : β) (hi : stop ≤ i) (hstop : stop ≤ data.size) :
    data.foldlM f s i stop = pure s := by
  simp only [ByteArray.foldlM, dif_pos hstop]
  rw [ByteArray.foldlM.loop, dif_neg (by omega)]

theorem foldl_of_lt (f : β → UInt8 → β) (s : β) (hi : i < stop) (hstop : stop ≤ data.size) :
    data.foldl f s i stop = data.foldl f (f s (get data i)) (i + 1) stop :=
  foldlM_of_lt (m := Id) _ s hi hstop

theorem foldl_of_le (f : β → UInt8 → β) (s : β) (hi : stop ≤ i) (hstop : stop ≤ data.size) :
    data.foldl f s i stop = s :=
  foldlM_of_le (m := Id) _ s hi hstop

end Apfs.Bytes
