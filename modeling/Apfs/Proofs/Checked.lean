import Apfs.Checked

namespace Apfs

/-!
# Checked steps that go well

A computation with checked steps is compared with one that has none, which can only give a result or
an error.

* `attempt_bind`, `attempt_ite` — a computation without checked steps, taken apart.
* `SafelyGives` — a computation with checked steps gives what the one without them gives.
-/

variable {α β : Type}

theorem attempt_bind (x : Except Error α) (f : α → Except Error β) :
    (attempt (x >>= f) : Except Stop β) = attempt x >>= fun a => attempt (f a) := by
  cases x <;> rfl

theorem attempt_ite (c : Prop) [Decidable c] (x y : Except Error α) :
    (attempt (if c then x else y) : Except Stop α) = if c then attempt x else attempt y := by
  split <;> rfl

/-- A computation with checked steps ends without a breach, and gives what the one without them
    gives. -/
def SafelyGives (x : Except Stop α) (y : Except Error α) : Prop :=
  x = attempt y ∧ ∀ b, x ≠ .error (.breach b)

theorem safelyGives_of_eq {x : Except Stop α} {y : Except Error α} (h : x = attempt y) :
    SafelyGives x y := by
  refine ⟨h, fun b hbreach => ?_⟩
  rw [h] at hbreach
  cases y <;> cases hbreach

end Apfs
