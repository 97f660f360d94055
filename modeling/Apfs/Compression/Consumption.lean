import Apfs.Error

namespace Apfs

/-!
# Steps that consume input

Decoding loops end because every round consumes some of the input.  For a step on states of which
`left` tells how much input is left:

* `Forward left x` — when `x` succeeds, no more is left than before.
* `Strict left x` — when `x` succeeds, less is left than before.

Both are kept by sequencing, and one strict step makes a sequence of forward ones strict.

* `loop` — a strict step repeated until it gives a result.
-/

variable {σ α β : Type} {left : σ → Nat}

/-- When the step succeeds, no more input is left than before. -/
def Forward (left : σ → Nat) (x : EStateM Error σ α) : Prop :=
  ∀ ⦃s a s'⦄, x s = .ok a s' → left s' ≤ left s

/-- When the step succeeds, less input is left than before. -/
def Strict (left : σ → Nat) (x : EStateM Error σ α) : Prop :=
  ∀ ⦃s a s'⦄, x s = .ok a s' → left s' < left s

theorem Strict.forward {x : EStateM Error σ α} (hx : Strict left x) : Forward left x :=
  fun _ _ _ h => Nat.le_of_lt (hx h)

namespace Forward

theorem pure (a : α) : Forward left (Pure.pure a : EStateM Error σ α) := by
  intro s b s' h
  injection h with _ h
  exact Nat.le_of_eq (congrArg left h.symm)

theorem throw (e : Error) : Forward left (MonadExcept.throw e : EStateM Error σ α) := by
  intro s b s' h
  contradiction

theorem get : Forward left (MonadState.get : EStateM Error σ σ) := by
  intro s b s' h
  injection h with _ h
  exact Nat.le_of_eq (congrArg left h.symm)

theorem update {f : σ → σ} (hf : ∀ s, left (f s) ≤ left s) :
    Forward left (modify f : EStateM Error σ Unit) := by
  intro s b s' h
  injection h with _ h
  exact h ▸ hf s

theorem bind {x : EStateM Error σ α} {f : α → EStateM Error σ β} (hx : Forward left x)
    (hf : ∀ a, Forward left (f a)) : Forward left (x >>= f) := by
  intro s b s' h
  simp only [Bind.bind, EStateM.bind] at h
  split at h
  next hs => exact Nat.le_trans (hf _ h) (hx hs)
  next => contradiction

theorem ofExcept (x : Except Error α) :
    Forward left (MonadExcept.ofExcept x : EStateM Error σ α) := by
  cases x with
  | ok a => exact .pure a
  | error e => exact .throw e

theorem mapM {f : α → EStateM Error σ β} (hf : ∀ a, Forward left (f a)) (l : List α) :
    Forward left (l.mapM f) := by
  rw [← List.mapM'_eq_mapM]
  induction l with
  | nil => exact .pure _
  | cons a l ih => exact (hf a).bind fun _ => ih.bind fun _ => .pure _

end Forward

namespace Strict

theorem bind {x : EStateM Error σ α} {f : α → EStateM Error σ β} (hx : Strict left x)
    (hf : ∀ a, Forward left (f a)) : Strict left (x >>= f) := by
  intro s b s' h
  simp only [Bind.bind, EStateM.bind] at h
  split at h
  next hs => exact Nat.lt_of_le_of_lt (hf _ h) (hx hs)
  next => contradiction

end Strict

/-- Repeats a step until it gives a result or fails.  Every round leaves less input. -/
def loop (x : EStateM Error σ (Option α)) (hx : Strict left x) (s : σ) :
    EStateM.Result Error σ α :=
  match _h : x s with
  | .ok (some a) s' => .ok a s'
  | .ok none s' => loop x hx s'
  | .error e s' => .error e s'
termination_by left s
decreasing_by exact hx _h

/-- A loop consumes what its rounds consume. -/
theorem strict_loop {x : EStateM Error σ (Option α)} (hx : Strict left x) :
    Strict left (loop x hx) := by
  intro s a s' h
  fun_induction loop x hx s with
  | case1 s b s₁ hs => injection h with _ h; exact h ▸ hx hs
  | case2 s s₁ hs ih => exact Nat.lt_trans (ih h) (hx hs)
  | case3 => contradiction

end Apfs
