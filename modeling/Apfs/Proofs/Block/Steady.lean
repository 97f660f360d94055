import Apfs.Block.Reader
import Mathlib

namespace Apfs

/-!
# Steps whose answers do not change

Blocks of a container never change once they are written, so a reading gives the same whenever it
is made, although a cache beside it changes.  This file says so for arbitrary steps on a state.

* `outcome`, `after` — what a step gives, and the state that it leaves behind.
* `Agree R x y` — started in states related by `R`, the steps `x` and `y` give the same and leave
  related states.
* `Steady Valid x` — in all valid states `x` gives the same, and it leaves a valid state.
* `gather` — a step that notes down values beside its state, as a step that gives their list.
-/

variable {σ τ υ α β : Type}

/-! ### Outcomes -/

/-- What a step gives when it is started in the state `s`. -/
def outcome (x : EStateM Error σ α) (s : σ) : Except Error α :=
  match x s with
  | .ok a _ => .ok a
  | .error e _ => .error e

/-- The state that a step leaves behind when it is started in the state `s`. -/
def after (x : EStateM Error σ α) (s : σ) : σ :=
  match x s with
  | .ok _ s' => s'
  | .error _ s' => s'

/-- A result is a success exactly if its two halves say so. -/
theorem eq_ok_iff {x : EStateM Error σ α} {s s' : σ} {a : α} :
    x s = .ok a s' ↔ outcome x s = .ok a ∧ after x s = s' := by
  unfold outcome after
  cases x s <;> simp

@[simp] theorem outcome_pure (a : α) (s : σ) :
    outcome (pure a : EStateM Error σ α) s = .ok a := rfl

@[simp] theorem after_pure (a : α) (s : σ) :
    after (pure a : EStateM Error σ α) s = s := rfl

@[simp] theorem outcome_throw (e : Error) (s : σ) :
    outcome (throw e : EStateM Error σ α) s = .error e := rfl

@[simp] theorem after_throw (e : Error) (s : σ) :
    after (throw e : EStateM Error σ α) s = s := rfl

@[simp] theorem outcome_lift (x : Except Error α) (s : σ) : outcome (lift x) s = x := by
  cases x <;> rfl

@[simp] theorem after_lift (x : Except Error α) (s : σ) : after (lift x) s = s := by
  cases x <;> rfl

@[simp] theorem outcome_modify (f : σ → σ) (s : σ) :
    outcome (modify f : EStateM Error σ Unit) s = .ok () := rfl

@[simp] theorem after_modify (f : σ → σ) (s : σ) :
    after (modify f : EStateM Error σ Unit) s = f s := rfl

@[simp] theorem outcome_onFirst (x : EStateM Error σ α) (s : σ) (t : τ) :
    outcome (onFirst x) (s, t) = outcome x s := by
  simp only [outcome, onFirst]
  cases x s <;> rfl

@[simp] theorem after_onFirst (x : EStateM Error σ α) (s : σ) (t : τ) :
    after (onFirst x) (s, t) = (after x s, t) := by
  simp only [after, onFirst]
  cases x s <;> rfl

/-- What a sequence gives, once it is known what its first step gives. -/
theorem outcome_bind (x : EStateM Error σ α) (f : α → EStateM Error σ β) (s : σ) :
    outcome (x >>= f) s = match outcome x s with
      | .ok a => outcome (f a) (after x s)
      | .error e => .error e := by
  unfold outcome after
  simp only [bind, EStateM.bind]
  cases x s <;> rfl

/-- The state after a sequence, once it is known what its first step gives. -/
theorem after_bind (x : EStateM Error σ α) (f : α → EStateM Error σ β) (s : σ) :
    after (x >>= f) s = match outcome x s with
      | .ok a => after (f a) (after x s)
      | .error _ => after x s := by
  unfold outcome after
  simp only [bind, EStateM.bind]
  cases x s <;> rfl

/-- A sequence succeeds exactly if both of its steps do. -/
theorem bind_eq_ok_iff {x : EStateM Error σ α} {f : α → EStateM Error σ β} {s s' : σ} {b : β} :
    (x >>= f) s = .ok b s' ↔ ∃ a s₁, x s = .ok a s₁ ∧ f a s₁ = .ok b s' := by
  simp only [bind, EStateM.bind]
  cases x s with
  | ok a s₁ =>
    constructor
    · intro h
      exact ⟨a, s₁, rfl, h⟩
    · rintro ⟨a', s₁', h, h'⟩
      cases h
      exact h'
  | error e s₁ => simp

/-- A pure computation succeeds as a step exactly if it succeeds, and it leaves the state alone. -/
theorem lift_eq_ok_iff {x : Except Error α} {s s' : σ} {a : α} :
    lift x s = .ok a s' ↔ x = .ok a ∧ s' = s := by
  cases x with
  | ok b => simp only [lift, EStateM.Result.ok.injEq, Except.ok.injEq, eq_comm]
  | error e => simp [lift]

/-- A pure computation that succeeds is only there for its value. -/
theorem lift_bind_of_ok {x : Except Error α} {a : α} (h : x = .ok a) (f : α → EStateM Error σ β) :
    lift x >>= f = f a := by
  rw [h]
  rfl

/-! ### Agreement of two steps -/

/-- Started in related states, the two steps give the same and leave related states. -/
def Agree (R : σ → τ → Prop) (x : EStateM Error σ α) (y : EStateM Error τ α) : Prop :=
  ∀ ⦃s t⦄, R s t → outcome x s = outcome y t ∧ R (after x s) (after y t)

namespace Agree

variable {R : σ → τ → Prop}

theorem pure (a : α) :
    Agree R (Pure.pure a : EStateM Error σ α) (Pure.pure a : EStateM Error τ α) :=
  fun _ _ h => ⟨rfl, h⟩

theorem throw (e : Error) :
    Agree R (MonadExcept.throw e : EStateM Error σ α) (MonadExcept.throw e : EStateM Error τ α) :=
  fun _ _ h => ⟨rfl, h⟩

theorem lift (x : Except Error α) :
    Agree R (Apfs.lift x : EStateM Error σ α) (Apfs.lift x : EStateM Error τ α) := by
  intro s t h
  rw [outcome_lift, outcome_lift, after_lift, after_lift]
  exact ⟨rfl, h⟩

/-- Agreement is kept by sequencing. -/
theorem bind {x : EStateM Error σ α} {y : EStateM Error τ α} {f : α → EStateM Error σ β}
    {g : α → EStateM Error τ β} (hx : Agree R x y) (hf : ∀ a, Agree R (f a) (g a)) :
    Agree R (x >>= f) (y >>= g) := by
  intro s t h
  obtain ⟨hout, hafter⟩ := hx h
  rw [outcome_bind, outcome_bind, after_bind, after_bind, hout]
  cases outcome y t with
  | ok a => exact hf a hafter
  | error e => exact ⟨rfl, hafter⟩

end Agree

/-! ### Steady steps -/

/-- In all valid states the step gives the same, and it leaves a valid state. -/
def Steady (Valid : σ → Prop) (x : EStateM Error σ α) : Prop :=
  Agree (fun s t => Valid s ∧ Valid t) x x

namespace Steady

variable {Valid : σ → Prop} {x : EStateM Error σ α}

/-- A steady step leaves a valid state. -/
theorem valid_after (hx : Steady Valid x) {s : σ} (hs : Valid s) : Valid (after x s) :=
  (hx ⟨hs, hs⟩).2.1

/-- A steady step gives in one valid state what it gives in another. -/
theorem outcome_eq (hx : Steady Valid x) {s t : σ} (hs : Valid s) (ht : Valid t) :
    outcome x s = outcome x t :=
  (hx ⟨hs, ht⟩).1

/-- A step is steady if its outcome is the same in all valid states and it leaves valid ones. -/
theorem of_outcome {y : Except Error α}
    (h : ∀ s, Valid s → outcome x s = y ∧ Valid (after x s)) : Steady Valid x := by
  rintro s t ⟨hs, ht⟩
  obtain ⟨hxs, hvs⟩ := h s hs
  obtain ⟨hxt, hvt⟩ := h t ht
  exact ⟨hxs.trans hxt.symm, hvs, hvt⟩

/-- A step is steady if it agrees with another one, started in any state that goes with its own. -/
theorem of_agree {Valid' : τ → Prop} {y : EStateM Error τ α} (f : σ → τ)
    (hf : ∀ s, Valid s → Valid' (f s)) (h : Agree (fun s t => Valid s ∧ Valid' t) x y) :
    Steady Valid x := by
  rintro s t ⟨hs, ht⟩
  obtain ⟨hsout, hsvalid, -⟩ := h ⟨hs, hf s hs⟩
  obtain ⟨htout, htvalid, -⟩ := h ⟨ht, hf s hs⟩
  exact ⟨hsout.trans htout.symm, hsvalid, htvalid⟩

end Steady

/-! ### Gathering -/

/-- Adds a value to the list beside the state. -/
def note (a : α) : EStateM Error (σ × List α) Unit :=
  modify fun (s, noted) => (s, noted ++ [a])

/-- The values that a step notes down, as what it gives. -/
def gather (x : EStateM Error (σ × List α) Unit) : EStateM Error σ (List α) := fun s =>
  match x (s, []) with
  | .ok _ (s', noted) => .ok noted s'
  | .error e (s', _) => .error e s'

theorem gather_eq_ok_iff {x : EStateM Error (σ × List α) Unit} {s s' : σ} {l : List α} :
    gather x s = .ok l s' ↔ x (s, []) = .ok () (s', l) := by
  unfold gather
  cases x (s, []) with
  | ok _ p => simp [Prod.ext_iff, and_comm]
  | error e p => simp

end Apfs
