import Apfs.Proofs.Block.Steady

namespace Apfs

/-!
# Agreement up to an error

Two readings of one place may fail in ways that differ in detail, for instance because an error
carries the checksums that were found there.  This file relates steps that give the same, or fail
with errors that are related.

* `SameUpTo E` — equal results, or errors related by `E`.
* `AgreeUpTo E R x y` — started in states related by `R`, the steps `x` and `y` give the same up to
  `E` and leave related states.
* `Beside R Q` — states related by `R`, with states related by `Q` beside them.
* `judge` — a visitor that notes its values down and judges by all of them.
-/

variable {σ τ υ υ' α β : Type}

/-! ### Results -/

/-- The two computations give the same, or they fail with errors related by `E`. -/
inductive SameUpTo (E : Error → Error → Prop) : Except Error α → Except Error α → Prop
  /-- Both give `a`. -/
  | ok (a : α) : SameUpTo E (.ok a) (.ok a)
  /-- Both fail. -/
  | error {e e' : Error} : E e e' → SameUpTo E (.error e) (.error e')

namespace SameUpTo

variable {E : Error → Error → Prop} {x y : Except Error α}

theorem of_eq [Std.Refl E] (h : x = y) : SameUpTo E x y := by
  subst h
  cases x with
  | ok a => exact .ok a
  | error e => exact .error (Std.Refl.refl e)

/-- Up to equality of errors, the same results are equal. -/
theorem eq (h : SameUpTo Eq x y) : x = y := by
  cases h with
  | ok a => rfl
  | error he => rw [he]

theorem map (f : α → β) (h : SameUpTo E x y) : SameUpTo E (x.map f) (y.map f) := by
  cases h with
  | ok a => exact .ok (f a)
  | error he => exact .error he

end SameUpTo

/-! ### Steps -/

/-- Started in related states, the two steps give the same up to `E` and leave related states. -/
def AgreeUpTo (E : Error → Error → Prop) (R : σ → τ → Prop) (x : EStateM Error σ α)
    (y : EStateM Error τ α) : Prop :=
  ∀ ⦃s t⦄, R s t → SameUpTo E (outcome x s) (outcome y t) ∧ R (after x s) (after y t)

/-- Steps agree if they do so up to equality of errors. -/
theorem agree_of_agreeUpTo {R : σ → τ → Prop} {x : EStateM Error σ α} {y : EStateM Error τ α}
    (h : AgreeUpTo Eq R x y) : Agree R x y :=
  fun _ _ hst => ⟨(h hst).1.eq, (h hst).2⟩

namespace AgreeUpTo

variable {E : Error → Error → Prop} {R : σ → τ → Prop}

/-- Agreement is kept by sequencing. -/
theorem bind {x : EStateM Error σ α} {y : EStateM Error τ α} {f : α → EStateM Error σ β}
    {g : α → EStateM Error τ β} (hx : AgreeUpTo E R x y) (hf : ∀ a, AgreeUpTo E R (f a) (g a)) :
    AgreeUpTo E R (x >>= f) (y >>= g) := by
  intro s t h
  obtain ⟨hout, hafter⟩ := hx h
  rw [outcome_bind, outcome_bind, after_bind, after_bind]
  revert hout
  generalize outcome x s = a, outcome y t = b
  intro hout
  cases hout with
  | ok a => exact hf a hafter
  | error he => exact ⟨.error he, hafter⟩

/-- Steps that look at their states agree if they do so in any related states. -/
theorem get_bind {f : σ → EStateM Error σ α} {g : τ → EStateM Error τ α}
    (h : ∀ s t, R s t → AgreeUpTo E R (f s) (g t)) : AgreeUpTo E R (get >>= f) (get >>= g) :=
  fun s t hst => h s t hst hst

/-- Steps agree as much as the steps do that they agree with. -/
theorem transfer {ρ υ : Type} {V : σ → Prop} {W : ρ → Prop} {V' : τ → Prop} {W' : υ → Prop}
    {x : EStateM Error σ α} {x' : EStateM Error ρ α} {y : EStateM Error τ α}
    {y' : EStateM Error υ α} (h : AgreeUpTo E (fun s t => W s ∧ W' t) x' y') (f : σ → ρ)
    (hf : ∀ s, V s → W (f s)) (hx : Agree (fun s t => V s ∧ W t) x x') (g : τ → υ)
    (hg : ∀ s, V' s → W' (g s)) (hy : Agree (fun s t => V' s ∧ W' t) y y') :
    AgreeUpTo E (fun s t => V s ∧ V' t) x y := by
  rintro s t ⟨hs, ht⟩
  obtain ⟨hxout, hxvalid, -⟩ := hx ⟨hs, hf s hs⟩
  obtain ⟨hyout, hyvalid, -⟩ := hy ⟨ht, hg t ht⟩
  have hsame := (h ⟨hf s hs, hg t ht⟩).1
  rw [← hxout, ← hyout] at hsame
  exact ⟨hsame, hxvalid, hyvalid⟩

variable [Std.Refl E]

theorem of_agree {x : EStateM Error σ α} {y : EStateM Error τ α} (h : Agree R x y) :
    AgreeUpTo E R x y :=
  fun _ _ hst => ⟨.of_eq (h hst).1, (h hst).2⟩

theorem pure (a : α) :
    AgreeUpTo E R (Pure.pure a : EStateM Error σ α) (Pure.pure a : EStateM Error τ α) :=
  of_agree (.pure a)

theorem throw (e : Error) :
    AgreeUpTo E R (MonadExcept.throw e : EStateM Error σ α)
      (MonadExcept.throw e : EStateM Error τ α) :=
  of_agree (.throw e)

theorem lift (x : Except Error α) :
    AgreeUpTo E R (Apfs.lift x : EStateM Error σ α) (Apfs.lift x : EStateM Error τ α) :=
  of_agree (.lift x)

/-- Agreement is kept by what is made of a result. -/
theorem map {x : EStateM Error σ α} {y : EStateM Error τ α} (f : α → β)
    (hx : AgreeUpTo E R x y) : AgreeUpTo E R (f <$> x) (f <$> y) := by
  rw [← bind_pure_comp, ← bind_pure_comp]
  exact hx.bind fun a => .pure (f a)

/-- Agreement is kept along a list. -/
theorem forM {f : α → EStateM Error σ Unit} {g : α → EStateM Error τ Unit}
    (h : ∀ a, AgreeUpTo E R (f a) (g a)) (l : List α) : AgreeUpTo E R (l.forM f) (l.forM g) := by
  induction l with
  | nil => exact .pure ()
  | cons a l ih => exact (h a).bind fun _ => ih

end AgreeUpTo

/-! ### States beside -/

/-- The states are related by `R`, and the states beside them by `Q`. -/
def Beside (R : σ → τ → Prop) (Q : υ → υ' → Prop) (p : σ × υ) (q : τ × υ') : Prop :=
  R p.1 q.1 ∧ Q p.2 q.2

/-- Steps that leave the states beside them alone agree beside them too. -/
theorem AgreeUpTo.onFirst {E : Error → Error → Prop} {R : σ → τ → Prop} {Q : υ → υ' → Prop}
    {x : EStateM Error σ α} {y : EStateM Error τ α} (h : AgreeUpTo E R x y) :
    AgreeUpTo E (Beside R Q) (Apfs.onFirst x) (Apfs.onFirst y) := by
  rintro ⟨s, u⟩ ⟨t, u'⟩ ⟨hst, huu'⟩
  rw [outcome_onFirst, outcome_onFirst, after_onFirst, after_onFirst]
  exact ⟨(h hst).1, (h hst).2, huu'⟩

/-- Passing a sequence on is passing its steps on. -/
theorem onFirst_bind (x : EStateM Error σ α) (f : α → EStateM Error σ β) :
    (onFirst (x >>= f) : EStateM Error (σ × υ) β) = onFirst x >>= fun a => onFirst (f a) := by
  funext ⟨s, u⟩
  simp only [onFirst, bind, EStateM.bind]
  cases x s <;> rfl

theorem onFirst_lift (x : Except Error α) :
    (onFirst (lift x) : EStateM Error (σ × υ) α) = lift x := by
  funext ⟨s, u⟩
  cases x <;> rfl

/-! ### Visitors that judge -/

/-- Notes a value down and judges by all the values that were noted so far. -/
def judge (accept : List α → Except Error Unit) (a : α) : EStateM Error (σ × List α) Unit := do
  note a
  let (_, noted) ← get
  lift (accept noted)

theorem outcome_judge (accept : List α → Except Error Unit) (a : α) (s : σ) (noted : List α) :
    outcome (judge accept a) (s, noted) = accept (noted ++ [a]) := by
  simp only [judge, note, outcome_bind, outcome_modify, after_modify]
  exact outcome_lift ..

theorem after_judge (accept : List α → Except Error Unit) (a : α) (s : σ) (noted : List α) :
    after (judge accept a) (s, noted) = (s, noted ++ [a]) := by
  simp only [judge, note, after_bind, outcome_modify, after_modify]
  exact after_lift ..

/-- A visitor judges the same whatever is beside its notes. -/
theorem agree_judge {R : σ → τ → Prop} (accept : List α → Except Error Unit) (a : α) :
    Agree (Beside R Eq) (judge accept a) (judge accept a) := by
  rintro ⟨s, noted⟩ ⟨t, noted'⟩ ⟨hst, rfl⟩
  rw [outcome_judge, outcome_judge, after_judge, after_judge]
  exact ⟨rfl, hst, rfl⟩

end Apfs
