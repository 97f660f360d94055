import Mathlib

namespace Apfs.Checksum

/-!
# Sums, and sums of sums

A pair of running sums adds numbers to the first and the values that the first takes to the second.
Without any reduction the second weights each number by the numbers of steps that are left when it
is added.

* `runningSum` — the first sum, from where it starts.
* `summedSum` — the second sum, in closed form.
* `summedSum_succ` — it adds what the first sum has become.
* `sums_add` — both sums go on from where they were.
* `runningSum_modEq`, `summedSum_modEq` — congruent starts lead to congruent sums.
-/

/-- The sum of the first `n` of the numbers `w`, starting at `a`. -/
def runningSum (a : Nat) (w : Nat → Nat) (n : Nat) : Nat := a + ∑ i ∈ Finset.range n, w i

/-- The sum of the values that `runningSum a w` takes in `n` steps, starting at `b`. -/
def summedSum (a b : Nat) (w : Nat → Nat) (n : Nat) : Nat :=
  b + n * a + ∑ i ∈ Finset.range n, (n - i) * w i

section

variable (a b : Nat) (w : Nat → Nat)

theorem runningSum_zero : runningSum a w 0 = a := by simp [runningSum]

theorem summedSum_zero : summedSum a b w 0 = b := by simp [summedSum]

theorem runningSum_succ (n : Nat) : runningSum a w (n + 1) = runningSum a w n + w n := by
  rw [runningSum, Finset.sum_range_succ, ← Nat.add_assoc]
  rfl

/-- A step adds one to the weight of each number so far, so it adds their sum. -/
theorem summedSum_succ (n : Nat) :
    summedSum a b w (n + 1) = summedSum a b w n + runningSum a w (n + 1) := by
  have hweights : ∑ i ∈ Finset.range n, (n + 1 - i) * w i
      = ∑ i ∈ Finset.range n, (n - i) * w i + ∑ i ∈ Finset.range n, w i := by
    rw [← Finset.sum_add_distrib]
    apply Finset.sum_congr rfl
    intro i hi
    rw [Finset.mem_range] at hi
    rw [Nat.sub_add_comm hi.le, Nat.succ_mul]
  rw [summedSum, summedSum, runningSum, Finset.sum_range_succ, Finset.sum_range_succ, hweights,
    Nat.add_sub_cancel_left]
  ring

/-- After `m` numbers, the sums of the next `n` start where those of the first `m` are. -/
theorem sums_add (m n : Nat) :
    runningSum a w (n + m) = runningSum (runningSum a w m) (fun i => w (i + m)) n ∧
      summedSum a b w (n + m)
        = summedSum (runningSum a w m) (summedSum a b w m) (fun i => w (i + m)) n := by
  induction n with
  | zero => simp only [Nat.zero_add, runningSum_zero, summedSum_zero, and_self]
  | succ n ih =>
    have hfirst : runningSum a w (n + 1 + m)
        = runningSum (runningSum a w m) (fun i => w (i + m)) (n + 1) := by
      rw [Nat.add_right_comm, runningSum_succ, runningSum_succ, ih.1]
    refine ⟨hfirst, ?_⟩
    rw [summedSum_succ, ← hfirst, ← ih.2, Nat.add_right_comm, summedSum_succ]

variable {a b} {a' b' : Nat} {k : Nat}

theorem runningSum_modEq (ha : a ≡ a' [MOD k]) (n : Nat) :
    runningSum a w n ≡ runningSum a' w n [MOD k] :=
  ha.add_right _

theorem summedSum_modEq (ha : a ≡ a' [MOD k]) (hb : b ≡ b' [MOD k]) (n : Nat) :
    summedSum a b w n ≡ summedSum a' b' w n [MOD k] :=
  (hb.add (ha.mul_left n)).add_right _

end

end Apfs.Checksum
