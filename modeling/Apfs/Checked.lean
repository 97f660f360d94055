import Apfs.Bytes
import Apfs.Error

namespace Apfs

/-!
# Checked steps

A decoder that works in place reads and writes arrays by index, and computes the indexes with 64-bit
numbers.  Each access is checked here, and so is each number.  One that must not happen ends the
computation as a breach, which is no error of the data: whatever the data are, there is none.

* `Breach`, `Stop` — what must not happen, and why a computation ends early.
* `fail`, `attempt` — errors of the data.
* `expect`, `minus`, `plus`, `times` — conditions that hold, differences that are not negative, and
  sums and products that are 64-bit numbers.
* `readAt`, `writeAt`, `fillAt`, `byteAt`, `cut` — accesses to arrays.
* `readAt_of_lt`, … — what they do when they are in range.
-/

/-- What must not happen in a computation. -/
inductive Breach where
  /-- An index or a range lies outside of an array, or a number is negative or too large. -/
  | outOfRange
  /-- Bytes are copied from distance 0. -/
  | zeroDistance
  /-- More than 32 bits are read at a time. -/
  | longRequest
  /-- A round of a loop consumes nothing. -/
  | noProgress
deriving DecidableEq

/-- Why a computation ends early. -/
inductive Stop where
  /-- The data or the request are refused. -/
  | failed (e : Error)
  | breach (b : Breach)
deriving DecidableEq

section

variable {m : Type → Type} [Monad m] [MonadExceptOf Stop m] {α : Type}

/-- Ends the computation with an error. -/
def fail (e : Error) : m α := throwThe Stop (.failed e)

/-- A computation without steps that have to be checked. -/
def attempt (x : Except Error α) : m α :=
  match x with
  | .ok a => pure a
  | .error e => fail e

/-- Ends the computation unless the condition holds. -/
def expect (c : Prop) [Decidable c] (b : Breach) : m Unit :=
  if c then pure () else throwThe Stop (.breach b)

/-- A difference. -/
def minus (a b : Nat) : m Nat :=
  if b ≤ a then pure (a - b) else throwThe Stop (.breach .outOfRange)

/-- A sum. -/
def plus (a b : Nat) : m Nat :=
  if a + b < UInt64.size then pure (a + b) else throwThe Stop (.breach .outOfRange)

/-- A product. -/
def times (a b : Nat) : m Nat :=
  if a * b < UInt64.size then pure (a * b) else throwThe Stop (.breach .outOfRange)

/-- An element of an array. -/
def readAt (a : Array α) (i : Nat) : m α :=
  match a[i]? with
  | some x => pure x
  | none => throwThe Stop (.breach .outOfRange)

/-- An array with one element replaced. -/
def writeAt (a : Array α) (i : Nat) (x : α) : m (Array α) :=
  if h : i < a.size then pure (a.set i x h) else throwThe Stop (.breach .outOfRange)

/-- The `count` elements of an array from `i` on are replaced by `x`. -/
def fillAt (a : Array α) (i : Nat) (x : α) : (count : Nat) → m (Array α)
  | 0 => pure a
  | count + 1 => do fillAt (← writeAt a i x) (i + 1) x count

/-- A byte of a byte string. -/
def byteAt (data : ByteArray) (i : Nat) : m UInt8 :=
  if i < data.size then pure (Bytes.get data i) else throwThe Stop (.breach .outOfRange)

/-- The bytes of a byte string from `start` up to `stop`. -/
def cut (data : ByteArray) (start stop : Nat) : m ByteArray :=
  if start ≤ stop ∧ stop ≤ data.size then pure (data.extract start stop)
  else throwThe Stop (.breach .outOfRange)

/-! ### Accesses that are in range -/

theorem expect_of {c : Prop} [Decidable c] (h : c) (b : Breach) :
    (expect c b : m Unit) = pure () := if_pos h

theorem minus_of_le {a b : Nat} (h : b ≤ a) : (minus a b : m Nat) = pure (a - b) := if_pos h

theorem plus_of_lt {a b : Nat} (h : a + b < UInt64.size) :
    (plus a b : m Nat) = pure (a + b) := if_pos h

theorem times_of_lt {a b : Nat} (h : a * b < UInt64.size) :
    (times a b : m Nat) = pure (a * b) := if_pos h

theorem readAt_of_lt {a : Array α} {i : Nat} (h : i < a.size) :
    (readAt a i : m α) = pure a[i] := by
  rw [readAt, Array.getElem?_eq_getElem h]

theorem writeAt_of_lt {a : Array α} {i : Nat} (h : i < a.size) (x : α) :
    (writeAt a i x : m (Array α)) = pure (a.set i x h) := dif_pos h

theorem byteAt_of_lt {data : ByteArray} {i : Nat} (h : i < data.size) :
    (byteAt data i : m UInt8) = pure (Bytes.get data i) := if_pos h

theorem cut_of_le {data : ByteArray} {start stop : Nat} (h : start ≤ stop) (h' : stop ≤ data.size) :
    (cut data start stop : m ByteArray) = pure (data.extract start stop) := if_pos ⟨h, h'⟩

end

/-! ### Sequences of steps on a state -/

section

variable {ε σ α β : Type} {x : EStateM ε σ α} {s s' : σ}

theorem bind_of_ok {a : α} (h : x s = .ok a s') (f : α → EStateM ε σ β) :
    (x >>= f) s = f a s' := by
  simp only [bind, EStateM.bind, h]

theorem bind_of_error {e : ε} (h : x s = .error e s') (f : α → EStateM ε σ β) :
    (x >>= f) s = .error e s' := by
  simp only [bind, EStateM.bind, h]

theorem bind_of_get (f : σ → EStateM ε σ β) (s : σ) : ((get : EStateM ε σ σ) >>= f) s = f s s := rfl

theorem bind_of_modify (g : σ → σ) (f : Unit → EStateM ε σ β) (s : σ) :
    ((modify g : EStateM ε σ Unit) >>= f) s = f () (g s) := rfl

end

end Apfs
