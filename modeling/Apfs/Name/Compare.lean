import Apfs.Name.CodePoints
import Apfs.Name.Fold

namespace Apfs

/-!
# Comparing names

Names are ordered by their code points, one after the other; a name comes before any longer name
that starts with it.  Code points are decoded only as far as the comparison needs them, so what
stands after the first difference may be malformed.

* `CodePoints.compareFolded` — compares what two cursors have left.
* `compareNames` — compares a stored name with another.
-/

/-- Compares the code points that two cursors deliver, after folding.  Where both are at malformed
    data, the fault of the first counts. -/
def CodePoints.compareFolded (fold : Char → Char) (left right : CodePoints) :
    Except Error Ordering :=
  match _h : left.step, right.step with
  | .error e, _ => .error e
  | .ok _, .error e => .error e
  | .ok none, .ok none => .ok .eq
  | .ok none, .ok (some _) => .ok .lt
  | .ok (some _), .ok none => .ok .gt
  | .ok (some (c, left)), .ok (some (d, right)) =>
    match compare (fold c) (fold d) with
    | .eq => CodePoints.compareFolded fold left right
    | ordering => .ok ordering
termination_by left.unitsLeft
decreasing_by exact unitsLeft_lt_of_step _h

/-- Compares the name stored as UTF-8 in `stored` with another one. -/
def compareNames (sensitivity : CaseSensitivity) (stored : ByteArray) (name : EncodedName) :
    Except Error Ordering :=
  (EncodedName.utf8 stored).codePoints.compareFolded sensitivity.fold name.codePoints

end Apfs
