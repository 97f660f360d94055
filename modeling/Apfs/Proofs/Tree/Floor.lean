import Apfs.Tree.Node
import Mathlib

namespace Apfs

/-!
# The binary search in a node

`Node.floor` looks for the last entry that does not compare greater.  It finds a place where the
comparisons turn, whether or not they are sorted along the node.

* `Node.HasEntries` — the entries of a node, when all of them can be read.
* `IsFloor` — what the search may answer, given how the entries compare.
* `floor_isFloor` — the search answers, and its answer is a floor.
-/

/-- The node has exactly these entries, and all of them can be read. -/
def Node.HasEntries (n : Node) (info : TreeInfo) (entries : List Entry) : Prop :=
  entries.length = n.size ∧ ∀ i e, entries[i]? = some e → n.entry i info = .ok e

/-- What a search for the last entry that does not compare greater may answer, when the entries
    compare like `orders`: none only if there is no first entry or it compares greater, and
    otherwise an entry that compares equal, or one that compares less and is the last or is
    followed by one that compares greater. -/
def IsFloor (orders : List Ordering) : Option (Nat × Ordering) → Prop
  | none => ∀ o ∈ orders[0]?, o = .gt
  | some (i, o) =>
    orders[i]? = some o ∧ o ≠ .gt ∧ (o = .lt → ∀ o' ∈ orders[i + 1]?, o' = .gt)

/-! ### The search finds a floor -/

/-- Everything before `low` may be left out of account because of the entry that was found, and
    everything from `high` on because of an entry that compares greater. -/
structure SearchedTo (orders : List Ordering) (low high : Nat)
    (found : Option (Nat × Ordering)) : Prop where
  low_le_high : low ≤ high
  high_le_length : high ≤ orders.length
  found_eq : found = none ∧ low = 0 ∨
    ∃ i, low = i + 1 ∧ found = some (i, .lt) ∧ orders[i]? = some .lt
  gt_at_high : ∀ o ∈ orders[high]?, o = .gt

/-- Where the two bounds meet, the entry that was found is a floor. -/
theorem SearchedTo.isFloor {orders : List Ordering} {low high : Nat}
    {found : Option (Nat × Ordering)} (h : SearchedTo orders low high found) (hle : high ≤ low) :
    IsFloor orders found := by
  have heq : high = low := le_antisymm hle h.low_le_high
  have hgt := h.gt_at_high
  rw [heq] at hgt
  rcases h.found_eq with ⟨rfl, rfl⟩ | ⟨i, rfl, rfl, hi⟩
  · exact hgt
  · exact ⟨hi, by decide, fun _ => hgt⟩

/-- **Binary search.**  From bounds that were reached rightly, the search goes on to a floor.  Each
    probe keeps `SearchedTo`, except that an entry that compares equal is a floor at once. -/
theorem floorBetween_isFloor {n : Node} {info : TreeInfo} {order : KeyOrder}
    {entries : List Entry} {orders : List Ordering} (hentries : n.HasEntries info entries)
    (horders : entries.map (fun e => order e.key) = orders.map .ok) {low high : Nat}
    {found : Option (Nat × Ordering)} (h : SearchedTo orders low high found) :
    ∃ answer, n.floorBetween info order low high found = .ok answer ∧ IsFloor orders answer := by
  induction hgap : high - low using Nat.strong_induction_on generalizing low high found with
  | h gap ih =>
    rw [Node.floorBetween]
    by_cases hlt : low < high
    · rw [if_pos hlt]
      have hmid : low + (high - low) / 2 < orders.length := by
        have := h.high_le_length
        omega
      generalize hmiddle : low + (high - low) / 2 = middle at hmid ⊢
      -- The entry that is probed can be read and compared.
      have hmid' : middle < entries.length := by
        have hlen := congrArg List.length horders
        simp only [List.length_map] at hlen
        omega
      have hentry : n.entry middle info = .ok entries[middle] :=
        hentries.2 middle _ (List.getElem?_eq_getElem hmid')
      have horder : order entries[middle].key = .ok orders[middle] := by
        have hget := congrArg (·[middle]?) horders
        simpa [hmid, hmid'] using hget
      have hget : orders[middle]? = some orders[middle] := List.getElem?_eq_getElem hmid
      simp only [hentry, horder, bind, Except.bind]
      cases hcase : orders[middle] with
      | lt =>
        refine ih _ ?_ ⟨?_, h.high_le_length, .inr ⟨middle, rfl, rfl, hcase ▸ hget⟩,
          h.gt_at_high⟩ rfl
        all_goals omega
      | eq =>
        refine ⟨some (middle, .eq), rfl, hcase ▸ hget, by decide, fun h => ?_⟩
        contradiction
      | gt =>
        refine ih _ ?_ ⟨?_, hmid.le, h.found_eq, ?_⟩ rfl
        · omega
        · omega
        · intro o ho
          rw [hget, hcase] at ho
          exact (Option.mem_some.mp ho).symm
    · rw [if_neg hlt]
      exact ⟨found, rfl, h.isFloor (by omega)⟩

/-- **Local floor.**  If all entries of a node can be read and compared, the search in it answers,
    and the answer is a floor, even if the comparisons are not sorted. -/
theorem floor_isFloor {n : Node} {info : TreeInfo} {order : KeyOrder} {entries : List Entry}
    {orders : List Ordering} (hentries : n.HasEntries info entries)
    (horders : entries.map (fun e => order e.key) = orders.map .ok) :
    ∃ answer, n.floor info order = .ok answer ∧ IsFloor orders answer := by
  have hlen : orders.length = n.size := by
    rw [← hentries.1]
    simpa using (congrArg List.length horders).symm
  refine floorBetween_isFloor hentries horders ⟨Nat.zero_le _, hlen.ge, .inl ⟨rfl, rfl⟩, ?_⟩
  intro o ho
  rw [← hlen, List.getElem?_eq_none le_rfl] at ho
  contradiction

end Apfs
