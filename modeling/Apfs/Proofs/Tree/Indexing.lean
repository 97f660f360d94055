import Apfs.Proofs.Tree.Walk

namespace Apfs

/-!
# The index of a tree

Index nodes serve to find the entries below them if each of their keys is that of the first entry
which it leads to.  A tree of a single leaf has no such keys.  The smallest trees that do have an
index are those in which all children of the root are leaves.

* `Storage.WellIndexed` — no child is empty, and index keys are first keys.
* `Storage.HasLeaves` — all children of the root are leaves.
* `Storage.HasLeaves.entries_eq` — a walk of such a tree visits the entries of its leaves.
* `Storage.HasLeaves.wellIndexed` — such a tree is well indexed if the keys in the root are those
  of the first entries in the leaves.
-/

variable {σ κ : Type} {S : Storage σ} {t : Tree} {key : ByteArray → κ}

/-! ### Well-indexed trees -/

/-- The index of a tree serves to find entries: no node but the root is empty, and the key of an
    index entry is that of the first entry below it, as far as `key` tells. -/
structure Storage.WellIndexed {κ : Type} (S : Storage σ) (t : Tree) (key : ByteArray → κ) :
    Prop where
  nonempty : ∀ ⦃depth index parent entry child⦄, S.Visits t (depth + 1) parent →
    parent.header.isLeaf = false → parent.entry index t.info = .ok entry →
    S.Child t parent entry child → 0 < child.size
  first_key : ∀ ⦃depth index parent entry child⦄, S.Visits t (depth + 1) parent →
    parent.header.isLeaf = false → parent.entry index t.info = .ok entry →
    S.Child t parent entry child → ∀ ⦃s part s'⦄, S.Valid s →
    S.entriesFrom t depth child s = .ok part s' → ∀ e ∈ part.head?, key entry.key = key e.key

/-- A tree of a single leaf has no index. -/
theorem wellIndexed_of_isLeaf (h : t.root.header.isLeaf = true) : S.WellIndexed t key := by
  have hleaf {depth : Nat} {node : Node} (hvisits : S.Visits t depth node) :
      node.header.isLeaf = true := by
    induction hvisits with
    | root => exact h
    | child _ hindex _ _ ih =>
      rw [ih] at hindex
      cases hindex
  constructor
  · intro depth index parent entry child hvisits hindex
    rw [hleaf hvisits] at hindex
    cases hindex
  · intro depth index parent entry child hvisits hindex
    rw [hleaf hvisits] at hindex
    cases hindex

/-! ### Leaves below the root -/

/-- Below a leaf there are its own entries. -/
theorem spans_of_isLeaf {depth : Nat} {leaf : Node} {part : List Entry}
    (hleaf : leaf.header.isLeaf = true) (hentries : leaf.HasEntries t.info part) :
    S.Spans t (depth + 1) leaf part := by
  refine (S.spans_succ t).mpr ⟨part, part.map fun e => [e], hentries, ?_, ?_⟩
  · rw [← List.flatMap_def, List.flatMap_singleton']
  · rw [List.forall₂_map_right_iff, List.forall₂_same]
    intro e _
    rw [Storage.Holds, if_pos hleaf]

namespace Storage

/-- The entry of the root leads to a leaf with the given entries. -/
def LeadsToLeaf (S : Storage σ) (t : Tree) (entry : Entry) (part : List Entry) : Prop :=
  ∃ leaf, S.Child t t.root entry leaf ∧ leaf.header.isLeaf = true ∧ leaf.HasEntries t.info part

/-- The root has the entries `index`, and each of these leads to a leaf, with its part of the
    entries. -/
structure HasLeaves (S : Storage σ) (t : Tree) (index : List Entry) (parts : List (List Entry)) :
    Prop where
  isLeaf_eq_false : t.root.header.isLeaf = false
  root : t.root.HasEntries t.info index
  leaves : List.Forall₂ (S.LeadsToLeaf t) index parts

namespace HasLeaves

variable {index : List Entry} {parts : List (List Entry)} (h : S.HasLeaves t index parts)
include h

/-- The entries of the tree are those of the leaves. -/
theorem spans : S.Spans t Tree.maxDepth t.root parts.flatten := by
  refine (S.spans_succ t).mpr ⟨index, parts, h.root, rfl, h.leaves.imp ?_⟩
  rintro entry part ⟨leaf, hchild, hleaf, hentries⟩
  rw [Holds, if_neg (by rw [h.isLeaf_eq_false]; exact Bool.false_ne_true)]
  exact ⟨leaf, hchild, spans_of_isLeaf hleaf hentries⟩

/-- A walk visits the entries of the leaves. -/
theorem entries_eq {s : σ} (hs : S.Valid s) :
    ∃ s', S.Valid s' ∧ S.entries t s = .ok parts.flatten s' :=
  entriesFrom_of_spans hs h.spans

/-- A child that some entry of the root leads to is one of the leaves. -/
theorem exists_leaf {i : Nat} {entry : Entry} {child : Node}
    (hentry : t.root.entry i t.info = .ok entry) (hchild : S.Child t t.root entry child) :
    child.header.isLeaf = true ∧ ∃ part, index[i]? = some entry ∧ parts[i]? = some part ∧
      child.HasEntries t.info part := by
  have hi : i < index.length := by
    rw [h.root.1]
    by_contra hle
    rw [Node.entry, if_pos (Nat.not_lt.mp hle)] at hentry
    cases hentry
  have hi' : i < parts.length := h.leaves.length_eq ▸ hi
  have hget : index[i]? = some index[i] := List.getElem?_eq_getElem hi
  obtain rfl : index[i] = entry := Except.ok.inj ((h.root.2 i _ hget).symm.trans hentry)
  obtain ⟨leaf, hleafChild, hleaf, hentries⟩ := h.leaves.get hi hi'
  -- An entry leads to one child only.
  obtain ⟨s, hs, hout⟩ := hleafChild
  obtain rfl : child = leaf := Except.ok.inj ((hchild.outcome_eq hs).symm.trans hout)
  exact ⟨hleaf, _, hget, List.getElem?_eq_getElem hi', hentries⟩

/-- Only the root is an index node. -/
theorem eq_root {depth : Nat} {node : Node} (hvisits : S.Visits t depth node)
    (hindex : node.header.isLeaf = false) : depth = Tree.maxDepth ∧ node = t.root := by
  induction hvisits with
  | root => exact ⟨rfl, rfl⟩
  | child _ hparent hentry hchild ih =>
    obtain ⟨-, rfl⟩ := ih hparent
    obtain ⟨hleaf, -⟩ := h.exists_leaf hentry hchild
    rw [hleaf] at hindex
    cases hindex

/-- **Leaves below the root** are well indexed, if no leaf is empty and each key in the root is that
    of the first entry in its leaf. -/
theorem wellIndexed (hfirst : List.Forall₂ (fun entry part =>
      ∃ first rest, part = first :: rest ∧ key entry.key = key first.key) index parts) :
    S.WellIndexed t key := by
  have hpart {i : Nat} {entry : Entry} {part : List Entry} (hi : index[i]? = some entry)
      (hi' : parts[i]? = some part) :
      ∃ first rest, part = first :: rest ∧ key entry.key = key first.key := by
    obtain ⟨hlt, rfl⟩ := List.getElem?_eq_some_iff.mp hi
    obtain ⟨hlt', rfl⟩ := List.getElem?_eq_some_iff.mp hi'
    exact hfirst.get hlt hlt'
  constructor
  · intro depth i parent entry child hvisits hindex hentry hchild
    obtain ⟨-, rfl⟩ := h.eq_root hvisits hindex
    obtain ⟨-, part, hi, hi', hentries⟩ := h.exists_leaf hentry hchild
    obtain ⟨first, rest, rfl, -⟩ := hpart hi hi'
    rw [← hentries.1]
    exact Nat.zero_lt_succ _
  · intro depth i parent entry child hvisits hindex hentry hchild s below s' hs hbelow e he
    obtain ⟨hdepth, rfl⟩ := h.eq_root hvisits hindex
    obtain ⟨hleaf, part, hi, hi', hentries⟩ := h.exists_leaf hentry hchild
    obtain ⟨first, rest, rfl, hkey⟩ := hpart hi hi'
    -- A walk of the leaf visits its entries, and nothing else.
    obtain ⟨depth, rfl⟩ : ∃ d, depth = d + 1 := ⟨14, Nat.succ.inj hdepth⟩
    obtain ⟨s'', -, hleafBelow⟩ :=
      @entriesFrom_of_spans _ S t (depth + 1) child _ s hs (spans_of_isLeaf hleaf hentries)
    rw [hbelow] at hleafBelow
    cases hleafBelow
    obtain rfl : first = e := Option.some.inj he
    exact hkey

end HasLeaves

end Storage

end Apfs
