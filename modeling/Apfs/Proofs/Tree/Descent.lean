import Apfs.Proofs.Tree.Agreement
import Apfs.Proofs.Tree.Children

namespace Apfs

/-!
# Descents

A search goes down one path of a tree, and a walk goes down all of them.  Each step down follows a
link: an entry of a node names a child, which is read and then accepted or rejected.  Here both
operations note down the links that they follow, each with the nodes above it.  Children are one
level below their parents, so on the way down no block is met again.

* `Link`, `Tree.follow` — a link, and following one.
* `Tree.searchNoting`, `Tree.walkNoting` — a search and a walk that note down their links;
  `sameBeside_searchNoting` and `sameBeside_walkNoting` say that they are a search and a walk.
* `Tree.IsPath` — the nodes from one that can be reached up to the root.
* `Tree.IsPath.level_add`, `Tree.IsPath.nodup` — levels fall by one, and blocks differ.
-/

variable {σ : Type}

/-! ### Links -/

/-- A link from a node to a child. -/
structure Link where
  /-- The nodes from the one whose entry names the child up to the root. -/
  path : List Node
  /-- The child, or the error with which it was rejected. -/
  target : Except Error Node

/-- The nodes that were reached when the link had been followed. -/
def Link.nodes (l : Link) : List Node :=
  match l.target with
  | .ok child => child :: l.path
  | .error _ => l.path

namespace Tree

variable (t : Tree) (reader : BlockReader σ) (lookup : ObjectLookup σ)

/-- Follows the link from an entry of `parent`, which has the nodes `above` above it, and notes it
    down. -/
def follow (above : List Node) (parent : Node) (entry : Entry) :
    EStateM Error (σ × List Link) Node := fun (s, links) =>
  let links := links ++ [⟨parent :: above, outcome (t.child reader lookup parent entry) s⟩]
  match t.child reader lookup parent entry s with
  | .ok child s => .ok child (s, links)
  | .error e s => .error e (s, links)

/-- The search below a node, with its links noted down. -/
def searchNoting (order : KeyOrder) (mode : SearchMode) :
    (depth : Nat) → (above : List Node) → (node : Node) →
      EStateM Error (σ × List Link) (Option Entry)
  | 0, _, _ => throw (.treeTooDeep maxDepth)
  | depth + 1, above, node => do
    match ← lift (node.floor t.info order) with
    | none => return none
    | some (index, ordering) =>
      if node.header.isLeaf then
        if mode.accepts ordering then return some (← lift (node.entry index t.info))
        else return none
      else
        let entry ← lift (node.entry index t.info)
        let child ← t.follow reader lookup above node entry
        searchNoting order mode depth (node :: above) child

/-- The walk below a node, with its links noted down. -/
def walkNoting (visit : Entry → EStateM Error σ Unit) :
    (depth : Nat) → (above : List Node) → (node : Node) → EStateM Error (σ × List Link) Unit
  | 0, _, _ => throw (.treeTooDeep maxDepth)
  | depth + 1, above, node => (List.range node.size).forM fun index => do
    let entry ← lift (node.entry index t.info)
    if node.header.isLeaf then onFirst (visit entry)
    else
      let child ← t.follow reader lookup above node entry
      walkNoting visit depth (node :: above) child

variable {t reader lookup}

/-! ### Operations without their notes -/

@[simp] theorem outcome_follow (above : List Node) (parent : Node) (entry : Entry) (s : σ)
    (links : List Link) :
    outcome (t.follow reader lookup above parent entry) (s, links)
      = outcome (t.child reader lookup parent entry) s := by
  simp only [follow, outcome]
  cases t.child reader lookup parent entry s <;> rfl

@[simp] theorem after_follow (above : List Node) (parent : Node) (entry : Entry) (s : σ)
    (links : List Link) :
    after (t.follow reader lookup above parent entry) (s, links)
      = (after (t.child reader lookup parent entry) s,
          links ++ [⟨parent :: above, outcome (t.child reader lookup parent entry) s⟩]) := by
  simp only [follow, outcome, after]
  cases t.child reader lookup parent entry s <;> rfl

/-- Started in the same state beside any notes, the steps give the same and leave the same state. -/
abbrev SameBeside {α : Type} (x : EStateM Error (σ × List Link) α) (y : EStateM Error σ α) : Prop :=
  AgreeUpTo Eq (fun p s => p.1 = s) x y

theorem sameBeside_follow (above : List Node) (parent : Node) (entry : Entry) :
    SameBeside (t.follow reader lookup above parent entry)
      (t.child reader lookup parent entry) := by
  rintro ⟨s, links⟩ _ rfl
  rw [outcome_follow, after_follow]
  exact ⟨.of_eq rfl, rfl⟩

theorem sameBeside_onFirst {α : Type} (x : EStateM Error σ α) :
    SameBeside (onFirst x : EStateM Error (σ × List Link) α) x := by
  rintro ⟨s, links⟩ _ rfl
  rw [outcome_onFirst, after_onFirst]
  exact ⟨.of_eq rfl, rfl⟩

/-- Searches below a node are the same without their notes. -/
theorem sameBeside_searchNoting (order : KeyOrder) (mode : SearchMode) (depth : Nat)
    (above : List Node) (node : Node) :
    SameBeside (t.searchNoting reader lookup order mode depth above node)
      (t.searchFrom reader lookup order mode depth node) := by
  induction depth generalizing above node with
  | zero => exact .throw _
  | succ depth ih =>
    refine (AgreeUpTo.lift _).bind fun found => ?_
    cases found with
    | none => exact .pure _
    | some found =>
      dsimp only
      split
      · split
        · exact (AgreeUpTo.lift _).bind fun _ => .pure _
        · exact .pure _
      · refine (AgreeUpTo.lift _).bind fun entry => ?_
        exact (sameBeside_follow above node entry).bind fun child => ih (node :: above) child

/-- Walks below a node are the same without their notes. -/
theorem sameBeside_walkNoting (visit : Entry → EStateM Error σ Unit) (depth : Nat)
    (above : List Node) (node : Node) :
    SameBeside (t.walkNoting reader lookup visit depth above node)
      (t.walkFrom reader lookup visit depth node) := by
  induction depth generalizing above node with
  | zero => exact .throw _
  | succ depth ih =>
    refine AgreeUpTo.forM (fun index => ?_) _
    refine (AgreeUpTo.lift _).bind fun entry => ?_
    split
    · exact sameBeside_onFirst (visit entry)
    · exact (sameBeside_follow above node entry).bind fun child => ih (node :: above) child

/-! ### Paths -/

/-- The root of a tree in a block of the image stands in it. -/
theorem standsInImage_of_ofBlock {block : Block} {image : ByteArray} {start blockSize : Nat}
    (hblock : blockOf image start blockSize block.address = .ok block.data)
    (ht : Tree.ofBlock block = .ok t) : t.root.StandsInImage image start blockSize := by
  obtain ⟨root, hnode, h⟩ := sequence_eq_ok_iff.mp ht
  obtain ⟨-, h⟩ := guarded_eq_ok_iff.mp h
  obtain ⟨info, -, h⟩ := sequence_eq_ok_iff.mp h
  cases info with
  | none => cases h
  | some info =>
    obtain rfl := Except.ok.inj h
    obtain ⟨rfl, -⟩ := Node.header_and_table_of_ofBlock hnode
    exact ⟨hblock, hnode⟩

/-- The nodes from one that can be reached up to the root.  Every link on the way starts at an
    entry of an index node, and its child was accepted in a valid state. -/
inductive IsPath (t : Tree) (reader : BlockReader σ) (lookup : ObjectLookup σ)
    (Valid : σ → Prop) : List Node → Prop
  | root : IsPath t reader lookup Valid [t.root]
  | child {parent child : Node} {above : List Node} {index : Nat} {entry : Entry} {s : σ}
      (hpath : IsPath t reader lookup Valid (parent :: above))
      (hindex : parent.header.isLeaf = false) (hentry : parent.entry index t.info = .ok entry)
      (hs : Valid s) (hchild : outcome (t.child reader lookup parent entry) s = .ok child) :
      IsPath t reader lookup Valid (child :: parent :: above)

namespace IsPath

variable {Valid : σ → Prop} {path : List Node}

/-- All nodes above the last one are index nodes. -/
theorem isLeaf_eq_false (h : IsPath t reader lookup Valid path) :
    ∀ n ∈ path.tail, n.header.isLeaf = false := by
  induction h with
  | root => exact nofun
  | child hpath hindex hentry hs hchild ih =>
    intro n hn
    obtain rfl | hn := List.mem_cons.mp hn
    · exact hindex
    · exact ih n hn

section

variable {image : ByteArray} {start blockSize : Nat}
  (hreads : reader.ReadsImage Valid image start blockSize)
  (hlookup : ∀ object transaction s, Valid s → Valid (after (lookup object transaction) s))

include hreads hlookup

/-- All nodes of a path stand in the image if the root does. -/
theorem standsInImage (hroot : t.root.StandsInImage image start blockSize)
    (h : IsPath t reader lookup Valid path) :
    ∀ n ∈ path, n.StandsInImage image start blockSize := by
  induction h with
  | root =>
    intro n hn
    rw [List.mem_singleton.mp hn]
    exact hroot
  | @child parent child above index entry s hpath hindex hentry hs hchild ih =>
    intro n hn
    obtain rfl | hn := List.mem_cons.mp hn
    · exact ((ensures_child hreads hlookup parent entry hs).2.2 _ hchild).1
    · exact ih n hn

/-- **Levels fall by one** from each node of a path to the next. -/
theorem level_add (h : IsPath t reader lookup Valid path) (i : Nat) {n : Node}
    (hn : path[i]? = some n) :
    n.header.level.toNat + (path.length - 1 - i) = t.root.header.level.toNat := by
  induction h generalizing i n with
  | root =>
    obtain ⟨hi, rfl⟩ := List.getElem?_eq_some_iff.mp hn
    obtain rfl : i = 0 := by simpa using hi
    rfl
  | @child parent child above index entry s hpath hindex hentry hs hchild ih =>
    have hlevel := ((ensures_child hreads hlookup parent entry hs).2.2 _ hchild).2
    have hparent := ih 0 rfl
    cases i with
    | zero =>
      cases hn
      simp only [List.length_cons] at hparent ⊢
      omega
    | succ i =>
      rw [← ih i hn]
      simp only [List.length_cons]
      omega

/-- A path has no more links than the root has levels. -/
theorem length_le (h : IsPath t reader lookup Valid path) :
    path.length ≤ t.root.header.level.toNat + 1 := by
  cases path with
  | nil => cases h
  | cons node above =>
    have hlevel := h.level_add hreads hlookup 0 rfl
    rw [List.length_cons] at hlevel ⊢
    omega

/-- **The blocks of a path differ**, as their nodes are at different levels. -/
theorem nodup (hroot : t.root.StandsInImage image start blockSize)
    (h : IsPath t reader lookup Valid path) : (path.map (·.block.address)).Nodup := by
  induction h with
  | root => exact List.nodup_singleton _
  | @child parent child above index entry s hpath hindex hentry hs hchild ih =>
    have h := hpath.child hindex hentry hs hchild
    rw [List.map_cons, List.nodup_cons]
    refine ⟨fun hmem => ?_, ih⟩
    -- A block above that is the block of the child would hold a node that is the child.
    obtain ⟨n, hn, haddress⟩ := List.mem_map.mp hmem
    have hstands := h.standsInImage hreads hlookup hroot
    obtain rfl := (hstands n (List.mem_cons_of_mem _ hn)).unique (hstands _ List.mem_cons_self)
      haddress
    obtain ⟨i, hi⟩ := List.mem_iff_getElem?.mp hn
    have hlevel := h.level_add hreads hlookup 0 rfl
    have hlevel' := h.level_add hreads hlookup (i + 1) hi
    have hlt := (List.getElem?_eq_some_iff.mp hi).1
    simp only [List.length_cons] at hlevel hlevel' hlt
    omega

end

end IsPath

end Tree

end Apfs
