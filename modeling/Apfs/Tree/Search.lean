import Apfs.Tree.Basic

namespace Apfs

/-!
# Searching and walking trees

* `SearchMode` — which entry of a leaf answers a search.
* `Tree.search` — descends from the root, in each index node through the last child whose key is
  not greater than what is searched for.
* `Tree.walk` — visits the entries of all leaves in order.

Both follow at most `Tree.maxDepth` nodes from the root, so that they end whatever the blocks hold.
-/

/-- Which entry of a leaf answers a search. -/
inductive SearchMode where
  /-- One that compares equal. -/
  | exact
  /-- The last one that does not compare greater. -/
  | lessOrEqual
deriving DecidableEq

/-- Whether the last entry that does not compare greater answers a search, given how it compares. -/
def SearchMode.accepts : SearchMode → Ordering → Bool
  | exact, o => o == .eq
  | lessOrEqual, _ => true

namespace Tree

variable {σ : Type}

/-- Searches the subtree below `node`, following at most `depth` nodes. -/
def searchFrom (t : Tree) (reader : BlockReader σ) (lookup : ObjectLookup σ) (order : KeyOrder)
    (mode : SearchMode) : (depth : Nat) → (node : Node) → EStateM Error σ (Option Entry)
  | 0, _ => throw (.treeTooDeep maxDepth)
  | depth + 1, node => do
    match ← lift (node.floor t.info order) with
    | none => return none
    | some (index, ordering) =>
      if node.header.isLeaf then
        if mode.accepts ordering then return some (← lift (node.entry index t.info))
        else return none
      else
        let entry ← lift (node.entry index t.info)
        let child ← t.child reader lookup node entry
        t.searchFrom reader lookup order mode depth child

/-- Searches the tree.  `order` compares stored keys with what is searched for. -/
def search (t : Tree) (reader : BlockReader σ) (lookup : ObjectLookup σ) (order : KeyOrder)
    (mode : SearchMode) : EStateM Error σ (Option Entry) :=
  t.searchFrom reader lookup order mode maxDepth t.root

/-- Visits the leaf entries of the subtree below `node`, following at most `depth` nodes. -/
def walkFrom (t : Tree) (reader : BlockReader σ) (lookup : ObjectLookup σ)
    (visit : Entry → EStateM Error σ Unit) : (depth : Nat) → (node : Node) → EStateM Error σ Unit
  | 0, _ => throw (.treeTooDeep maxDepth)
  | depth + 1, node => (List.range node.size).forM fun index => do
    let entry ← lift (node.entry index t.info)
    if node.header.isLeaf then visit entry
    else
      let child ← t.child reader lookup node entry
      t.walkFrom reader lookup visit depth child

/-- Visits the entries of all leaves, in the order of their keys.  An error of the visitor ends
    the walk. -/
def walk (t : Tree) (reader : BlockReader σ) (lookup : ObjectLookup σ)
    (visit : Entry → EStateM Error σ Unit) : EStateM Error σ Unit :=
  t.walkFrom reader lookup visit maxDepth t.root

end Tree

end Apfs
