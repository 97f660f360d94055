import Apfs.Proofs.Block.Agreement
import Apfs.Tree.Search

namespace Apfs

/-!
# Agreement of operations on a tree

An operation on a tree depends on what is outside of its root only through the blocks of the
children that it reads.  Where these agree, so does everything that is built on them.

* `Tree.childBlock` — the verified block of a child.
* `agreeUpTo_searchFrom`, `agreeUpTo_walkFrom` — searches and walks agree where the blocks of
  children do.
* `agreeUpTo_childBlock` — these agree where verified readings and lookups do.
-/

variable {σ τ υ : Type}

/-! ### Blocks of children -/

namespace Tree

/-- Reads the block of the child with the given identifier. -/
def childBlock (t : Tree) (reader : BlockReader σ) (lookup : ObjectLookup σ) (id : ObjectId) :
    EStateM Error σ Block := do
  let address ← t.childAddress lookup id
  reader.readVerified address

end Tree

section

variable {E : Error → Error → Prop} [Std.Refl E] {R : σ → τ → Prop} {t : Tree}
  {reader : BlockReader σ} {reader' : BlockReader τ} {lookup : ObjectLookup σ}
  {lookup' : ObjectLookup τ}

/-! ### Descents -/

section Descents

variable (hblock : ∀ id, AgreeUpTo E R (t.childBlock reader lookup id)
  (t.childBlock reader' lookup' id))

include hblock

/-- Children agree where their blocks do. -/
theorem agreeUpTo_child (parent : Node) (entry : Entry) :
    AgreeUpTo E R (t.child reader lookup parent entry) (t.child reader' lookup' parent entry) := by
  refine (AgreeUpTo.lift _).bind fun id => ?_
  rw [← bind_assoc (t.childAddress lookup id), ← bind_assoc (t.childAddress lookup' id)]
  refine (hblock id).bind fun block => (AgreeUpTo.lift _).bind fun node => ?_
  -- What is left are the checks of the level and of the subtype.
  dsimp only
  split
  · exact (AgreeUpTo.throw _).bind fun _ => by split <;> first | exact .throw _ | exact .pure _
  · split
    · exact (AgreeUpTo.throw _).bind fun _ => .pure _
    · exact .pure _

/-- Searches below a node agree where the blocks of children do. -/
theorem agreeUpTo_searchFrom (order : KeyOrder) (mode : SearchMode) (depth : Nat) (node : Node) :
    AgreeUpTo E R (t.searchFrom reader lookup order mode depth node)
      (t.searchFrom reader' lookup' order mode depth node) := by
  induction depth generalizing node with
  | zero => exact .throw _
  | succ depth ih =>
    refine (AgreeUpTo.lift _).bind fun found => ?_
    cases found with
    | none => exact .pure _
    | some found =>
      dsimp only
      split
      · split
        · exact (AgreeUpTo.lift _).bind fun _ => .pure _
        · exact .pure _
      · refine (AgreeUpTo.lift _).bind fun entry => ?_
        exact (agreeUpTo_child hblock node entry).bind fun child => ih child

/-- Walks below a node agree where the blocks of children and the visitors do.  By induction on
    the number of nodes that may be followed, and for each node along its indexes. -/
theorem agreeUpTo_walkFrom {visit : Entry → EStateM Error σ Unit}
    {visit' : Entry → EStateM Error τ Unit} (hvisit : ∀ e, AgreeUpTo E R (visit e) (visit' e))
    (depth : Nat) (node : Node) :
    AgreeUpTo E R (t.walkFrom reader lookup visit depth node)
      (t.walkFrom reader' lookup' visit' depth node) := by
  induction depth generalizing node with
  | zero => exact .throw _
  | succ depth ih =>
    refine AgreeUpTo.forM (fun index => ?_) _
    refine (AgreeUpTo.lift _).bind fun entry => ?_
    split
    · exact hvisit entry
    · exact (agreeUpTo_child hblock node entry).bind fun child => ih child

end Descents

/-! ### Readings and lookups -/

/-- The addresses of children agree where lookups do. -/
theorem agreeUpTo_childAddress (hlookup : ∀ o x, AgreeUpTo E R (lookup o x) (lookup' o x))
    (id : ObjectId) : AgreeUpTo E R (t.childAddress lookup id) (t.childAddress lookup' id) := by
  unfold Tree.childAddress
  cases t.info.parameters.childStorage with
  | physical => exact .pure _
  | ephemeral => exact .throw _
  | virtual =>
    refine (hlookup ..).bind fun found => ?_
    cases found with
    | none => exact .throw _
    | some mapping => exact .pure _

/-- The blocks of children agree where verified readings and lookups do. -/
theorem agreeUpTo_childBlock
    (hverified : ∀ a, AgreeUpTo E R (reader.readVerified a) (reader'.readVerified a))
    (hlookup : ∀ o x, AgreeUpTo E R (lookup o x) (lookup' o x)) (id : ObjectId) :
    AgreeUpTo E R (t.childBlock reader lookup id) (t.childBlock reader' lookup' id) :=
  (agreeUpTo_childAddress hlookup id).bind fun address => hverified address

/-- Readings of a block agree where those of its bytes do. -/
theorem agreeUpTo_readBlock {address : BlockAddress}
    (hread : AgreeUpTo E R (reader.read address) (reader'.read address)) :
    AgreeUpTo E R (reader.readBlock address) (reader'.readBlock address) :=
  hread.bind fun _ => .pure _

/-- Verified readings of a block agree where those of its bytes do. -/
theorem agreeUpTo_readVerified {address : BlockAddress}
    (hread : AgreeUpTo E R (reader.read address) (reader'.read address)) :
    AgreeUpTo E R (reader.readVerified address) (reader'.readVerified address) := by
  refine (agreeUpTo_readBlock hread).bind fun block => ?_
  exact (AgreeUpTo.lift _).bind fun _ => .pure _

/-- The blocks of children agree where readings and lookups do. -/
theorem agree_childBlock (hread : ∀ a, Agree R (reader.read a) (reader'.read a))
    (hlookup : ∀ o x, Agree R (lookup o x) (lookup' o x)) (id : ObjectId) :
    AgreeUpTo Eq R (t.childBlock reader lookup id) (t.childBlock reader' lookup' id) :=
  agreeUpTo_childBlock (fun a => agreeUpTo_readVerified (.of_agree (hread a)))
    (fun o x => .of_agree (hlookup o x)) id

/-! ### States beside -/

/-- The lookup, with another state beside its own that it leaves alone. -/
def ObjectLookup.extend (lookup : ObjectLookup σ) (τ : Type) : ObjectLookup (σ × τ) :=
  fun object transaction => onFirst (lookup object transaction)

/-- Verified readings leave a state beside their own alone. -/
theorem readVerified_extend (address : BlockAddress) :
    (reader.extend υ).readVerified address = onFirst (reader.readVerified address) := by
  unfold BlockReader.readVerified BlockReader.readBlock BlockReader.extend
  simp only [onFirst_bind, onFirst_lift]
  rfl

/-- The readings of blocks of children leave a state beside their own alone. -/
theorem childBlock_extend (id : ObjectId) :
    t.childBlock (reader.extend υ) (lookup.extend υ) id
      = onFirst (t.childBlock reader lookup id) := by
  unfold Tree.childBlock
  rw [onFirst_bind]
  congr 1
  · unfold Tree.childAddress
    cases t.info.parameters.childStorage with
    | physical => rfl
    | ephemeral => rfl
    | virtual =>
      dsimp only
      rw [onFirst_bind]
      congr 1
      funext found
      cases found <;> rfl
  · funext address
    exact readVerified_extend address

end

end Apfs
