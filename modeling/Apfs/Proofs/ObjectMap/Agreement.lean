import Apfs.ObjectMap.Resolver
import Apfs.Proofs.Tree.Agreement

namespace Apfs

/-!
# Agreement of operations on object maps

Whatever is done with an object map, all blocks that are read for it are verified before anything
in them counts.  So operations on object maps agree where verified readings do.

* `agreeUpTo_latest?`, `agreeUpTo_mappings` — lookups in an object map, and walks over it.
* `ObjectMap.ofAddress` — opens the object map at a block; `agreeUpTo_ofBlock` and
  `agreeUpTo_ofAddress` — opening an object map.
-/

variable {σ τ : Type}

/-- Opens the object map at a block. -/
def ObjectMap.ofAddress (reader : BlockReader σ) (address : BlockAddress) :
    EStateM Error σ ObjectMap := do
  let block ← reader.readBlock address
  ObjectMap.ofBlock reader block

/-- The object map in a block that is verified already. -/
def ObjectMap.ofVerified (reader : BlockReader σ) (block : Block) : EStateM Error σ ObjectMap := do
  let _ ← lift (block.expectWords ObjectMap.typeWord ⟨0⟩)
  let header : ObjectMapHeader ← lift (decode block.data)
  let root ← reader.readVerified header.tree.toAddress
  let _ ← lift (root.expectTypes [.treeRoot] .objectMap)
  return ⟨header, ← lift (Tree.ofBlock root)⟩

/-- Opening an object map verifies its block first. -/
theorem ofBlock_eq (reader : BlockReader σ) (block : Block) :
    ObjectMap.ofBlock reader block
      = lift block.verify >>= fun _ => ObjectMap.ofVerified reader block := rfl

/-- Opening an object map by its address verifies its block first. -/
theorem ofAddress_eq (reader : BlockReader σ) (address : BlockAddress) :
    ObjectMap.ofAddress reader address
      = reader.readVerified address >>= ObjectMap.ofVerified reader := by
  unfold ObjectMap.ofAddress BlockReader.readVerified
  simp only [ofBlock_eq, bind_assoc, pure_bind]

/-- Opening an object map leaves a state beside that of the reader alone. -/
theorem ofAddress_extend (reader : BlockReader σ) (address : BlockAddress) :
    ObjectMap.ofAddress (reader.extend τ) address
      = onFirst (ObjectMap.ofAddress reader address) := by
  have hverified (block : Block) : ObjectMap.ofVerified (reader.extend τ) block
      = onFirst (ObjectMap.ofVerified reader block) := by
    simp only [ObjectMap.ofVerified, readVerified_extend, onFirst_bind, onFirst_lift]
    rfl
  rw [ofAddress_eq, ofAddress_eq, readVerified_extend, onFirst_bind, funext hverified]

/-- A resolver is opened as its object map is. -/
theorem resolver_ofAddress_eq (reader : BlockReader σ) (address : BlockAddress)
    (remembers : Bool) :
    Resolver.ofAddress reader address remembers
      = ObjectMap.ofAddress reader address >>= fun m => pure ⟨m, remembers⟩ := by
  unfold Resolver.ofAddress ObjectMap.ofAddress
  rw [bind_assoc]

section

variable {E : Error → Error → Prop} [Std.Refl E] {R : σ → τ → Prop} {reader : BlockReader σ}
  {reader' : BlockReader τ}
  (hverified : ∀ a, AgreeUpTo E R (reader.readVerified a) (reader'.readVerified a))

include hverified

/-- In a tree without virtual children, the blocks of children agree where verified readings do. -/
theorem agreeUpTo_childBlock_empty (t : Tree) (id : ObjectId) :
    AgreeUpTo E R (t.childBlock reader .empty id) (t.childBlock reader' .empty id) :=
  agreeUpTo_childBlock hverified (fun _ _ => .pure _) id

/-- **Lookups in an object map** agree where verified readings do. -/
theorem agreeUpTo_latest? (m : ObjectMap) (object : VirtualId) (transaction : TransactionId) :
    AgreeUpTo E R (m.latest? reader object transaction)
      (m.latest? reader' object transaction) := by
  have hblock := agreeUpTo_childBlock_empty hverified m.tree
  refine (agreeUpTo_searchFrom hblock _ _ _ _).bind fun found => ?_
  cases found with
  | none => exact .pure _
  | some entry =>
    refine (AgreeUpTo.lift _).bind fun key => ?_
    split
    · exact .pure _
    · exact (AgreeUpTo.lift _).bind fun _ => .pure _

/-- **Walks over an object map** agree where verified readings and the visitors do. -/
theorem agreeUpTo_mappings (m : ObjectMap)
    {visit : ObjectMapKey → ObjectMapValue → EStateM Error σ Unit}
    {visit' : ObjectMapKey → ObjectMapValue → EStateM Error τ Unit}
    (hvisit : ∀ key value, AgreeUpTo E R (visit key value) (visit' key value)) :
    AgreeUpTo E R (m.walk reader visit) (m.walk reader' visit') := by
  have hblock := agreeUpTo_childBlock_empty hverified m.tree
  refine agreeUpTo_walkFrom hblock (fun entry => ?_) _ _
  refine (AgreeUpTo.lift _).bind fun key => (AgreeUpTo.lift _).bind fun value => ?_
  exact hvisit key value

theorem agreeUpTo_ofVerified (block : Block) :
    AgreeUpTo E R (ObjectMap.ofVerified reader block) (ObjectMap.ofVerified reader' block) := by
  refine (AgreeUpTo.lift _).bind fun _ => (AgreeUpTo.lift _).bind fun header => ?_
  refine (hverified _).bind fun root => ?_
  exact (AgreeUpTo.lift _).bind fun _ => (AgreeUpTo.lift _).bind fun _ => .pure _

/-- **Opening the object map in a block** agrees where verified readings do. -/
theorem agreeUpTo_ofBlock (block : Block) :
    AgreeUpTo E R (ObjectMap.ofBlock reader block) (ObjectMap.ofBlock reader' block) :=
  (AgreeUpTo.lift _).bind fun _ => agreeUpTo_ofVerified hverified block

/-- **Opening the object map at a block** agrees where verified readings do. -/
theorem agreeUpTo_ofAddress (address : BlockAddress) :
    AgreeUpTo E R (ObjectMap.ofAddress reader address) (ObjectMap.ofAddress reader' address) := by
  rw [ofAddress_eq, ofAddress_eq]
  exact (hverified address).bind fun block => agreeUpTo_ofVerified hverified block

end

end Apfs
