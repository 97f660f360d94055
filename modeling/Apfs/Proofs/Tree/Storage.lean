import Apfs.Block.Device
import Apfs.Proofs.Tree.Agreement

namespace Apfs

/-!
# Storage whose answers do not change

What a tree holds depends on the blocks and on the objects that it names.  A statement about two
operations on one tree needs both of them to see the same blocks and objects, and this is all that
it needs to know about caches and other state.

* `BlockSource` — a reader that answers the same in all valid states.
* `BlockSource.Alike`, `BlockSource.AlikeVerified` — two sources of the same blocks, or of the same
  blocks as far as these are verified.
* `Storage` — a source of blocks with a lookup of objects that does so too.
* `Device.source` — the blocks of an image.
* `Storage.Child`, `Storage.Visits` — the children of a node, and the nodes below a root.
* `Storage.entries` — the entries that a walk visits, in order.
-/

variable {σ τ : Type}

/-- A reader that answers the same in all valid states and leads from valid states to valid
    ones. -/
structure BlockSource (σ : Type) where
  /-- Reads the blocks. -/
  reader : BlockReader σ
  /-- The states in which blocks are read. -/
  Valid : σ → Prop
  /-- Any reading of a block gives the same. -/
  steady_read : ∀ address, Steady Valid (reader.read address)

namespace BlockSource

variable (E : Error → Error → Prop) (B : BlockSource σ) (B' : BlockSource τ)

/-- Readings of a block from the two sources give the same up to `E`. -/
def Alike : Prop :=
  ∀ address, AgreeUpTo E (fun s t => B.Valid s ∧ B'.Valid t) (B.reader.read address)
    (B'.reader.read address)

/-- Verified readings of a block from the two sources give the same up to `E`. -/
def AlikeVerified : Prop :=
  ∀ address, AgreeUpTo E (fun s t => B.Valid s ∧ B'.Valid t) (B.reader.readVerified address)
    (B'.reader.readVerified address)

variable {E B B'}

/-- Where readings give the same, verified readings do. -/
theorem Alike.verified [Std.Refl E] (h : B.Alike E B') : B.AlikeVerified E B' :=
  fun address => agreeUpTo_readVerified (h address)

end BlockSource

/-- A source of blocks, with a lookup of objects that answers the same in all valid states too. -/
structure Storage (σ : Type) extends BlockSource σ where
  /-- Finds the objects. -/
  lookup : ObjectLookup σ
  /-- Any lookup of an object gives the same. -/
  steady_lookup : ∀ object transaction, Steady Valid (lookup object transaction)

/-- A lookup that finds nothing does so in any state. -/
theorem steady_empty (Valid : σ → Prop) (object : VirtualId) (transaction : TransactionId) :
    Steady Valid (ObjectLookup.empty object transaction) :=
  Steady.of_outcome fun _ hs => ⟨rfl, hs⟩

/-- The blocks of a device. -/
def Device.source (d : Device) : BlockSource Unit where
  reader := d.reader
  Valid _ := True
  steady_read _ := Steady.of_outcome fun _ _ => ⟨outcome_lift .., trivial⟩

/-- The blocks of a source, without any virtual objects. -/
def BlockSource.storage (B : BlockSource σ) : Storage σ where
  toBlockSource := B
  lookup := .empty
  steady_lookup := steady_empty _

namespace Storage

variable (S : Storage σ) (t : Tree)

/-- Any reading of a child gives the same. -/
theorem steady_child (parent : Node) (entry : Entry) :
    Steady S.Valid (t.child S.reader S.lookup parent entry) :=
  agree_of_agreeUpTo (agreeUpTo_child (agree_childBlock S.steady_read S.steady_lookup) parent entry)

/-- A state kept beside that of the storage does not matter for reading a child. -/
theorem child_extend (parent : Node) (entry : Entry) {s r : σ} (a : τ) (hs : S.Valid s)
    (hr : S.Valid r) :
    outcome (t.child (S.reader.extend τ) (S.lookup.extend τ) parent entry) (s, a)
        = outcome (t.child S.reader S.lookup parent entry) r ∧
      ∃ s', S.Valid s' ∧
        after (t.child (S.reader.extend τ) (S.lookup.extend τ) parent entry) (s, a) = (s', a) := by
  let R : σ × τ → σ → Prop := fun p r => (S.Valid p.1 ∧ S.Valid r) ∧ p.2 = a
  have keep {α : Type} {x : EStateM Error σ α} (hx : Steady S.Valid x) : Agree R (onFirst x) x := by
    rintro ⟨s, b⟩ r ⟨hv, rfl⟩
    rw [outcome_onFirst, after_onFirst]
    exact ⟨(hx hv).1, (hx hv).2, rfl⟩
  have h : Agree R (t.child (S.reader.extend τ) (S.lookup.extend τ) parent entry)
      (t.child S.reader S.lookup parent entry) :=
    agree_of_agreeUpTo (agreeUpTo_child (agree_childBlock (fun a => keep (S.steady_read a))
      fun o x => keep (S.steady_lookup o x)) parent entry)
  obtain ⟨hout, ⟨hvalid, -⟩, hsnd⟩ := h (s := (s, a)) (t := r) ⟨⟨hs, hr⟩, rfl⟩
  exact ⟨hout, _, hvalid, Prod.ext rfl hsnd⟩

/-! ### Children and visited nodes -/

/-- The entry of the index node `parent` leads to `child`. -/
def Child (parent : Node) (entry : Entry) (child : Node) : Prop :=
  ∃ s, S.Valid s ∧ outcome (t.child S.reader S.lookup parent entry) s = .ok child

/-- A child is found whenever it is looked for. -/
theorem Child.outcome_eq {S : Storage σ} {t : Tree} {parent child : Node} {entry : Entry}
    (h : S.Child t parent entry child) {s : σ} (hs : S.Valid s) :
    outcome (t.child S.reader S.lookup parent entry) s = .ok child := by
  obtain ⟨r, hr, hchild⟩ := h
  rw [← hchild]
  exact (S.steady_child t parent entry).outcome_eq hs hr

/-- The nodes that are reached from the root through index entries, each with the number of nodes
    that may still be followed from it. -/
inductive Visits : Nat → Node → Prop
  /-- The root is visited. -/
  | root : Visits Tree.maxDepth t.root
  /-- The children of an index node that is visited are visited. -/
  | child {depth index : Nat} {parent child : Node} {entry : Entry} :
    Visits (depth + 1) parent → parent.header.isLeaf = false →
      parent.entry index t.info = .ok entry → S.Child t parent entry child → Visits depth child

/-! ### The entries that a walk visits -/

/-- The entries that a walk visits below a node, in order. -/
def entriesFrom (depth : Nat) (node : Node) : EStateM Error σ (List Entry) :=
  gather (t.walkFrom (S.reader.extend (List Entry)) (S.lookup.extend (List Entry)) note depth node)

/-- The entries that a walk visits, in order. -/
def entries : EStateM Error σ (List Entry) :=
  gather (t.walk (S.reader.extend (List Entry)) (S.lookup.extend (List Entry)) note)

end Storage

end Apfs
