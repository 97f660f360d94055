import Apfs.Proofs.Block.StreamReading
import Apfs.Proofs.Tree.Areas

namespace Apfs

/-!
# Reading children

A child is accepted if it stands in the image one level below its parent.  No check that it has to
pass says that a tree is too deep, so where a reading of a child says so, the lookup of an object
did; and where a search of a node says so, the comparison of a key did.

* `BlockReader.ReadsImage` — a reader that gives the blocks of an image.
* `Node.StandsInImage` — nodes that stand in an image; each block holds one of them.
* `Passes` — computations that only pass on that a tree is too deep; `passes_entry`,
  `passes_floor` and others say so of what is done with a node.
* `Ensures` — what steps keep, pass on and give.
* `SaysTooDeep` — steps that can say that a tree is too deep.
* `ensures_child` — what reading a child does.
-/

variable {σ α β : Type}

/-! ### Images -/

/-- In valid states the reader gives the blocks of an image. -/
structure BlockReader.ReadsImage (reader : BlockReader σ) (Valid : σ → Prop) (image : ByteArray)
    (start blockSize : Nat) : Prop where
  outcome_read : ∀ address s, Valid s →
    outcome (reader.read address) s = blockOf image start blockSize address
  valid_after : ∀ address s, Valid s → Valid (after (reader.read address) s)

/-- A device reads its image. -/
theorem Device.readsImage {image : ByteArray} {start : UInt64} {blockSize : Nat} {d : Device}
    (hsize : image.size < 2 ^ 64) (h : Device.ofImage image start blockSize = .ok d) :
    d.reader.ReadsImage (fun _ => True) image start.toNat blockSize where
  outcome_read address s _ := by
    rw [← Device.read_eq hsize h address]
    exact outcome_lift ..
  valid_after _ _ _ := trivial

/-- A reader of a stream reads the contents of it, wherever the stream is. -/
theorem StreamReader.Reads.readsImage {r : StreamReader} {image : ByteArray} {start : UInt64}
    {blockSize : Nat} (h : r.Reads image start blockSize) (hsize : image.size < 2 ^ 64)
    (hblock : 0 < blockSize) :
    r.blocks.ReadsImage (fun s => s.contents = image) image start.toNat blockSize where
  outcome_read address := by
    rintro ⟨_, position⟩ rfl
    exact (h.read_eq hsize hblock address position).1
  valid_after address := by
    rintro ⟨_, position⟩ rfl
    obtain ⟨-, position', hafter⟩ := h.read_eq hsize hblock address position
    show (after (r.read address) _).contents = _
    rw [hafter]

/-- The node is one that stands in the image. -/
def Node.StandsInImage (n : Node) (image : ByteArray) (start blockSize : Nat) : Prop :=
  blockOf image start blockSize n.block.address = .ok n.block.data ∧ Node.ofBlock n.block = .ok n

/-- A block holds one node. -/
theorem Node.StandsInImage.unique {n m : Node} {image : ByteArray} {start blockSize : Nat}
    (hn : n.StandsInImage image start blockSize) (hm : m.StandsInImage image start blockSize)
    (h : n.block.address = m.block.address) : n = m := by
  have hdata : n.block.data = m.block.data := by
    have hsame := hn.1
    rw [h, hm.1] at hsame
    exact (Except.ok.inj hsame).symm
  have hblock : n.block = m.block := by
    obtain ⟨⟨_, _⟩, _⟩ := n
    obtain ⟨⟨_, _⟩, _⟩ := m
    cases h
    cases hdata
    rfl
  have hsame := hn.2
  rw [hblock, hm.2] at hsame
  exact (Except.ok.inj hsame).symm

/-! ### Computations that pass errors on -/

/-- If the computation says that a tree is too deep, it passes that on. -/
def Passes (Passed : Nat → Prop) (x : Except Error α) : Prop :=
  ∀ ⦃n⦄, x = .error (.treeTooDeep n) → Passed n

namespace Passes

variable {Passed : Nat → Prop} {e : Error} {x y : Except Error α} {f : α → Except Error β}

theorem ok (a : α) : Passes Passed (.ok a : Except Error α) := nofun

theorem error (he : ∀ n, e ≠ .treeTooDeep n) : Passes Passed (.error e : Except Error α) :=
  fun n h => absurd (Except.error.inj h) (he n)

theorem bind (hx : Passes Passed x) (hf : ∀ a, Passes Passed (f a)) :
    Passes Passed (x >>= f) := by
  cases x with
  | ok a => exact hf a
  | error e => exact fun n h => hx (congrArg _ (Except.error.inj h))

/-- A check has an error of its own. -/
theorem guard {p : Prop} [Decidable p] {y : Except Error β} (he : ∀ n, e ≠ .treeTooDeep n)
    (hy : Passes Passed y) : Passes Passed (if p then throw e >>= f else y) := by
  split
  · exact .error he
  · exact hy

/-- Decoding says what it needs. -/
theorem decode {γ : Type} [Layout γ] {data : ByteArray}
    (h : ∀ available n, Layout.tooShort γ available ≠ .treeTooDeep n) :
    Passes Passed (Apfs.decode data : Except Error γ) := by
  unfold Apfs.decode
  dsimp only
  split
  · exact .error (h _)
  · exact .ok _

end Passes

section

variable {Passed : Nat → Prop}

theorem passes_verifyChecksum (data : ByteArray) : Passes Passed (verifyChecksum data) := by
  have hcomputed : Passes Passed (computedChecksum data) := by
    unfold computedChecksum Checksum.fletcher64
    split
    · exact .error nofun
    · split
      · exact .ok _
      · exact .error nofun
  have hstored : Passes Passed (storedChecksum data) := by
    unfold storedChecksum
    split
    · exact .error nofun
    · exact .ok _
  refine hstored.bind fun stored => hcomputed.bind fun computed => ?_
  split
  · exact .error nofun
  · exact .ok _

theorem passes_span (n : Node) (start length : Nat) (fault : NodeFault) :
    Passes Passed (n.span start length fault) := by
  unfold Node.span
  split
  · exact .ok _
  · exact .error nofun

theorem passes_table (n : Node) : Passes Passed n.table :=
  (passes_span ..).bind fun _ => .guard nofun (.ok _)

theorem passes_ofBlock (block : Block) : Passes Passed (Node.ofBlock block) := by
  have hheader : Passes Passed block.header := .decode nofun
  have htypes (allowed : List ObjectType) (subtype : ObjectType) :
      Passes Passed (block.expectTypes allowed subtype) := by
    refine hheader.bind fun header => .guard nofun (.guard nofun (.ok _))
  refine hheader.bind fun header => (htypes ..).bind fun _ => ?_
  have hnode : Passes Passed (decode block.data : Except Error NodeHeader) :=
    .decode fun _ _ h => by cases h
  exact hnode.bind fun header => (passes_table _).bind fun _ => .ok _

theorem passes_childId (e : Entry) : Passes Passed e.childId := .decode nofun

theorem passes_entry (n : Node) (index : Nat) (info : TreeInfo) :
    Passes Passed (n.entry index info) := by
  have hvalueEnd : Passes Passed n.valueEnd := by
    unfold Node.valueEnd
    split
    · split
      · exact .error nofun
      · exact .ok _
    · exact .ok _
  have hplaces (table : ByteArray) : Passes Passed (n.places table index info) := by
    unfold Node.places
    dsimp only
    split
    · exact (Passes.decode fun _ _ h => by cases h).bind fun _ => .ok _
    · exact (Passes.decode fun _ _ h => by cases h).bind fun _ => .ok _
  refine .guard nofun ((passes_table n).bind fun table => hvalueEnd.bind fun valueEnd => ?_)
  refine (hplaces table).bind fun places => (passes_span ..).bind fun key => ?_
  split
  · exact .ok _
  · exact .guard nofun ((passes_span ..).bind fun _ => .ok _)

/-- A search of a node passes on what the comparison of a key says. -/
theorem passes_floor (n : Node) (info : TreeInfo) {order : KeyOrder}
    (horder : ∀ key, Passes Passed (order key)) : Passes Passed (n.floor info order) := by
  have hbetween (low high : Nat) (found : Option (Nat × Ordering)) :
      Passes Passed (n.floorBetween info order low high found) := by
    induction hgap : high - low using Nat.strong_induction_on generalizing low high found with
    | h gap ih =>
      rw [Node.floorBetween]
      split
      · refine (passes_entry ..).bind fun entry => (horder _).bind fun ordering => ?_
        cases ordering with
        | lt => exact ih _ (by omega) _ _ _ rfl
        | eq => exact .ok _
        | gt => exact ih _ (by omega) _ _ _ rfl
      · exact .ok _
  exact hbetween ..

end

/-! ### Steps that pass errors on -/

/-- Started in a valid state, the step leaves one; if it says that a tree is too deep, it passes
    that on; and what it gives is as wanted. -/
def Ensures (Valid : σ → Prop) (Passed : Nat → Prop) (x : EStateM Error σ α) (Q : α → Prop) :
    Prop :=
  ∀ ⦃s⦄, Valid s → Valid (after x s) ∧ Passes Passed (outcome x s) ∧ ∀ a, outcome x s = .ok a → Q a

namespace Ensures

variable {Valid : σ → Prop} {Passed : Nat → Prop} {P : α → Prop} {Q : β → Prop}

theorem pure {a : α} (h : P a) : Ensures Valid Passed (Pure.pure a : EStateM Error σ α) P := by
  intro _ hs
  refine ⟨hs, .ok a, fun b hb => ?_⟩
  cases hb
  exact h

theorem throw {e : Error} (he : ∀ n, e ≠ .treeTooDeep n) :
    Ensures Valid Passed (MonadExcept.throw e : EStateM Error σ α) P :=
  fun _ hs => ⟨hs, .error he, nofun⟩

theorem lift {x : Except Error α} (hx : Passes Passed x) (hP : ∀ a, x = .ok a → P a) :
    Ensures Valid Passed (Apfs.lift x : EStateM Error σ α) P := by
  intro s hs
  rw [outcome_lift, after_lift]
  exact ⟨hs, hx, hP⟩

/-- A sequence does what its steps do. -/
theorem bind {x : EStateM Error σ α} {f : α → EStateM Error σ β} (hx : Ensures Valid Passed x P)
    (hf : ∀ a, P a → Ensures Valid Passed (f a) Q) : Ensures Valid Passed (x >>= f) Q := by
  intro s hs
  obtain ⟨hvalid, hpasses, hP⟩ := hx hs
  rw [outcome_bind, after_bind]
  cases hout : outcome x s with
  | ok a => exact hf a (hP a hout) hvalid
  | error e =>
    rw [hout] at hpasses
    exact ⟨hvalid, fun n h => hpasses (congrArg _ (Except.error.inj h)), nofun⟩

end Ensures

/-- In some valid state, the step says that a tree is too deep. -/
def SaysTooDeep (Valid : σ → Prop) (n : Nat) (x : EStateM Error σ α) : Prop :=
  ∃ s, Valid s ∧ outcome x s = .error (.treeTooDeep n)

/-- Some lookup says that a tree is too deep. -/
def ObjectLookup.SaysTooDeep (lookup : ObjectLookup σ) (Valid : σ → Prop) (n : Nat) : Prop :=
  ∃ object transaction, Apfs.SaysTooDeep Valid n (lookup object transaction)

/-! ### Reading a child -/

section

variable {Valid : σ → Prop} {image : ByteArray} {start blockSize : Nat} {reader : BlockReader σ}
  {lookup : ObjectLookup σ} {t : Tree} (hreads : reader.ReadsImage Valid image start blockSize)
  (hlookup : ∀ object transaction s, Valid s → Valid (after (lookup object transaction) s))

include hreads in
/-- A block that is read stands in the image. -/
theorem ensures_readVerified {Passed : Nat → Prop} (address : BlockAddress) :
    Ensures Valid Passed (reader.readVerified address) fun block =>
      blockOf image start blockSize block.address = .ok block.data := by
  have hread : Ensures Valid Passed (reader.read address) fun data =>
      blockOf image start blockSize address = .ok data := by
    intro s hs
    rw [hreads.outcome_read address s hs]
    refine ⟨hreads.valid_after address s hs, ?_, fun a h => h⟩
    unfold blockOf
    dsimp only
    split
    · exact .ok _
    · exact .error nofun
  have hblock : Ensures Valid Passed (reader.readBlock address) fun block =>
      blockOf image start blockSize block.address = .ok block.data :=
    hread.bind fun data hdata => .pure hdata
  refine hblock.bind fun block hblock => ?_
  exact (Ensures.lift (passes_verifyChecksum _) fun _ _ => trivial).bind fun _ _ => .pure hblock

include hlookup in
/-- The address of a child comes from the lookup of an object, or from no other place. -/
theorem ensures_childAddress (id : ObjectId) :
    Ensures Valid (lookup.SaysTooDeep Valid) (t.childAddress lookup id) fun _ => True := by
  unfold Tree.childAddress
  cases t.info.parameters.childStorage with
  | physical => exact .pure trivial
  | ephemeral => exact .throw nofun
  | virtual =>
    have hfound (object : VirtualId) (transaction : TransactionId) :
        Ensures Valid (lookup.SaysTooDeep Valid) (lookup object transaction) fun _ => True :=
      fun s hs => ⟨hlookup object transaction s hs,
        fun n h => ⟨object, transaction, s, hs, h⟩, fun _ _ => trivial⟩
    refine (hfound ..).bind fun found _ => ?_
    cases found with
    | none => exact .throw nofun
    | some mapping => exact .pure trivial

include hreads hlookup in
/-- **A child that is accepted** stands in the image, one level below its parent. -/
theorem ensures_child (parent : Node) (entry : Entry) :
    Ensures Valid (lookup.SaysTooDeep Valid) (t.child reader lookup parent entry) fun child =>
      child.StandsInImage image start blockSize ∧
        child.header.level.toNat + 1 = parent.header.level.toNat := by
  refine (Ensures.lift (passes_childId entry) fun _ _ => trivial).bind fun id _ => ?_
  refine (ensures_childAddress hlookup id).bind fun address _ => ?_
  refine (ensures_readVerified hreads address).bind fun block hblock => ?_
  refine (Ensures.lift (passes_ofBlock block) fun _ h => h).bind fun child hchild => ?_
  obtain ⟨rfl, -⟩ := Node.header_and_table_of_ofBlock hchild
  dsimp only
  split
  · exact (Ensures.throw (P := fun _ => False) fun _ h => by cases h).bind fun _ h => h.elim
  · split
    · exact (Ensures.throw (P := fun _ => False) fun _ h => by cases h).bind fun _ h => h.elim
    · exact .pure ⟨⟨hblock, hchild⟩, Decidable.not_not.mp ‹_›⟩

end

end Apfs
