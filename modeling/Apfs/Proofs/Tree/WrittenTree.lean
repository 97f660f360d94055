import Apfs.Proofs.Block.StreamReading
import Apfs.Proofs.Object.Sealing
import Apfs.Proofs.Tree.Indexing
import Apfs.Proofs.Tree.WrittenNode

namespace Apfs

/-!
# Trees read back as written

The nodes of a tree are written to blocks of one size, each sealed with its checksum.  The tree has
a root, and below it the leaves.  The root names each leaf by its block and by its first key, so a
walk visits the entries that were given, and the tree is well indexed.

* `NodeContents.writeSealed` — a block with a node and its checksum.
* `exists_writeSealed` — the node is read back from it.
* `Bytes.joined`, `Device.read_joined` — blocks one after the other, and reading one of them.
* `treeContents`, `writeTree` — the nodes of a tree, and the blocks with them.
* `outcome_readVerified`, `child_of_read` — reading a block and a child that pass all checks.
* `Tree.InBlocks` — a tree that is found in such blocks.
* `exists_writeTree` — the tree that was written is found, with its leaves.
* `writtenTree` — the tree in an image of its own.
-/

/-! ### Sealed nodes -/

namespace NodeContents

variable {c : NodeContents} {size : Nat}

/-- A block of `size` bytes with the node written to it, sealed with its checksum. -/
def writeSealed (c : NodeContents) (size : Nat) : Except Error ByteArray := do
  sealObject (← c.write (Bytes.zeros size))

/-- A node that stands in a block still does when a checksum is written to its front. -/
theorem StandsIn.sealedWith {block : ByteArray} (h : c.StandsIn block) (checksum : UInt64) :
    c.StandsIn (sealedWith block checksum) := by
  have hfits := h.fits
  have hstart := c.keyStart_eq
  rw [requiredSize_eq, hstart, size_nodeHeader] at hfits
  have hlarge : checksumSize ≤ block.size := by
    rw [checksumSize]
    omega
  have hsize := size_sealedWith hlarge checksum
  refine ⟨hsize ▸ h.fits, ?_, fun i e he => ?_, fun hroot => ?_⟩
  · obtain ⟨old, keyBytes, freeBytes, hheader⟩ := h.header
    let rest : ByteArray :=
      ⟨((Layout.toBytes (c.headerWith 0 keyBytes freeBytes)).drop checksumSize).toArray⟩
    have hfront (x : UInt64) : encoded (c.headerWith x keyBytes freeBytes) = encoded x ++ rest :=
      rfl
    exact ⟨checksum, keyBytes, freeBytes,
      standsAt_sealedWith_header hlarge checksum hfront hheader⟩
  · obtain ⟨-, ⟨-, hkeys⟩, ⟨-, hvalues⟩, -⟩ := shares_of_entry he
    obtain ⟨hkey, hvalue, htable⟩ := h.entries i e he
    rw [hsize]
    refine ⟨hkey.sealedWith hlarge checksum ?_, hvalue.sealedWith hlarge checksum ?_,
      htable.sealedWith hlarge checksum ?_⟩
    all_goals
      simp only [hstart, size_nodeHeader, checksumSize]
      omega
  · have hinfo := h.info hroot
    rw [hsize]
    refine hinfo.sealedWith hlarge checksum ?_
    rw [checksumSize]
    omega

/-- **A node that fits is written and sealed**, and everything is read back. -/
theorem exists_writeSealed (hfits : c.requiredSize ≤ size) (hsize : size ≤ 65536)
    (hlength : size % 4 = 0) (hsized : c.Sized) :
    ∃ block, c.writeSealed size = .ok block ∧ block.size = size ∧
      verifyChecksum block = .ok () ∧
      ∀ address, ∃ node, Node.ofBlock ⟨address, block⟩ = .ok node ∧ c.ReadAs size node := by
  obtain ⟨written, hwrite, hwritten, hstands⟩ :=
    @exists_write_of_le c (Bytes.zeros size) (by rw [Bytes.size_zeros]; exact hfits)
  rw [Bytes.size_zeros] at hwritten
  have hlarge : checksumSize ≤ written.size := by
    have hrequired := c.requiredSize_eq
    rw [c.keyStart_eq, size_nodeHeader] at hrequired
    rw [checksumSize]
    omega
  obtain ⟨checksum, hseal, -, hverify⟩ :=
    exists_sealed hlarge (by rw [hwritten]; exact hlength)
  have hsealed : (Apfs.sealedWith written checksum).size = size :=
    (size_sealedWith hlarge checksum).trans hwritten
  refine ⟨_, ?_, hsealed, hverify, fun address => ?_⟩
  · exact sequence_eq_ok_iff.mpr ⟨written, hwrite, hseal⟩
  · have hnode := (hstands.sealedWith checksum).exists_node (by omega) hsized address
    rwa [hsealed] at hnode

end NodeContents

/-! ### Blocks one after the other -/

namespace Bytes

variable {blocks : List ByteArray} {size : Nat} (hblocks : ∀ block ∈ blocks, block.size = size)

/-- The bytes of blocks, one after the other. -/
def joined : List ByteArray → ByteArray
  | [] => .empty
  | block :: blocks => block ++ joined blocks

include hblocks

theorem size_joined : (joined blocks).size = blocks.length * size := by
  induction blocks with
  | nil =>
    rw [List.length_nil, Nat.zero_mul]
    rfl
  | cons block blocks ih =>
    obtain ⟨hblock, hrest⟩ := List.forall_mem_cons.mp hblocks
    rw [joined, ByteArray.size_append, hblock, ih hrest, List.length_cons, Nat.succ_mul,
      Nat.add_comm]

/-- Each block stands behind those before it. -/
theorem standsAt_joined {i : Nat} {block : ByteArray} (hi : blocks[i]? = some block) :
    StandsAt (joined blocks) (i * size) block := by
  induction blocks generalizing i with
  | nil => cases hi
  | cons first blocks ih =>
    obtain ⟨hfirst, hrest⟩ := List.forall_mem_cons.mp hblocks
    cases i with
    | zero =>
      obtain rfl : first = block := Option.some.inj hi
      rw [Nat.zero_mul]
      exact standsAt_zero _ _
    | succ i =>
      rw [joined, Nat.succ_mul, Nat.add_comm, ← hfirst, standsAt_append_left, hfirst]
      exact ih hrest hi

end Bytes

/-- A device gives the blocks of which its image is made. -/
theorem Device.read_joined {blocks : List ByteArray} {size : Nat} {d : Device}
    (hblocks : ∀ block ∈ blocks, block.size = size) (hlarge : blocks.length * size < 2 ^ 64)
    (hd : Device.ofImage (Bytes.joined blocks) 0 size = .ok d) {i : Nat} {block : ByteArray}
    (hi : blocks[i]? = some block) : d.read ⟨.ofNat i⟩ = .ok block := by
  have himage := Bytes.size_joined hblocks
  have hstands := Bytes.standsAt_joined hblocks hi
  have hle := hstands.le
  have hextract := hstands.extract_eq
  rw [hblocks block (List.mem_of_getElem? hi)] at hle hextract
  have hpositive : 0 < size := by
    by_contra hzero
    rw [Device.ofImage, if_pos (by omega)] at hd
    cases hd
  have hnumber : (UInt64.ofNat i).toNat = i := by
    apply UInt64.toNat_ofNat_of_lt
    have hmul : i ≤ i * size := Nat.le_mul_of_pos_right i hpositive
    show i < 2 ^ 64
    omega
  rw [Device.read_eq (by rw [himage]; exact hlarge) hd, blockOf]
  dsimp only
  rw [hnumber, Nat.succ_mul, UInt64.toNat_zero, Nat.zero_add, Nat.zero_add, if_pos hle, hextract]

/-! ### Trees -/

/-- A leaf with the given entries. -/
def leafContents (subtype : ObjectType) (entries : List Entry) : NodeContents where
  identifier := ⟨0⟩
  transaction := ⟨0⟩
  isRoot := false
  level := 0
  storage := .physical
  subtype := subtype
  treeFlags := .physical
  fixedSizes := none
  entries := entries

/-- A root above leaves, with the given entries. -/
def rootContents (subtype : ObjectType) (entries : List Entry) : NodeContents :=
  { leafContents subtype entries with isRoot := true, level := 1 }

/-- The index entries for leaves in the blocks from `first` on: each has the first key of its
    leaf. -/
def indexEntries (first : Nat) (parts : List (List Entry)) : List Entry :=
  parts.mapIdx fun i part =>
    ⟨(part.head?.map Entry.key).getD .empty, encoded (⟨.ofNat (first + i)⟩ : ObjectId)⟩

/-- The nodes of a tree in the blocks from `first` on: the root, and a leaf for each part. -/
def treeContents (subtype : ObjectType) (first : Nat) (parts : List (List Entry)) :
    List NodeContents :=
  rootContents subtype (indexEntries (first + 1) parts) :: parts.map (leafContents subtype)

/-- The blocks with the nodes of a tree. -/
def writeTree (subtype : ObjectType) (size first : Nat) (parts : List (List Entry)) :
    Except Error (List ByteArray) :=
  (treeContents subtype first parts).mapM fun c => c.writeSealed size

/-- The keys in the root are those of the first entries in the leaves, if no leaf is empty. -/
theorem forall₂_indexEntries {κ : Type} (key : ByteArray → κ) {first : Nat}
    {parts : List (List Entry)} (h : ∀ part ∈ parts, 0 < part.length) :
    List.Forall₂ (fun entry part => ∃ e rest, part = e :: rest ∧ key entry.key = key e.key)
      (indexEntries first parts) parts := by
  rw [List.forall₂_iff_get]
  refine ⟨List.length_mapIdx, fun i hi hi' => ?_⟩
  obtain ⟨e, rest, hpart⟩ : ∃ e rest, parts[i] = e :: rest :=
    List.exists_cons_of_length_pos (h _ (List.getElem_mem hi'))
  refine ⟨e, rest, hpart, ?_⟩
  simp [indexEntries, hpart]

/-- A block that can be read and holds its own checksum is read verified. -/
theorem outcome_readVerified {σ : Type} {reader : BlockReader σ} {address : BlockAddress}
    {data : ByteArray} {s : σ} (hread : outcome (reader.read address) s = .ok data)
    (hverify : verifyChecksum data = .ok ()) :
    outcome (reader.readVerified address) s = .ok ⟨address, data⟩ := by
  have hblock : outcome (reader.readBlock address) s = .ok ⟨address, data⟩ := by
    rw [BlockReader.readBlock, outcome_bind, hread]
    rfl
  rw [BlockReader.readVerified, outcome_bind, hblock]
  dsimp only
  rw [Block.verify, lift_bind_of_ok hverify]
  rfl

/-- A child is found if its block can be read and passes all checks. -/
theorem child_of_read {σ : Type} {S : Storage σ} {t : Tree} {parent child : Node} {entry : Entry}
    {id : ObjectId} {data : ByteArray} {s : σ} (hs : S.Valid s) (hid : entry.childId = .ok id)
    (hphysical : t.info.parameters.childStorage = .physical)
    (hread : outcome (S.reader.read id.toAddress) s = .ok data)
    (hverify : verifyChecksum data = .ok ())
    (hchild : Node.ofBlock ⟨id.toAddress, data⟩ = .ok child)
    (hlevel : child.header.level.toNat + 1 = parent.header.level.toNat)
    (hsubtype : child.header.object.subtype = t.root.header.object.subtype) :
    S.Child t parent entry child := by
  refine ⟨s, hs, ?_⟩
  rw [Tree.child, lift_bind_of_ok hid, Tree.childAddress, hphysical]
  dsimp only
  rw [pure_bind, outcome_bind, outcome_readVerified hread hverify]
  dsimp only
  rw [lift_bind_of_ok hchild, if_neg (not_not.mpr hlevel), if_neg (not_not.mpr hsubtype)]
  rfl

/-- The blocks hold the tree: its root is in the first of them, and where they are read from `first`
    on, the entries of the root lead to leaves. -/
structure Tree.InBlocks (t : Tree) (subtype : ObjectType) (first : Nat)
    (parts : List (List Entry)) (blocks : List ByteArray) : Prop where
  subtype : t.root.header.object.subtype = .ofParts subtype .empty
  root : ∃ block, blocks[0]? = some block ∧ verifyChecksum block = .ok () ∧
    Tree.ofBlock ⟨⟨.ofNat first⟩, block⟩ = .ok t
  leaves : ∀ {σ : Type} (S : Storage σ), (∀ i block, blocks[i]? = some block →
    ∃ s, S.Valid s ∧ outcome (S.reader.read ⟨.ofNat (first + i)⟩) s = .ok block) →
    S.HasLeaves t (indexEntries (first + 1) parts) parts

/-- **A tree that fits is written**, and found in the blocks. -/
theorem exists_writeTree {subtype : ObjectType} {size first : Nat} {parts : List (List Entry)}
    (hfits : ∀ c ∈ treeContents subtype first parts, c.requiredSize ≤ size)
    (hsize : size ≤ 65536) (hlength : size % 4 = 0) :
    ∃ (blocks : List ByteArray) (t : Tree), writeTree subtype size first parts = .ok blocks ∧
      blocks.length = parts.length + 1 ∧ (∀ block ∈ blocks, block.size = size) ∧
      t.InBlocks subtype first parts blocks := by
  have hsized (c : NodeContents) (hc : c ∈ treeContents subtype first parts) : c.Sized := by
    intro sizes hsizes
    rcases List.mem_cons.mp hc with rfl | hc
    · cases hsizes
    · obtain ⟨part, -, rfl⟩ := List.mem_map.mp hc
      cases hsizes
  have hwrite (c : NodeContents) (hc : c ∈ treeContents subtype first parts) :=
    NodeContents.exists_writeSealed (hfits c hc) hsize hlength (hsized c hc)
  choose! block hblock hblockSize hverify hnode using hwrite
  have hroot : rootContents subtype (indexEntries (first + 1) parts) ∈
      treeContents subtype first parts := List.mem_cons_self
  obtain ⟨root, hrootNode, hrootRead⟩ := hnode _ hroot ⟨.ofNat first⟩
  refine ⟨(treeContents subtype first parts).map block,
    ⟨root, (rootContents subtype (indexEntries (first + 1) parts)).info size⟩, ?_, ?_, ?_,
    hrootRead.subtype, ?_, ?_⟩
  · rw [writeTree, mapM_eq_ok_iff, List.forall₂_map_right_iff, List.forall₂_same]
    exact hblock
  · rw [List.length_map, treeContents, List.length_cons, List.length_map]
  · intro b hb
    obtain ⟨c, hc, rfl⟩ := List.mem_map.mp hb
    exact hblockSize c hc
  · refine ⟨_, rfl, hverify _ hroot, ?_⟩
    rw [Tree.ofBlock, sequence_eq_ok_iff]
    refine ⟨root, hrootNode, ?_⟩
    rw [guarded_eq_ok_iff, hrootRead.type]
    refine ⟨fun hne => hne rfl, ?_⟩
    rw [sequence_eq_ok_iff]
    exact ⟨_, hrootRead.info, rfl⟩
  · intro σ S hreads
    refine ⟨hrootRead.isLeaf, hrootRead.entries _ (NodeContents.sizesIn_info _ _), ?_⟩
    rw [List.forall₂_iff_get]
    refine ⟨List.length_mapIdx, fun i hi hi' => ?_⟩
    have hleaf : leafContents subtype parts[i] ∈ treeContents subtype first parts :=
      List.mem_cons_of_mem _ (List.mem_map_of_mem (List.getElem_mem hi'))
    obtain ⟨s, hs, hread⟩ := hreads (i + 1) (block (leafContents subtype parts[i])) (by
      simp [treeContents, hi'])
    obtain ⟨leaf, hleafNode, hleafRead⟩ := hnode _ hleaf ⟨.ofNat (first + (i + 1))⟩
    refine ⟨leaf, ?_, hleafRead.isLeaf, hleafRead.entries _ (fun _ h => nomatch h)⟩
    have haddress : first + (i + 1) = first + 1 + i := by omega
    rw [haddress] at hread hleafNode
    refine child_of_read hs ?_ ?_ hread (hverify _ hleaf) hleafNode ?_ ?_
    · have hvalue : (indexEntries (first + 1) parts)[i].value
          = encoded (⟨.ofNat (first + 1 + i)⟩ : ObjectId) :=
        congrArg Entry.value (List.getElem_mapIdx ..)
      rw [List.get_eq_getElem, Entry.childId, hvalue]
      exact decode_of_standsAt (Bytes.standsAt_self _)
    · have hflags : TreeFlags.physical.contains .physical := by decide
      exact if_pos hflags
    · rw [hleafRead.level, hrootRead.level]
      rfl
    · rw [hleafRead.subtype, hrootRead.subtype]
      rfl

/-! ### Trees in images of their own -/

/-- A device that holds nothing but the blocks of a tree, and the tree. -/
def writtenTree (subtype : ObjectType) (size : Nat) (parts : List (List Entry)) :
    Except Error (Device × Tree) := do
  let blocks ← writeTree subtype size 0 parts
  let device ← Device.ofImage (Bytes.joined blocks) 0 size
  let root ← device.read ⟨0⟩
  return (device, ← Tree.ofBlock ⟨⟨0⟩, root⟩)

/-- **The tree in an image** has its leaves there. -/
theorem exists_writtenTree {subtype : ObjectType} {size : Nat} {parts : List (List Entry)}
    (hfits : ∀ c ∈ treeContents subtype 0 parts, c.requiredSize ≤ size) (hsize : size ≤ 65536)
    (hlength : size % 4 = 0) (hcount : (parts.length + 1) * size < 2 ^ 64) :
    ∃ d t, writtenTree subtype size parts = .ok (d, t) ∧
      d.source.storage.HasLeaves t (indexEntries 1 parts) parts ∧
      Device.ofImage d.image 0 size = .ok d ∧ d.image.size < 2 ^ 64 ∧
      ∃ block, blockOf d.image 0 size block.address = .ok block.data ∧
        Tree.ofBlock block = .ok t := by
  obtain ⟨blocks, t, hwrite, hblocks, hsizes, -, hroot, hleaves⟩ :=
    exists_writeTree hfits hsize hlength
  have hpositive : size ≠ 0 := by
    have hrequired := hfits _ List.mem_cons_self
    rw [NodeContents.requiredSize_eq, NodeContents.keyStart_eq, size_nodeHeader] at hrequired
    omega
  obtain ⟨d, hd⟩ : ∃ d, Device.ofImage (Bytes.joined blocks) 0 size = .ok d :=
    ⟨_, if_neg hpositive⟩
  have hown : d.image = Bytes.joined blocks := by
    rw [Device.ofImage, if_neg hpositive] at hd
    rw [← Except.ok.inj hd]
  have hlarge : blocks.length * size < 2 ^ 64 := by rwa [hblocks]
  obtain ⟨root, hfirst, -, htree⟩ := hroot
  have hread := Device.read_joined hsizes hlarge hd hfirst
  have himage : (Bytes.joined blocks).size < 2 ^ 64 := by rwa [Bytes.size_joined hsizes]
  refine ⟨d, t, ?_, ?_, hown ▸ hd, hown ▸ himage, ⟨⟨0⟩, root⟩, ?_, htree⟩
  · exact sequence_eq_ok_iff.mpr ⟨blocks, hwrite, sequence_eq_ok_iff.mpr ⟨d, hd,
      sequence_eq_ok_iff.mpr ⟨root, hread, sequence_eq_ok_iff.mpr ⟨t, htree, rfl⟩⟩⟩⟩
  · refine hleaves d.source.storage fun i block hi => ⟨(), trivial, ?_⟩
    rw [Nat.zero_add]
    exact (outcome_lift ..).trans (Device.read_joined hsizes hlarge hd hi)
  · rw [hown, ← hread]
    exact (Device.read_eq himage hd _).symm

end Apfs
