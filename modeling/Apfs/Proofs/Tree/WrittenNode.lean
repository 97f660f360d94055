import Apfs.Proofs.Object.Sealing
import Apfs.Proofs.Tree.Areas
import Apfs.Proofs.Tree.Floor
import Apfs.Proofs.Tree.Writing

namespace Apfs

/-!
# Nodes read back as written

What is written to a block of at most 65536 bytes is read from it again.  Then all offsets and
lengths have 16 bits, and as the header takes some of the bytes, no value is as far from the end as
the offset that stands for a missing value says.

* `NodeContents.Sized`, `NodeContents.SizesIn` — keys and values have the fixed sizes, and the
  information about a tree gives those sizes.
* `NodeContents.ReadAs` — a node from which everything is read back.
* `NodeContents.nodeIn` — the node that is read from the block.
* `NodeContents.StandsIn.ofBlock` — a block in which a node stands is accepted.
* `NodeContents.StandsIn.entry_node` — an entry is read back.
* `write_reads_back` — when a node is written, and what is read from it then.
-/

namespace NodeContents

variable (c : NodeContents)

/-- If sizes are fixed, all keys and values have them.  The values of an index node are as long as
    identifiers, whatever the size says. -/
def Sized : Prop :=
  ∀ sizes ∈ c.fixedSizes, ∀ e ∈ c.entries, e.key.size = sizes.1.toNat ∧
    e.value.size = if c.level = 0 then sizes.2.toNat else childValueSize

/-- If sizes are fixed, they are those in the information about the tree. -/
def SizesIn (info : TreeInfo) : Prop :=
  ∀ sizes ∈ c.fixedSizes, info.parameters.keySize = sizes.1 ∧ info.parameters.valueSize = sizes.2

theorem sizesIn_info (nodeSize : Nat) : c.SizesIn (c.info nodeSize) := by
  intro sizes h
  unfold info
  rw [Option.mem_def.mp h]
  exact ⟨rfl, rfl⟩

/-! ### The header -/

/-- Of three flags, exactly those are there that were put there. -/
theorem contains_flags (isRoot isLeaf isFixedSize : Bool) :
    let root : NodeFlags := if isRoot then .root else ⟨0⟩
    let leaf : NodeFlags := if isLeaf then .leaf else ⟨0⟩
    let fixedSize : NodeFlags := if isFixedSize then .fixedSize else ⟨0⟩
    let flags := (root.union leaf).union fixedSize
    flags.contains .root = isRoot ∧ flags.contains .leaf = isLeaf ∧
      flags.contains .fixedSize = isFixedSize := by
  revert isRoot isLeaf isFixedSize
  decide

/-- The type that is read from a word is the one that it was packed with, cut to its half. -/
theorem objectType_ofParts (type : ObjectType) (flags : ObjectFlags) :
    (TypeWord.ofParts type flags).objectType = ⟨type.code &&& TypeWord.typeMask⟩ := by
  -- Flags have no bits in the half of the word that is for the type.
  have hflags : TypeWord.flagsMask.toBitVec &&& TypeWord.typeMask.toBitVec = 0#32 := by decide
  apply congrArg ObjectType.mk
  apply UInt32.toBitVec_inj.mp
  simp only [TypeWord.ofParts, UInt32.toBitVec_and, UInt32.toBitVec_or, BitVec.and_or_distrib_right,
    BitVec.and_assoc, hflags, BitVec.and_self, BitVec.and_zero, BitVec.or_zero]

/-- The header of a node says that it is one. -/
theorem objectType_header (checksum : UInt64) (keyBytes freeBytes : Nat) :
    (c.headerWith checksum keyBytes freeBytes).object.type.objectType =
      if c.isRoot then .treeRoot else .treeNode := by
  unfold headerWith header
  dsimp only
  rw [objectType_ofParts]
  cases c.isRoot <;> rfl

/-- The header of the object stands in front of the rest of the header of the node. -/
theorem standsAt_object {data : ByteArray} {h : NodeHeader}
    (hstands : Bytes.StandsAt data 0 (encoded h)) : Bytes.StandsAt data 0 (encoded h.object) := by
  obtain ⟨rest, hrest⟩ : ∃ rest, Layout.toBytes h = Layout.toBytes h.object ++ rest := ⟨_, rfl⟩
  have hsplit : encoded h = encoded h.object ++ ⟨rest.toArray⟩ := by
    apply ByteArray.ext
    simp [encoded, hrest]
  rw [hsplit] at hstands
  exact (Bytes.standsAt_append.mp hstands).1

/-! ### Reading back -/

/-- What was given is read from the node again.  The block of the node has `size` bytes. -/
structure ReadAs (size : Nat) (node : Node) : Prop where
  info : node.info = .ok (if c.isRoot then some (c.info size) else none)
  entries : ∀ info, c.SizesIn info → node.HasEntries info c.entries
  identifier : node.header.object.identifier = c.identifier
  transaction : node.header.object.transaction = c.transaction
  type : node.header.object.type.objectType = if c.isRoot then .treeRoot else .treeNode
  subtype : node.header.object.subtype = .ofParts c.subtype .empty
  level : node.header.level = c.level
  isLeaf : node.header.isLeaf = decide (c.level = 0)

/-- The node in the block, with the header that was written to it. -/
def nodeIn (written : ByteArray) (address : BlockAddress) (checksum : UInt64)
    (keyBytes freeBytes : Nat) : Node :=
  ⟨⟨address, written⟩, c.headerWith checksum keyBytes freeBytes⟩

theorem kinds_nodeIn (written : ByteArray) (address : BlockAddress) (checksum : UInt64)
    (keyBytes freeBytes : Nat) :
    let node := c.nodeIn written address checksum keyBytes freeBytes
    node.header.isRoot = c.isRoot ∧ node.header.isLeaf = decide (c.level = 0) ∧
      node.header.isFixedSize = c.fixedSizes.isSome := by
  have hkinds := contains_flags c.isRoot (decide (c.level = 0)) c.fixedSizes.isSome
  simp only [decide_eq_true_eq] at hkinds
  exact hkinds

theorem data_nodeIn (written : ByteArray) (address : BlockAddress) (checksum : UInt64)
    (keyBytes freeBytes : Nat) :
    (c.nodeIn written address checksum keyBytes freeBytes).data = written := rfl

theorem span_of_le {n : Node} {start length : Nat} {fault : NodeFault}
    (h : start + length ≤ n.data.size) :
    n.span start length fault = .ok (n.data.extract start (start + length)) := by
  rw [Node.span, Bytes.slice?, if_pos h]

section

variable {c} {written : ByteArray} (h : c.StandsIn written) (hsize : written.size ≤ 65536)
include h hsize

/-- Everything that the node counts can be counted in 16 bits. -/
theorem StandsIn.bounds : c.entries.length ≤ c.tableSize ∧ c.tableSize < 65536 ∧
    c.keyStart + c.keyBytes c.entries.length + c.valueBytes c.entries.length + c.infoSize ≤
      written.size ∧ c.keyStart = 56 + c.tableSize := by
  have hfits := h.fits
  rw [requiredSize_eq] at hfits
  have hstart : c.keyStart = 56 + c.tableSize := rfl
  have hline : 1 ≤ c.tableEntrySize := by
    unfold tableEntrySize
    split <;> decide
  have hlines : c.entries.length * 1 ≤ c.tableSize := Nat.mul_le_mul_left _ hline
  omega

variable (address : BlockAddress) (checksum : UInt64) (keyBytes freeBytes : Nat)

theorem StandsIn.size_node :
    (c.nodeIn written address checksum keyBytes freeBytes).size = c.entries.length := by
  obtain ⟨hlength, htable, -⟩ := h.bounds hsize
  exact UInt32.toNat_ofNat_of_lt (by show _ < 2 ^ 32; omega)

/-- The table of contents is where it was written. -/
theorem StandsIn.table_node :
    (c.nodeIn written address checksum keyBytes freeBytes).keyStart = c.keyStart ∧
      (c.nodeIn written address checksum keyBytes freeBytes).table =
        .ok (written.extract 56 c.keyStart) := by
  obtain ⟨hlength, htable, hfits, hstart⟩ := h.bounds hsize
  -- The table is small enough for its size to be counted in 16 bits.
  have htableLength : (UInt16.ofNat c.tableSize).toNat = c.tableSize :=
    UInt16.toNat_ofNat_of_lt (by show _ < 2 ^ 16; omega)
  have hnodeStart :
      (c.nodeIn written address checksum keyBytes freeBytes).keyStart = c.keyStart := by
    show 56 + 0 + (UInt16.ofNat c.tableSize).toNat = c.keyStart
    omega
  have hline :
      (c.nodeIn written address checksum keyBytes freeBytes).tableEntrySize
        = c.tableEntrySize := by
    unfold Node.tableEntrySize tableEntrySize
    rw [(c.kinds_nodeIn written address checksum keyBytes freeBytes).2.2]
  have hspan : (c.nodeIn written address checksum keyBytes freeBytes).span
      (c.nodeIn written address checksum keyBytes freeBytes).tableStart
      (c.headerWith checksum keyBytes freeBytes).table.length.toNat .tableBounds =
        .ok (written.extract 56 c.keyStart) := by
    have hstop : 56 + (UInt16.ofNat c.tableSize).toNat = c.keyStart := by omega
    rw [← hstop]
    exact span_of_le (by show 56 + (UInt16.ofNat c.tableSize).toNat ≤ written.size; omega)
  refine ⟨hnodeStart, ?_⟩
  have hroom : (written.extract 56 c.keyStart).size = c.entries.length * c.tableEntrySize := by
    have htableSize : c.tableSize = c.entries.length * c.tableEntrySize := rfl
    rw [ByteArray.size_extract]
    omega
  rw [Node.table_eq_ok_iff, h.size_node hsize, hline, hroom]
  exact ⟨hspan, Nat.le_refl _⟩

/-- A block in which a node stands is accepted. -/
theorem StandsIn.ofBlock :
    ∃ checksum keyBytes freeBytes, Node.ofBlock ⟨address, written⟩ =
      .ok (c.nodeIn written address checksum keyBytes freeBytes) := by
  obtain ⟨checksum, keyBytes, freeBytes, hheader⟩ := h.header
  refine ⟨checksum, keyBytes, freeBytes, ?_⟩
  have hobject : Block.header ⟨address, written⟩ =
      .ok (c.headerWith checksum keyBytes freeBytes).object :=
    decode_of_standsAt (standsAt_object hheader)
  have htypes : Block.expectTypes ⟨address, written⟩ [.treeRoot, .treeNode]
      (c.headerWith checksum keyBytes freeBytes).object.subtype.objectType =
        .ok (c.headerWith checksum keyBytes freeBytes).object := by
    refine expectTypes_eq_ok_iff.mpr ⟨hobject, ?_, rfl⟩
    rw [objectType_header]
    cases c.isRoot <;> decide
  rw [Node.ofBlock, sequence_eq_ok_iff]
  refine ⟨_, hobject, ?_⟩
  rw [sequence_eq_ok_iff]
  refine ⟨_, htypes, ?_⟩
  rw [sequence_eq_ok_iff]
  refine ⟨_, decode_of_standsAt hheader, ?_⟩
  rw [sequence_eq_ok_iff]
  exact ⟨_, (h.table_node hsize address checksum keyBytes freeBytes).2, rfl⟩

/-- The values end, and the information about the tree is read, where they were written. -/
theorem StandsIn.valueEnd_node :
    (c.nodeIn written address checksum keyBytes freeBytes).valueEnd =
      .ok (written.size - c.infoSize) := by
  obtain ⟨hlength, htable, hfits, hstart⟩ := h.bounds hsize
  rw [Node.valueEnd, (c.kinds_nodeIn written address checksum keyBytes freeBytes).1, data_nodeIn]
  unfold infoSize at *
  cases hroot : c.isRoot with
  | false => rfl
  | true =>
    rw [hroot, if_pos rfl] at hfits
    rw [if_pos rfl, if_pos rfl, if_neg (by omega)]

theorem StandsIn.info_node :
    (c.nodeIn written address checksum keyBytes freeBytes).info =
      .ok (if c.isRoot then some (c.info written.size) else none) := by
  rw [Node.info, sequence_eq_ok_iff]
  refine ⟨_, h.valueEnd_node hsize address checksum keyBytes freeBytes, ?_⟩
  rw [(c.kinds_nodeIn written address checksum keyBytes freeBytes).1, data_nodeIn]
  cases hroot : c.isRoot with
  | false => rfl
  | true =>
    rw [if_pos rfl, if_pos rfl, sequence_eq_ok_iff]
    exact ⟨_, decodeAt_of_standsAt (h.info hroot), rfl⟩

/-! ### Entries -/

variable {info : TreeInfo} (hsized : c.Sized) (hinfo : c.SizesIn info)
include hsized hinfo

/-- The places of an entry are read from the table as they were written to it. -/
theorem StandsIn.places_node {i : Nat} {e : Entry} (he : c.entries[i]? = some e) :
    (c.nodeIn written address checksum keyBytes freeBytes).places
        (written.extract 56 c.keyStart) i info =
      .ok ⟨c.keyBytes i, e.key.size, UInt16.ofNat (c.valueBytes (i + 1)), e.value.size⟩ := by
  obtain ⟨hlength, htable, hfits, hstart⟩ := h.bounds hsize
  obtain ⟨-, ⟨hkey, hkeys⟩, ⟨hvalue, hvalues⟩, hline⟩ := shares_of_entry he
  have hcount {n : Nat} (hn : n < 65536) : (UInt16.ofNat n).toNat = n :=
    UInt16.toNat_ofNat_of_lt hn
  -- The line stands in the table, at the same place if that is counted from its start.
  have hentry : Bytes.StandsAt (written.extract 56 c.keyStart) (i * c.tableEntrySize)
      (c.tableEntry (c.keyBytes i) (c.valueBytes (i + 1)) e) := by
    apply (h.entries i e he).table.extract
    rw [size_tableEntry, size_nodeHeader]
    omega
  obtain ⟨-, hleaf, hfixed⟩ := c.kinds_nodeIn written address checksum keyBytes freeBytes
  unfold Node.places Node.tableEntrySize
  dsimp only
  rw [hleaf, hfixed]
  unfold tableEntry tableEntrySize at hentry
  cases hsizes : c.fixedSizes with
  | none =>
    rw [hsizes] at hentry
    rw [if_neg (by decide), if_neg (by decide), sequence_eq_ok_iff]
    refine ⟨_, decodeAt_of_standsAt hentry, ?_⟩
    dsimp only
    rw [hcount (by omega), hcount (by omega), hcount (by omega)]
    rfl
  | some sizes =>
    rw [hsizes] at hentry
    rw [if_pos Option.isSome_some, if_pos Option.isSome_some, sequence_eq_ok_iff]
    refine ⟨_, decodeAt_of_standsAt hentry, ?_⟩
    -- The line only has the offsets.  The lengths are those that the tree has for all entries.
    obtain ⟨hkeySize, hvalueSize⟩ := hsized sizes hsizes e (List.mem_of_getElem? he)
    obtain ⟨hinfoKey, hinfoValue⟩ := hinfo sizes hsizes
    dsimp only
    rw [hcount (by omega), hinfoKey, hinfoValue, ← hkeySize]
    simp only [decide_eq_true_eq]
    rw [← hvalueSize]
    rfl

/-- **An entry is read back** as it was written. -/
theorem StandsIn.entry_node {i : Nat} {e : Entry} (he : c.entries[i]? = some e) :
    (c.nodeIn written address checksum keyBytes freeBytes).entry i info = .ok e := by
  obtain ⟨hlength, htable, hfits, hstart⟩ := h.bounds hsize
  obtain ⟨hi, -, ⟨-, hvalues⟩, -⟩ := shares_of_entry he
  have hoffset : (UInt16.ofNat (c.valueBytes (i + 1))).toNat = c.valueBytes (i + 1) :=
    UInt16.toNat_ofNat_of_lt (by show _ < 2 ^ 16; omega)
  -- The header leaves the values fewer bytes than the offset of a missing value counts.
  have hnotMissing : UInt16.ofNat (c.valueBytes (i + 1)) ≠ noValueOffset := by
    intro heq
    rw [heq] at hoffset
    have hmissing : noValueOffset.toNat = 65535 := rfl
    omega
  obtain ⟨hnodeStart, hnodeTable⟩ := h.table_node hsize address checksum keyBytes freeBytes
  have hstands := h.entries i e he
  rw [Node.entry, guarded_eq_ok_iff, h.size_node hsize]
  refine ⟨by omega, ?_⟩
  simp only [sequence_eq_ok_iff]
  refine ⟨_, hnodeTable, _, h.valueEnd_node hsize address checksum keyBytes freeBytes, _,
    h.places_node hsize address checksum keyBytes freeBytes hsized hinfo he, e.key, ?_, ?_⟩
  · rw [hnodeStart]
    exact Node.span_eq_ok_iff.mpr ⟨rfl, hstands.key⟩
  · dsimp only
    rw [if_neg hnotMissing, guarded_eq_ok_iff, hoffset, sequence_eq_ok_iff]
    exact ⟨by omega, e.value, Node.span_eq_ok_iff.mpr ⟨rfl, hstands.value⟩, rfl⟩

end

/-- **A node that stands in a block is read from it.** -/
theorem StandsIn.exists_node {c : NodeContents} {written : ByteArray} (h : c.StandsIn written)
    (hsize : written.size ≤ 65536) (hsized : c.Sized) (address : BlockAddress) :
    ∃ node, Node.ofBlock ⟨address, written⟩ = .ok node ∧ c.ReadAs written.size node := by
  obtain ⟨checksum, keyBytes, freeBytes, hnode⟩ := h.ofBlock hsize address
  have hleaf := (c.kinds_nodeIn written address checksum keyBytes freeBytes).2.1
  refine ⟨_, hnode, h.info_node hsize address checksum keyBytes freeBytes, fun info hinfo => ?_,
    rfl, rfl, c.objectType_header checksum keyBytes freeBytes, rfl, rfl, hleaf⟩
  exact ⟨(h.size_node hsize address checksum keyBytes freeBytes).symm, fun i e he =>
    h.entry_node hsize address checksum keyBytes freeBytes hsized hinfo he⟩

end NodeContents

/-- **Nodes read back as written.**  A node is written exactly if everything fits in the block, and
    then the block is accepted as a node that has the entries, the identifier, the transaction and
    the level that were given, and as a root the information about the tree, with the flags and the
    sizes that were given. -/
theorem write_reads_back (c : NodeContents) {block : ByteArray}
    (hblock : block.size ≤ 65536) :
    ((∃ written, c.write block = .ok written) ↔ c.requiredSize ≤ block.size) ∧
      ∀ written address, c.write block = .ok written → c.Sized →
        ∃ node, Node.ofBlock ⟨address, written⟩ = .ok node ∧
          node.info = .ok (if c.isRoot then some (c.info block.size) else none) ∧
          (c.info block.size).parameters.flags = c.treeFlags ∧ c.SizesIn (c.info block.size) ∧
          (∀ info, node.info = .ok (some info) ∨ c.SizesIn info → node.HasEntries info c.entries) ∧
          node.header.object.identifier = c.identifier ∧
          node.header.object.transaction = c.transaction ∧ node.header.level = c.level := by
  constructor
  · constructor
    · rintro ⟨written, hwrite⟩
      exact c.requiredSize_le_of_write hwrite
    · intro hfits
      obtain ⟨written, hwrite, -⟩ := c.exists_write_of_le hfits
      exact ⟨written, hwrite⟩
  · intro written address hwrite hsized
    obtain ⟨written', hwrite', hsize, hstands⟩ :=
      c.exists_write_of_le (c.requiredSize_le_of_write hwrite)
    obtain rfl : written = written' := Except.ok.inj (hwrite.symm.trans hwrite')
    rw [← hsize] at hblock ⊢
    obtain ⟨node, hnode, hread⟩ := hstands.exists_node hblock hsized address
    refine ⟨node, hnode, hread.info, rfl, c.sizesIn_info _, fun info hsizes => ?_,
      hread.identifier, hread.transaction, hread.level⟩
    apply hread.entries
    obtain hown | hsizesIn := hsizes
    · rw [hread.info] at hown
      split at hown
      · rw [← Option.some.inj (Except.ok.inj hown)]
        exact c.sizesIn_info _
      · cases Except.ok.inj hown
    · exact hsizesIn

/-- A root that is a leaf, with two entries whose keys and values have different sizes. -/
def twoEntries : NodeContents where
  identifier := ⟨5⟩
  transaction := ⟨7⟩
  isRoot := true
  level := 0
  storage := .physical
  subtype := .objectMap
  treeFlags := .physical
  fixedSizes := none
  entries := [⟨⟨#[1, 2, 3]⟩, ⟨#[4]⟩⟩, ⟨⟨#[5]⟩, ⟨#[6, 7]⟩⟩]

/-- A block that is just large enough, and one that is not. -/
theorem write_reads_back_twoEntries :
    twoEntries.Sized ∧ twoEntries.requiredSize = 119 ∧
      (∃ written node, twoEntries.write (Bytes.zeros 119) = .ok written ∧
        Node.ofBlock ⟨⟨9⟩, written⟩ = .ok node ∧ node.info = .ok (some (twoEntries.info 119)) ∧
        node.HasEntries (twoEntries.info 119) twoEntries.entries) ∧
      ¬ ∃ written, twoEntries.write (Bytes.zeros 118) = .ok written := by
  have hsize (n : Nat) (hn : n ≤ 119) : (Bytes.zeros n).size ≤ 65536 := by
    rw [Bytes.size_zeros]
    omega
  have hsized : twoEntries.Sized := fun _ hsizes => nomatch hsizes
  have hrequired : twoEntries.requiredSize = 119 := by decide
  obtain ⟨hfits, hread⟩ := @write_reads_back twoEntries (Bytes.zeros 119) (hsize 119 (by decide))
  obtain ⟨hfits', -⟩ := @write_reads_back twoEntries (Bytes.zeros 118) (hsize 118 (by decide))
  rw [hrequired, Bytes.size_zeros] at hfits hfits'
  obtain ⟨written, hwrite⟩ := hfits.mpr (Nat.le_refl _)
  obtain ⟨node, hnode, hinfo, -, -, hentries, -⟩ := hread written ⟨9⟩ hwrite hsized
  have hroot : twoEntries.isRoot = true := rfl
  rw [if_pos hroot, Bytes.size_zeros] at hinfo
  exact ⟨hsized, hrequired, ⟨written, node, hwrite, hnode, hinfo, hentries _ (.inl hinfo)⟩,
    fun h => absurd (hfits'.mp h) (by decide)⟩

end Apfs
