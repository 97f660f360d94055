import Apfs.Proofs.ObjectMap.Agreement
import Apfs.Proofs.Tree.WrittenTree

namespace Apfs

/-!
# Object maps read back as written

An object map is written to blocks of one size: its header, and behind it the tree of its mappings.
On a device of these blocks it is opened, and its tree has the leaves that were given.

* `ObjectMapHeader.withChecksum` — a header with a checksum, which only changes its front.
* `exists_writtenHeader` — a header is read back from a block that was sealed.
* `expectTypes_of_ofBlock` — the root of a tree has the types that its tree wants.
* `writtenMapHeader`, `writeMap` — the header, and all blocks of an object map.
* `exists_writeMap` — the object map that was written is opened.
-/

/-! ### Headers -/

/-- The header with a checksum. -/
def ObjectMapHeader.withChecksum (h : ObjectMapHeader) (checksum : UInt64) : ObjectMapHeader :=
  { h with object := { h.object with checksum } }

/-- A checksum only changes the front of the header. -/
theorem exists_encoded_withChecksum (h : ObjectMapHeader) :
    ∃ rest, ∀ checksum, encoded (h.withChecksum checksum) = encoded checksum ++ rest :=
  ⟨⟨((Layout.toBytes h).drop checksumSize).toArray⟩, fun _ => rfl⟩

/-- The header of the object is in front. -/
theorem exists_encoded_object (h : ObjectMapHeader) :
    ∃ rest, encoded h = encoded h.object ++ rest :=
  ⟨⟨((Layout.toBytes h).drop (Layout.size ObjectHeader)).toArray⟩, rfl⟩

/-- **A header is read back** from a block that was sealed. -/
theorem exists_writtenHeader (h : ObjectMapHeader) {size : Nat}
    (hsize : Layout.size ObjectMapHeader ≤ size) (hlength : size % 4 = 0) :
    ∃ plain block checksum, encode h (Bytes.zeros size) = .ok plain ∧
      sealObject plain = .ok block ∧ block.size = size ∧ verifyChecksum block = .ok () ∧
      decode block = .ok (h.withChecksum checksum) ∧
      decode block = .ok (h.withChecksum checksum).object := by
  have hroom : 0 + (encoded h).size ≤ (Bytes.zeros size).size := by
    rw [size_encoded, Bytes.size_zeros, Nat.zero_add]
    exact hsize
  have hplain := Bytes.size_overlay hroom
  rw [Bytes.size_zeros] at hplain
  have hlarge : checksumSize ≤ (Bytes.overlay (Bytes.zeros size) 0 (encoded h)).size := by
    rw [hplain]
    exact le_trans (by decide) hsize
  obtain ⟨checksum, hseal, -, hverify⟩ := exists_sealed hlarge (by rw [hplain]; exact hlength)
  obtain ⟨rest, hfront⟩ := exists_encoded_withChecksum h
  have hstands := standsAt_sealedWith_header hlarge checksum hfront (Bytes.standsAt_overlay hroom)
  refine ⟨_, _, checksum, encode_eq_ok h ?_, hseal, (size_sealedWith hlarge _).trans hplain,
    hverify, decode_of_standsAt hstands, ?_⟩
  · rw [Bytes.size_zeros]
    exact hsize
  · obtain ⟨others, hobject⟩ := exists_encoded_object (h.withChecksum checksum)
    rw [hobject, Bytes.standsAt_append] at hstands
    exact decode_of_standsAt hstands.1

/-! ### Object maps -/

/-- The header of an object map whose tree has its root in block 1. -/
def writtenMapHeader : ObjectMapHeader where
  object := ⟨0, ⟨0⟩, ⟨0⟩, ObjectMap.typeWord, ⟨0⟩⟩
  flags := ⟨0⟩
  snapshotCount := 0
  treeType := .ofParts .treeRoot .physical
  snapshotTreeType := ⟨0⟩
  tree := ⟨1⟩
  snapshotTree := ⟨0⟩
  latestSnapshot := ⟨0⟩
  revertFirst := ⟨0⟩
  revertLast := ⟨0⟩

/-- The blocks of an object map whose tree has leaves with the given entries. -/
def writeMap (size : Nat) (parts : List (List Entry)) : Except Error (List ByteArray) := do
  let header ← sealObject (← encode writtenMapHeader (Bytes.zeros size))
  return header :: (← writeTree .objectMap size 1 parts)

/-- The block of a root has the type of one, and the subtype of its tree. -/
theorem expectTypes_of_ofBlock {block : Block} {t : Tree} (h : Tree.ofBlock block = .ok t) :
    ∃ header, block.expectTypes [.treeRoot] t.root.header.object.subtype.objectType
      = .ok header := by
  obtain ⟨root, hnode, h⟩ := sequence_eq_ok_iff.mp h
  obtain ⟨htype, h⟩ := guarded_eq_ok_iff.mp h
  obtain ⟨info, -, h⟩ := sequence_eq_ok_iff.mp h
  obtain ⟨-, hheader, -⟩ := Node.header_and_table_of_ofBlock hnode
  cases info with
  | none => cases h
  | some info =>
    obtain rfl := Except.ok.inj h
    have hobject := decode_of_standsAt (NodeContents.standsAt_object (standsAt_of_decode hheader))
    refine ⟨_, expectTypes_eq_ok_iff.mpr ⟨hobject, ?_, rfl⟩⟩
    exact List.mem_singleton.mpr (not_not.mp htype)

/-- **An object map that fits is written**, and opened on a device of its blocks. -/
theorem exists_writeMap {size : Nat} {parts : List (List Entry)}
    (hfits : ∀ c ∈ treeContents .objectMap 1 parts, c.requiredSize ≤ size) (hsize : size ≤ 65536)
    (hlength : size % 4 = 0) (hcount : (parts.length + 2) * size < 2 ^ 64) :
    ∃ blocks m, writeMap size parts = .ok blocks ∧ blocks.length = parts.length + 2 ∧
      ∀ d, Device.ofImage (Bytes.joined blocks) 0 size = .ok d →
        (∃ block, d.read ⟨0⟩ = .ok block) ∧
          outcome (ObjectMap.ofAddress d.reader ⟨0⟩) () = .ok m ∧
          d.source.storage.HasLeaves m.tree (indexEntries 2 parts) parts := by
  obtain ⟨nodes, t, hwrite, hnodes, hsizes, hsubtype, ⟨root, hfirst, hverify, htree⟩, hleaves⟩ :=
    exists_writeTree hfits hsize hlength
  have hlarge : Layout.size ObjectMapHeader ≤ size := by
    have hrequired := hfits _ List.mem_cons_self
    have hinfo : (rootContents .objectMap (indexEntries (1 + 1) parts)).infoSize = 40 := rfl
    have hheader : Layout.size ObjectMapHeader = 88 := rfl
    rw [NodeContents.requiredSize_eq, NodeContents.keyStart_eq, size_nodeHeader] at hrequired
    omega
  obtain ⟨plain, block, checksum, hencode, hseal, hblock, hverify', hdecode, hobject⟩ :=
    exists_writtenHeader writtenMapHeader hlarge hlength
  have hall : ∀ b ∈ block :: nodes, b.size = size := List.forall_mem_cons.mpr ⟨hblock, hsizes⟩
  refine ⟨block :: nodes, ⟨writtenMapHeader.withChecksum checksum, t⟩, ?_, ?_, fun d hd => ?_⟩
  · exact sequence_eq_ok_iff.mpr ⟨plain, hencode, sequence_eq_ok_iff.mpr ⟨block, hseal,
      sequence_eq_ok_iff.mpr ⟨nodes, hwrite, rfl⟩⟩⟩
  · rw [List.length_cons, hnodes]
  · have hread {i : Nat} {b : ByteArray} (hi : (block :: nodes)[i]? = some b) :
        outcome (d.reader.read ⟨.ofNat i⟩) () = .ok b :=
      (outcome_lift ..).trans
        (Device.read_joined hall (by rw [List.length_cons, hnodes]; exact hcount) hd hi)
    refine ⟨⟨block, (outcome_lift ..).symm.trans (hread rfl)⟩, ?_, ?_⟩
    · have hheader : outcome (d.reader.readVerified ⟨0⟩) () = .ok ⟨⟨0⟩, block⟩ :=
        outcome_readVerified (hread (i := 0) rfl) hverify'
      have hroot : outcome (d.reader.readVerified ⟨1⟩) () = .ok ⟨⟨1⟩, root⟩ :=
        outcome_readVerified (hread (i := 1) hfirst) hverify
      obtain ⟨found, hfound⟩ : ∃ found, Block.expectTypes ⟨⟨1⟩, root⟩ [.treeRoot] .objectMap
          = .ok found := by
        have htypes := expectTypes_of_ofBlock htree
        rwa [hsubtype] at htypes
      have hwords : Block.expectWords ⟨⟨0⟩, block⟩ ObjectMap.typeWord ⟨0⟩
          = .ok (writtenMapHeader.withChecksum checksum).object :=
        expectWords_eq_ok_iff.mpr ⟨hobject, rfl, rfl⟩
      have hroot' : Tree.ofBlock ⟨⟨1⟩, root⟩ = .ok t := htree
      have haddress : (writtenMapHeader.withChecksum checksum).tree.toAddress = ⟨1⟩ := rfl
      rw [ofAddress_eq, outcome_bind, hheader]
      dsimp only
      rw [ObjectMap.ofVerified, lift_bind_of_ok hwords, lift_bind_of_ok hdecode, haddress,
        outcome_bind, hroot]
      dsimp only
      rw [lift_bind_of_ok hfound, lift_bind_of_ok hroot']
      rfl
    · refine hleaves d.source.storage fun i b hi => ⟨(), trivial, ?_⟩
      rw [Nat.add_comm]
      exact hread hi

end Apfs
