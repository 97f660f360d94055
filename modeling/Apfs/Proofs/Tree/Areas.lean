import Apfs.Proofs.Layout.Structures
import Apfs.Tree.Basic

namespace Apfs

/-!
# Where the keys and values of a node are

The keys of a node stand behind its table of contents and its values before the information about
the tree, if the node ends with that.  Reading an entry makes sure that its key and its value lie in
the node, but not that they lie in these areas.

* `Node.areaEnd`, `Node.InAreas` — the end of the values, and ranges between the start of the keys
  and there.
* `Node.exists_placesOf` — the table of an accepted node has places for each entry.
* `Node.readPlaces`, `Node.entry_eq` — the key and the value at given places are those of the entry.
* `Node.entry_inAreas_iff` — which entries can be read, and which of them lie in the areas.
* `longKeyBlock` — a block whose entry does not.
-/

namespace Node

/-- The offset just past the values of a node that is large enough for what follows them. -/
def areaEnd (n : Node) : Nat :=
  if n.header.isRoot then n.data.size - Layout.size TreeInfo else n.data.size

/-- The range lies between the start of the keys and the end of the values. -/
def InAreas (n : Node) (start length : Nat) : Prop :=
  n.keyStart ≤ start ∧ start + length ≤ n.areaEnd

/-- The table of contents gives these places for an entry. -/
def PlacesOf (n : Node) (info : TreeInfo) (i : Nat) (p : Places) : Prop :=
  ∃ table, n.table = .ok table ∧ n.places table i info = .ok p

/-- The key and the value at the places. -/
def readPlaces (n : Node) (p : Places) : Except Error Entry := do
  let key ← n.span (n.keyStart + p.keyOffset) p.keyLength .keyBounds
  if p.valueOffset = noValueOffset then return ⟨key, .empty⟩
  if n.areaEnd < p.valueOffset.toNat then throw (.node .valueOffset)
  return ⟨key, ← n.span (n.areaEnd - p.valueOffset.toNat) p.valueLength .valueBounds⟩

/-- The bytes of an entry stand at these places.  A place for no value stands for an empty one. -/
structure StandsAtPlaces (n : Node) (p : Places) (e : Entry) : Prop where
  key_size : e.key.size = p.keyLength
  key : Bytes.StandsAt n.data (n.keyStart + p.keyOffset) e.key
  missing : p.valueOffset = noValueOffset → e.value = .empty
  value : p.valueOffset ≠ noValueOffset → p.valueOffset.toNat ≤ n.areaEnd ∧
    e.value.size = p.valueLength ∧
      Bytes.StandsAt n.data (n.areaEnd - p.valueOffset.toNat) e.value

/-- The places of an entry are in the areas. -/
def EntryInAreas (n : Node) (p : Places) : Prop :=
  n.InAreas (n.keyStart + p.keyOffset) p.keyLength ∧
    (p.valueOffset ≠ noValueOffset →
      n.InAreas (n.areaEnd - p.valueOffset.toNat) p.valueLength)

/-! ### Accepted nodes -/

section

variable {block : Block} {n : Node}

theorem span_eq_ok_iff {start length : Nat} {fault : NodeFault} {bytes : ByteArray} :
    n.span start length fault = .ok bytes ↔
      bytes.size = length ∧ Bytes.StandsAt n.data start bytes := by
  unfold span
  constructor
  · intro h
    cases hslice : Bytes.slice? n.data start length with
    | some found =>
      rw [hslice] at h
      obtain rfl := Except.ok.inj h
      exact Bytes.standsAt_of_slice? hslice
    | none =>
      rw [hslice] at h
      cases h
  · rintro ⟨rfl, hstands⟩
    rw [show Bytes.slice? n.data start bytes.size = some bytes from hstands]

theorem fault_of_span {start length : Nat} {fault : NodeFault} {error : Error}
    (h : n.span start length fault = .error error) : error = .node fault := by
  unfold span at h
  cases hslice : Bytes.slice? n.data start length with
  | some found =>
    rw [hslice] at h
    cases h
  | none =>
    rw [hslice] at h
    exact (Except.error.inj h).symm

theorem table_eq_ok_iff {table : ByteArray} :
    n.table = .ok table ↔
      n.span n.tableStart n.header.table.length.toNat .tableBounds = .ok table ∧
        n.size * n.tableEntrySize ≤ table.size := by
  rw [Node.table, sequence_eq_ok_iff]
  constructor
  · rintro ⟨found, hspan, h⟩
    obtain ⟨hsize, hfound⟩ := guarded_eq_ok_iff.mp h
    obtain rfl := Except.ok.inj hfound
    exact ⟨hspan, Nat.le_of_not_lt hsize⟩
  · rintro ⟨hspan, hsize⟩
    exact ⟨table, hspan, guarded_eq_ok_iff.mpr ⟨Nat.not_lt.mpr hsize, rfl⟩⟩

/-- An accepted node has its header from the block, and a good table. -/
theorem header_and_table_of_ofBlock (h : Node.ofBlock block = .ok n) :
    n.block = block ∧ decode block.data = .ok n.header ∧ ∃ table, n.table = .ok table := by
  rw [Node.ofBlock, sequence_eq_ok_iff] at h
  obtain ⟨object, -, h⟩ := h
  obtain ⟨checked, -, h⟩ := sequence_eq_ok_iff.mp h
  obtain ⟨header, hheader, h⟩ := sequence_eq_ok_iff.mp h
  obtain ⟨table, htable, h⟩ := sequence_eq_ok_iff.mp h
  obtain rfl := Except.ok.inj h
  exact ⟨rfl, hheader, table, htable⟩

/-- As the header of an accepted node is larger than the information about a tree, there is room
    for that. -/
theorem valueEnd_of_ofBlock (h : Node.ofBlock block = .ok n) : n.valueEnd = .ok n.areaEnd := by
  obtain ⟨rfl, hheader, -⟩ := header_and_table_of_ofBlock h
  have hsize : ¬ n.data.size < 56 := by
    intro hlt
    have hshort : (decode n.data : Except Error NodeHeader) = .error _ := if_pos hlt
    rw [show decode n.data = .ok n.header from hheader] at hshort
    cases hshort
  have hinfo : Layout.size TreeInfo = 40 := rfl
  unfold valueEnd areaEnd
  split
  · rw [if_neg (by omega)]
  · rfl

/-! ### Reading an entry -/

/-- The table of an accepted node has places for each entry. -/
theorem exists_placesOf (h : Node.ofBlock block = .ok n) (info : TreeInfo) {i : Nat}
    (hi : i < n.size) : ∃ p, n.PlacesOf info i p := by
  obtain ⟨-, -, table, htable⟩ := header_and_table_of_ofBlock h
  obtain ⟨-, hroom⟩ := table_eq_ok_iff.mp htable
  -- The table has a line for each entry, so what is read at a line is there.
  have hline : i * n.tableEntrySize + n.tableEntrySize ≤ table.size := by
    rw [← Nat.succ_mul]
    exact (Nat.mul_le_mul_right _ hi).trans hroom
  suffices ∃ p, n.places table i info = .ok p from
    this.imp fun p hp => ⟨table, htable, hp⟩
  unfold places
  by_cases hfixed : n.header.isFixedSize
  · have hsize : n.tableEntrySize = Layout.size KeyValueOffset := if_pos hfixed
    obtain ⟨entry, hentry⟩ : ∃ entry : KeyValueOffset,
        decodeAt table (i * n.tableEntrySize) = .ok entry :=
      exists_decodeAt (by rw [← hsize]; exact hline)
    rw [if_pos hfixed, hentry]
    exact ⟨_, rfl⟩
  · have hsize : n.tableEntrySize = Layout.size KeyValueLocation := if_neg hfixed
    obtain ⟨entry, hentry⟩ : ∃ entry : KeyValueLocation,
        decodeAt table (i * n.tableEntrySize) = .ok entry :=
      exists_decodeAt (by rw [← hsize]; exact hline)
    rw [if_neg hfixed, hentry]
    exact ⟨_, rfl⟩

variable {p : Places}

/-- For an accepted node, only what is at the places can be bad. -/
theorem entry_eq (h : Node.ofBlock block = .ok n) {info : TreeInfo} {i : Nat} (hi : i < n.size)
    (hplaces : n.PlacesOf info i p) : n.entry i info = n.readPlaces p := by
  obtain ⟨table, htable, hplaces⟩ := hplaces
  unfold entry
  rw [if_neg (Nat.not_le.mpr hi), htable, valueEnd_of_ofBlock h]
  show (do let places ← n.places table i info; _) = _
  rw [hplaces]
  rfl

/-- The bytes of an entry stand at its places. -/
theorem readPlaces_eq_ok_iff {e : Entry} : n.readPlaces p = .ok e ↔ n.StandsAtPlaces p e := by
  unfold readPlaces
  rw [sequence_eq_ok_iff]
  by_cases hghost : p.valueOffset = noValueOffset
  · simp only [if_pos hghost, span_eq_ok_iff]
    constructor
    · rintro ⟨key, ⟨hsize, hkey⟩, hread⟩
      obtain rfl := Except.ok.inj hread
      exact ⟨hsize, hkey, fun _ => rfl, fun hvalue => absurd hghost hvalue⟩
    · rintro ⟨hsize, hkey, hmissing, -⟩
      exact ⟨e.key, ⟨hsize, hkey⟩, by rw [← hmissing hghost]; rfl⟩
  · simp only [if_neg hghost, guarded_eq_ok_iff, sequence_eq_ok_iff, span_eq_ok_iff]
    constructor
    · rintro ⟨key, ⟨hsize, hkey⟩, hoffset, value, ⟨hvalueSize, hvalue⟩, hread⟩
      obtain rfl := Except.ok.inj hread
      exact ⟨hsize, hkey, fun hmissing => absurd hmissing hghost,
        fun _ => ⟨Nat.le_of_not_lt hoffset, hvalueSize, hvalue⟩⟩
    · rintro ⟨hsize, hkey, -, hpresent⟩
      obtain ⟨hoffset, hvalueSize, hvalue⟩ := hpresent hghost
      exact ⟨e.key, ⟨hsize, hkey⟩, Nat.not_lt.mpr hoffset, e.value, ⟨hvalueSize, hvalue⟩, rfl⟩

/-- The key and the value can be read if they lie in the node. -/
theorem exists_readPlaces_iff :
    (∃ e, n.readPlaces p = .ok e) ↔
      n.keyStart + p.keyOffset + p.keyLength ≤ n.data.size ∧
        (p.valueOffset ≠ noValueOffset → p.valueOffset.toNat ≤ n.areaEnd ∧
          n.areaEnd - p.valueOffset.toNat + p.valueLength ≤ n.data.size) := by
  simp only [readPlaces_eq_ok_iff]
  constructor
  · rintro ⟨e, h⟩
    refine ⟨h.key_size ▸ h.key.le, fun hpresent => ?_⟩
    obtain ⟨hoffset, hsize, hvalue⟩ := h.value hpresent
    exact ⟨hoffset, hsize ▸ hvalue.le⟩
  · rintro ⟨hkey, hvalue⟩
    obtain ⟨key, hkeySize, hkeyStands⟩ := Bytes.exists_standsAt hkey
    by_cases hghost : p.valueOffset = noValueOffset
    · exact ⟨⟨key, .empty⟩, hkeySize, hkeyStands, fun _ => rfl, fun hpresent =>
        absurd hghost hpresent⟩
    · obtain ⟨hoffset, hfits⟩ := hvalue hghost
      obtain ⟨value, hsize, hstands⟩ := Bytes.exists_standsAt hfits
      exact ⟨⟨key, value⟩, hkeySize, hkeyStands, fun hmissing => absurd hmissing hghost, fun _ =>
        ⟨hoffset, hsize, hstands⟩⟩

/-- What cannot be read is a fault of the node. -/
theorem fault_of_readPlaces {error : Error} (h : n.readPlaces p = .error error) :
    error ∈ [Error.node .keyBounds, .node .valueOffset, .node .valueBounds] := by
  unfold readPlaces at h
  obtain hkey | ⟨key, -, h⟩ := sequence_eq_error_iff.mp h
  · rw [fault_of_span hkey]
    decide
  by_cases hghost : p.valueOffset = noValueOffset
  · rw [if_pos hghost] at h
    cases h
  · rw [if_neg hghost] at h
    obtain ⟨-, rfl⟩ | ⟨-, h⟩ := guarded_eq_error_iff.mp h
    · decide
    obtain hvalue | ⟨value, -, h⟩ := sequence_eq_error_iff.mp h
    · rw [fault_of_span hvalue]
      decide
    · cases h

/-! ### The areas -/

/-- **Entries lie in their node**, and in the areas for keys and values exactly if the table says
    so.  The table of an accepted node has places for each entry.  The key and the value are read if
    they lie in the node, and are the bytes at their places; otherwise the place that is bad is
    reported.  They are not checked against the areas. -/
theorem entry_inAreas_iff (h : Node.ofBlock block = .ok n) (info : TreeInfo) {i : Nat}
    (hi : i < n.size) :
    ∃ p, n.PlacesOf info i p ∧
      ((∃ e, n.entry i info = .ok e) ↔
        n.keyStart + p.keyOffset + p.keyLength ≤ n.data.size ∧
          (p.valueOffset ≠ noValueOffset → p.valueOffset.toNat ≤ n.areaEnd ∧
            n.areaEnd - p.valueOffset.toNat + p.valueLength ≤ n.data.size)) ∧
      (∀ error, n.entry i info = .error error →
        error ∈ [Error.node .keyBounds, .node .valueOffset, .node .valueBounds]) ∧
      ∀ e, n.entry i info = .ok e → n.StandsAtPlaces p e ∧
        (n.EntryInAreas p ↔ n.keyStart + p.keyOffset + p.keyLength ≤ n.areaEnd ∧
          (p.valueOffset ≠ noValueOffset → n.keyStart + p.valueOffset.toNat ≤ n.areaEnd ∧
            p.valueLength ≤ p.valueOffset.toNat)) := by
  obtain ⟨p, hplaces⟩ := exists_placesOf h info hi
  rw [entry_eq h hi hplaces]
  refine ⟨p, hplaces, exists_readPlaces_iff, fun error => fault_of_readPlaces, fun e he => ?_⟩
  have hstands := readPlaces_eq_ok_iff.mp he
  refine ⟨hstands, ?_⟩
  by_cases hghost : p.valueOffset = noValueOffset
  · simp [EntryInAreas, InAreas, hghost]
  · -- As the value was read, its offset leads no further than to the start of the node.
    obtain ⟨hoffset, -, -⟩ := hstands.value hghost
    simp only [EntryInAreas, InAreas, ne_eq, hghost, not_false_eq_true, true_imp_iff]
    omega

end

end Node

/-- A root that is a leaf, with one entry. -/
def longKeyHeader : NodeHeader where
  object := ⟨0x83b71ad03c06e399, ⟨1⟩, ⟨1⟩, ⟨0x40000002⟩, ⟨0xff⟩⟩
  flags := ⟨3⟩
  level := 0
  keyCount := 1
  table := ⟨0, 8⟩
  freeSpace := ⟨0, 0⟩
  freeKeys := ⟨0xffff, 0⟩
  freeValues := ⟨0xffff, 0⟩

/-- Information about a tree of this node. -/
def longKeyInfo : TreeInfo where
  parameters := ⟨.physical, 112, 0, 0⟩
  longestKey := 0
  longestValue := 0
  keyCount := 1
  nodeCount := 1

/-- A node whose table gives its key 48 bytes, of which only the first eight are in front of the
    information about the tree.  They are also the bytes of the value. -/
def longKeyBlock : Block where
  address := ⟨0⟩
  data := encoded longKeyHeader ++ encoded (⟨⟨0, 48⟩, ⟨8, 8⟩⟩ : KeyValueLocation) ++
    encoded (⟨7⟩ : ObjectId) ++ encoded longKeyInfo

/-- The node in the block. -/
def longKeyNode : Node := ⟨longKeyBlock, longKeyHeader⟩

theorem ofBlock_longKeyBlock : Node.ofBlock longKeyBlock = .ok longKeyNode := by
  cbv

theorem placesOf_longKeyNode : longKeyNode.PlacesOf longKeyInfo 0 ⟨0, 48, 8, 8⟩ :=
  ⟨longKeyBlock.data.extract 56 64, by cbv, by cbv⟩

theorem entry_longKeyNode : longKeyNode.entry 0 longKeyInfo =
    .ok ⟨longKeyBlock.data.extract 64 112, longKeyBlock.data.extract 64 72⟩ := by
  cbv

theorem Node.entry_inAreas_iff_longKey :
    Node.ofBlock longKeyBlock = .ok longKeyNode ∧ 0 < longKeyNode.size ∧
      ∃ p e, longKeyNode.PlacesOf longKeyInfo 0 p ∧ longKeyNode.entry 0 longKeyInfo = .ok e ∧
        longKeyNode.StandsAtPlaces p e := by
  have hsize : 0 < longKeyNode.size := by decide
  obtain ⟨p, hplaces, -, -, hread⟩ :=
    Node.entry_inAreas_iff ofBlock_longKeyBlock longKeyInfo hsize
  exact ⟨ofBlock_longKeyBlock, hsize, p, _, hplaces, entry_longKeyNode,
    (hread _ entry_longKeyNode).1⟩

/-- The information about the tree is read as a part of the key. -/
theorem Node.not_entryInAreas_longKey :
    Node.ofBlock longKeyBlock = .ok longKeyNode ∧
      longKeyNode.info = .ok (some longKeyInfo) ∧
      longKeyNode.PlacesOf longKeyInfo 0 ⟨0, 48, 8, 8⟩ ∧
      ¬ longKeyNode.EntryInAreas ⟨0, 48, 8, 8⟩ ∧
      ∃ e, longKeyNode.entry 0 longKeyInfo = .ok e ∧
        longKeyNode.StandsAtPlaces ⟨0, 48, 8, 8⟩ e ∧
        e.key.extract 8 48 = encoded longKeyInfo := by
  have hkey : ¬ 64 + 0 + 48 ≤ 72 := by decide
  refine ⟨ofBlock_longKeyBlock, by cbv, placesOf_longKeyNode, fun h => hkey h.1.2, _,
    entry_longKeyNode, ?_, by decide +kernel⟩
  rw [← Node.readPlaces_eq_ok_iff,
    ← Node.entry_eq ofBlock_longKeyBlock (by decide) placesOf_longKeyNode, entry_longKeyNode]

end Apfs
