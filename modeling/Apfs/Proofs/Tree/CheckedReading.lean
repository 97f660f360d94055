import Apfs.Proofs.Checked
import Apfs.Proofs.Tree.Areas
import Apfs.Tree.CheckedNode

namespace Apfs

/-!
# Nodes are read without a breach

Nodes may hold any bytes, and may be read with any information about a tree.  All the same, no sum
and no product is too large, and nothing is cut out of a byte string where it is not: reading with
checked steps gives what reading gives.

* `Node.Checked.span_eq`, … — one lemma for each function: its checked steps go well.
* `Node.line_le_of_table` — the table of contents has a line for each entry.
* `Node.checked_eq_and_slices` — all functions that read a node, and what an entry is.
-/

namespace Node

variable {n : Node}

/-- In a good table of contents there is a line for each entry. -/
theorem line_le_of_table {table : ByteArray} (h : n.table = .ok table) {i : Nat} (hi : i < n.size) :
    (i + 1) * n.tableEntrySize ≤ table.size :=
  (Nat.mul_le_mul_right _ hi).trans (table_eq_ok_iff.mp h).2

theorem size_lt_of_table {table : ByteArray} (h : n.table = .ok table) : table.size < 2 ^ 16 := by
  rw [(span_eq_ok_iff.mp (table_eq_ok_iff.mp h).1).1]
  exact n.header.table.length.toNat_lt

namespace Checked

/-! ### Accepting a node -/

theorem span_eq {start length : Nat} (h : start + length < UInt64.size) (fault : NodeFault) :
    span n start length fault = attempt (n.span start length fault) := by
  unfold span Node.span
  rw [plus_of_lt h]
  show (if start ≤ start + length ∧ start + length ≤ n.data.size then _ else _) = _
  by_cases hfits : start + length ≤ n.data.size
  · rw [if_pos ⟨Nat.le_add_right .., hfits⟩, cut_of_le (Nat.le_add_right ..) hfits, Bytes.slice?,
      if_pos hfits]
    rfl
  · rw [if_neg fun h => hfits h.2, Bytes.slice?, if_neg hfits]
    rfl

theorem tableStart_eq : tableStart n = .ok n.tableStart := by
  have hoffset := n.header.table.offset.toNat_lt
  exact plus_of_lt (show 56 + _ < 2 ^ 64 by omega)

theorem tableStart_lt : n.tableStart < 56 + 2 ^ 16 := by
  have hoffset := n.header.table.offset.toNat_lt
  show 56 + _ < _
  omega

theorem table_eq : table n = attempt n.table := by
  have hstart : n.tableStart < _ := tableStart_lt
  have hlength := n.header.table.length.toNat_lt
  have hcount := n.header.keyCount.toNat_lt
  -- The number of entries has 32 bits, so their lines are far from too long.
  have hentry : n.tableEntrySize ≤ 8 := by
    unfold tableEntrySize
    split <;> decide
  have hneeded : n.size * n.tableEntrySize < UInt64.size :=
    (Nat.mul_le_mul_left _ hentry).trans_lt (show n.header.keyCount.toNat * 8 < 2 ^ 64 by omega)
  unfold table Node.table
  rw [tableStart_eq, attempt_bind]
  dsimp only [bind, Except.bind]
  rw [span_eq (show _ < 2 ^ 64 by omega)]
  cases n.span n.tableStart n.header.table.length.toNat .tableBounds with
  | error e => rfl
  | ok table =>
    dsimp only [attempt, pure, Except.pure]
    rw [times_of_lt hneeded]
    dsimp only [pure, Except.pure]
    split <;> rfl

theorem ofBlock_eq (block : Block) : ofBlock block = attempt (Node.ofBlock block) := by
  unfold ofBlock Node.ofBlock
  simp only [table_eq, attempt_bind]
  rfl

/-! ### Reading an accepted node -/

theorem keyStart_eq : keyStart n = .ok n.keyStart := by
  have hstart : n.tableStart < _ := tableStart_lt
  have hlength := n.header.table.length.toNat_lt
  unfold keyStart
  rw [tableStart_eq]
  exact plus_of_lt (show _ < 2 ^ 64 by omega)

theorem keyStart_lt : n.keyStart < 56 + 2 ^ 17 := by
  have hstart : n.tableStart < _ := tableStart_lt
  have hlength := n.header.table.length.toNat_lt
  unfold Node.keyStart
  omega

theorem valueEnd_eq : valueEnd n = attempt n.valueEnd := by
  unfold valueEnd Node.valueEnd
  rw [attempt_ite, attempt_ite]
  by_cases hroot : n.header.isRoot
  · rw [if_pos hroot, if_pos hroot]
    by_cases hsize : n.data.size < Layout.size TreeInfo
    · rw [if_pos hsize, if_pos hsize]
      rfl
    · rw [if_neg hsize, if_neg hsize]
      exact minus_of_le (Nat.le_of_not_lt hsize)
  · rw [if_neg hroot, if_neg hroot]
    rfl

theorem valueEnd_le {stop : Nat} (h : n.valueEnd = .ok stop) : stop ≤ n.data.size := by
  unfold Node.valueEnd at h
  split at h
  · split at h
    · cases h
    · cases h
      exact Nat.sub_le ..
  · cases h
    exact Nat.le_refl _

theorem info_eq : info n = attempt n.info := by
  unfold info Node.info
  rw [valueEnd_eq, attempt_bind]
  by_cases hroot : n.header.isRoot
  · simp only [if_pos hroot]
    cases hstop : n.valueEnd with
    | error e => rfl
    | ok start =>
      dsimp only [attempt, pure, Except.pure, bind, Except.bind]
      rw [cut_of_le (valueEnd_le hstop) (Nat.le_refl _)]
      dsimp only [decodeAt, pure, Except.pure]
      cases (decode (n.data.extract start n.data.size) : Except Error TreeInfo) <;> rfl
  · have hstop : n.valueEnd = .ok n.data.size := if_neg hroot
    rw [if_neg hroot, hstop]
    dsimp only [attempt, pure, Except.pure, bind, Except.bind]
    rw [if_neg hroot]

/-! ### Reading an entry -/

theorem line_eq (α : Type) [Layout α] {table : ByteArray} {i : Nat}
    (hline : (i + 1) * Layout.size α ≤ table.size) (hsize : table.size < UInt64.size) :
    line α table i = attempt (decodeAt table (i * Layout.size α)) := by
  have hstart : i * Layout.size α ≤ table.size :=
    (Nat.mul_le_mul_right _ (Nat.le_succ i)).trans hline
  unfold line
  rw [times_of_lt (hstart.trans_lt hsize)]
  dsimp only [bind, Except.bind, pure, Except.pure]
  rw [cut_of_le hstart (Nat.le_refl _)]
  rfl

theorem places_eq {table : ByteArray} (htable : n.table = .ok table) {i : Nat} (hi : i < n.size)
    (treeInfo : TreeInfo) :
    places n table i treeInfo = attempt (n.places table i treeInfo) := by
  have hsize : table.size < UInt64.size := (size_lt_of_table htable).trans (by decide)
  have hline := line_le_of_table htable hi
  unfold places Node.places
  dsimp only
  rw [attempt_ite]
  by_cases hfixed : n.header.isFixedSize
  · have hentry : n.tableEntrySize = Layout.size KeyValueOffset := if_pos hfixed
    rw [hentry] at hline ⊢
    rw [if_pos hfixed, if_pos hfixed, line_eq _ hline hsize, attempt_bind]
    rfl
  · have hentry : n.tableEntrySize = Layout.size KeyValueLocation := if_neg hfixed
    rw [hentry] at hline ⊢
    rw [if_neg hfixed, if_neg hfixed, line_eq _ hline hsize, attempt_bind]
    rfl

/-- Lengths of keys and of values are 32-bit numbers. -/
theorem lengths_lt_of_places {table : ByteArray} {i : Nat} {treeInfo : TreeInfo} {p : Places}
    (h : n.places table i treeInfo = .ok p) :
    p.keyOffset < 2 ^ 16 ∧ p.keyLength < 2 ^ 32 ∧ p.valueLength < 2 ^ 32 := by
  have hwide (x : UInt16) : x.toNat < 2 ^ 32 := x.toNat_lt.trans (by decide)
  unfold Node.places at h
  dsimp only at h
  split at h
  · obtain ⟨entry, -, h⟩ := sequence_eq_ok_iff.mp h
    cases h
    refine ⟨UInt16.toNat_lt _, UInt32.toNat_lt _, ?_⟩
    show (if _ then _ else _) < _
    split
    · exact UInt32.toNat_lt _
    · decide
  · obtain ⟨entry, -, h⟩ := sequence_eq_ok_iff.mp h
    cases h
    exact ⟨UInt16.toNat_lt _, hwide _, hwide _⟩

/-- An entry is read without a breach, from a node that need not have been accepted. -/
theorem entry_eq (hsize : n.data.size < 2 ^ 63) (i : Nat) (treeInfo : TreeInfo) :
    entry n i treeInfo = attempt (n.entry i treeInfo) := by
  unfold entry Node.entry
  by_cases hi : n.size ≤ i
  · rw [if_pos hi, if_pos hi]
    rfl
  rw [if_neg hi, if_neg hi, table_eq, keyStart_eq, valueEnd_eq]
  dsimp only [bind, Except.bind, pure, Except.pure]
  cases htable : n.table with
  | error e => rfl
  | ok table =>
    dsimp only [attempt, pure, Except.pure]
    cases hstop : n.valueEnd with
    | error e => rfl
    | ok stop =>
      dsimp only
      rw [places_eq htable (Nat.lt_of_not_le hi)]
      cases hplaces : n.places table i treeInfo with
      | error e => rfl
      | ok p =>
        -- The start of the keys is small, and the end of the values is in the node, so adding
        -- numbers of 32 bits to them is safe.
        obtain ⟨hkeyOffset, hkeyLength, hvalueLength⟩ := lengths_lt_of_places hplaces
        have hkeyStart : n.keyStart < _ := keyStart_lt
        have hstop := valueEnd_le hstop
        dsimp only [attempt, pure, Except.pure]
        rw [plus_of_lt (show _ < 2 ^ 64 by omega)]
        dsimp only [pure, Except.pure]
        rw [span_eq (show _ < 2 ^ 64 by omega)]
        cases n.span (n.keyStart + p.keyOffset) p.keyLength .keyBounds with
        | error e => rfl
        | ok key =>
          dsimp only [attempt, pure, Except.pure]
          split
          · rfl
          · split
            · rfl
            · next hoffset =>
              rw [minus_of_le (Nat.le_of_not_lt hoffset)]
              dsimp only [pure, Except.pure]
              rw [span_eq (show _ < 2 ^ 64 by omega)]
              cases n.span (stop - p.valueOffset.toNat) p.valueLength .valueBounds <;> rfl

end Checked

end Node

theorem Tree.Checked.ofBlock_eq (block : Block) :
    Tree.Checked.ofBlock block = attempt (Tree.ofBlock block) := by
  unfold Tree.Checked.ofBlock Tree.ofBlock
  rw [Node.Checked.ofBlock_eq, attempt_bind]
  refine congrArg _ (funext fun root => ?_)
  rw [Node.Checked.info_eq]
  by_cases htype : root.header.object.type.objectType = .treeRoot
  · simp only [ne_eq, htype, not_true_eq_false, if_false, attempt_bind]
    refine congrArg _ (funext fun info => ?_)
    cases info <;> rfl
  · simp only [ne_eq, htype, not_false_eq_true, if_true]
    rfl

/-! ### Safety -/

/-- **Nodes are read safely.**  Whatever bytes a block has, accepting it as a node or as a root,
    reading the information about the tree, and reading an entry with any such information give a
    result or an error, and no step on the way leaves a byte string or the 64-bit numbers.  In an
    accepted node each entry has a line in the table of contents, and if its key and value are read
    they are the bytes of the block at the places given there.  Only an entry that has no value or
    one of length zero is read with an empty value. -/
theorem Node.checked_eq_and_slices (block : Block) (hsize : block.data.size < 2 ^ 63) :
    SafelyGives (Checked.ofBlock block) (Node.ofBlock block) ∧
    SafelyGives (Tree.Checked.ofBlock block) (Tree.ofBlock block) ∧
    ∀ n, Node.ofBlock block = .ok n →
      SafelyGives (Checked.info n) n.info ∧
      ∀ (info : TreeInfo) (i : Nat),
        SafelyGives (Checked.entry n i info) (n.entry i info) ∧
        (i < n.size → ∃ table p, Checked.table n = .ok table ∧
          (i + 1) * n.tableEntrySize ≤ table.size ∧ Checked.places n table i info = .ok p ∧
          ∀ e, n.entry i info = .ok e → n.block = block ∧ n.StandsAtPlaces p e ∧
            (e.value = .empty ↔ p.valueOffset = noValueOffset ∨ p.valueLength = 0)) := by
  -- Of the block's size only the reading of entries needs to know something.
  refine ⟨safelyGives_of_eq (Checked.ofBlock_eq block),
    safelyGives_of_eq (Tree.Checked.ofBlock_eq block), fun n hn => ?_⟩
  obtain ⟨rfl, -, -⟩ := header_and_table_of_ofBlock hn
  refine ⟨safelyGives_of_eq Checked.info_eq, fun info i => ?_⟩
  refine ⟨safelyGives_of_eq (Checked.entry_eq hsize i info), fun hi => ?_⟩
  obtain ⟨p, table, htable, hplaces⟩ := exists_placesOf hn info hi
  refine ⟨table, p, ?_, line_le_of_table htable hi, ?_, fun e he => ?_⟩
  · rw [Checked.table_eq, htable]
    rfl
  · rw [Checked.places_eq htable hi, hplaces]
    rfl
  · rw [entry_eq hn hi ⟨table, htable, hplaces⟩] at he
    have hstands := readPlaces_eq_ok_iff.mp he
    refine ⟨rfl, hstands, ?_⟩
    rw [← ByteArray.size_eq_zero_iff]
    by_cases hghost : p.valueOffset = noValueOffset
    · simp [hghost, hstands.missing hghost]
    · simp [hghost, (hstands.value hghost).2.1]

/-- A root that is a leaf, with one entry whose sizes its table does not give. -/
def fixedSizeHeader : NodeHeader :=
  { longKeyHeader with
    flags := ⟨7⟩
    table := ⟨0, 4⟩ }

/-- A block with this root.  The key of its entry starts behind the table, and its value where the
    values end. -/
def fixedSizeBlock : Block where
  address := ⟨0⟩
  data := encoded fixedSizeHeader ++ encoded (⟨0, 0⟩ : KeyValueOffset) ++ encoded longKeyInfo

/-- Information about a tree with keys and values of these sizes. -/
def infoOfSizes (keySize valueSize : UInt32) : TreeInfo :=
  { longKeyInfo with parameters := ⟨.physical, 100, keySize, valueSize⟩ }

set_option maxRecDepth 2000 in
/-- The same entry has an empty value or ends far behind the block, as its sizes are given. -/
theorem Node.checked_fixedSizeBlock :
    SafelyGives (Checked.ofBlock fixedSizeBlock) (.ok ⟨fixedSizeBlock, fixedSizeHeader⟩) ∧
    SafelyGives (Checked.entry ⟨fixedSizeBlock, fixedSizeHeader⟩ 0
      (infoOfSizes 0xffffffff 0xffffffff)) (.error (.node .keyBounds)) ∧
    ∃ p e, Node.StandsAtPlaces ⟨fixedSizeBlock, fixedSizeHeader⟩ p e ∧ e.key.size = 40 ∧
      (e.value = .empty ↔ p.valueOffset = noValueOffset ∨ p.valueLength = 0) := by
  have haccepted : Node.ofBlock fixedSizeBlock = .ok ⟨fixedSizeBlock, fixedSizeHeader⟩ := by cbv
  have hfar : Node.entry ⟨fixedSizeBlock, fixedSizeHeader⟩ 0 (infoOfSizes 0xffffffff 0xffffffff)
      = .error (.node .keyBounds) := by
    cbv
  have hread : Node.entry ⟨fixedSizeBlock, fixedSizeHeader⟩ 0 (infoOfSizes 40 0)
      = .ok ⟨encoded longKeyInfo, .empty⟩ := by
    cbv
  obtain ⟨hblock, -, hnode⟩ := checked_eq_and_slices fixedSizeBlock (by decide)
  obtain ⟨-, hentry⟩ := hnode _ haccepted
  obtain ⟨table, p, -, -, -, he⟩ := (hentry (infoOfSizes 40 0) 0).2 (by decide)
  obtain ⟨-, hstands, hempty⟩ := he _ hread
  exact ⟨haccepted ▸ hblock, hfar ▸ (hentry (infoOfSizes 0xffffffff 0xffffffff) 0).1, p, _, hstands,
    rfl, hempty⟩

end Apfs
