import Apfs.Proofs.Layout.Structures
import Apfs.Tree.NodeContents

namespace Apfs

/-!
# What is written to a node

The keys of a node grow from one end of its free space and the values from the other, and each
entry is written into the space that those before it left.  So nothing that was written is
overwritten, and the node is written exactly if everything fits in the block.

* `NodeContents.requiredSize` — the number of bytes that a node takes.
* `NodeContents.StandsIn` — a block holds the node: its header, its entries with their places, and
  the information about the tree.
* `putEntry_eq_ok_iff` — what writing one entry does.
* `writtenTo_putEntry`, `exists_writtenTo` — one entry, and all entries, are added to those that
  stand in the block.
* `exists_write_of_le`, `requiredSize_le_of_write` — when a node is written, and what then stands in
  the block.
-/

theorem size_nodeHeader : Layout.size NodeHeader = 56 := rfl

namespace NodeContents

variable (c : NodeContents)

/-! ### Sizes and places -/

/-- The number of bytes that the keys of the first `n` entries take. -/
def keyBytes (n : Nat) : Nat := ((c.entries.take n).map fun e => e.key.size).sum

/-- The number of bytes that the values of the first `n` entries take. -/
def valueBytes (n : Nat) : Nat := ((c.entries.take n).map fun e => e.value.size).sum

/-- The number of bytes of the information about the tree, which only a root has. -/
def infoSize : Nat := if c.isRoot then Layout.size TreeInfo else 0

/-- The number of bytes that the node takes. -/
def requiredSize : Nat :=
  Layout.size NodeHeader + c.tableSize + (c.entries.map fun e => e.key.size).sum
    + (c.entries.map fun e => e.value.size).sum + c.infoSize

/-- The header of the node with a checksum. -/
def headerWith (checksum : UInt64) (keyBytes freeBytes : Nat) : NodeHeader :=
  let header := c.header keyBytes freeBytes
  { header with object := { header.object with checksum } }

/-- The line of an entry in the table of contents. -/
def tableEntry (keyOffset valueOffset : Nat) (e : Entry) : ByteArray :=
  if c.fixedSizes.isSome then
    encoded (KeyValueOffset.mk (UInt16.ofNat keyOffset) (UInt16.ofNat valueOffset))
  else
    encoded (KeyValueLocation.mk ⟨UInt16.ofNat keyOffset, UInt16.ofNat e.key.size⟩
      ⟨UInt16.ofNat valueOffset, UInt16.ofNat e.value.size⟩)

/-- The block with the entry `i` written to it. -/
def withEntry (valueEnd : Nat) (p : Progress) (e : Entry) (i : Nat) : ByteArray :=
  Bytes.overlay
    (Bytes.overlay (Bytes.overlay p.block (c.keyStart + p.keyBytes) e.key)
      (valueEnd - (p.valueBytes + e.value.size)) e.value)
    (Layout.size NodeHeader + i * c.tableEntrySize)
    (c.tableEntry p.keyBytes (p.valueBytes + e.value.size) e)

@[simp] theorem size_tableEntry (keyOffset valueOffset : Nat) (e : Entry) :
    (c.tableEntry keyOffset valueOffset e).size = c.tableEntrySize := by
  unfold tableEntry tableEntrySize
  split <;> exact size_encoded _

/-- The block holds the entry `i`, if the values end at `valueEnd`. -/
structure EntryStandsIn (valueEnd : Nat) (block : ByteArray) (i : Nat) (e : Entry) : Prop where
  key : Bytes.StandsAt block (c.keyStart + c.keyBytes i) e.key
  value : Bytes.StandsAt block (valueEnd - c.valueBytes (i + 1)) e.value
  table : Bytes.StandsAt block (Layout.size NodeHeader + i * c.tableEntrySize)
    (c.tableEntry (c.keyBytes i) (c.valueBytes (i + 1)) e)

/-- The block holds the node, with some checksum. -/
structure StandsIn (block : ByteArray) : Prop where
  fits : c.requiredSize ≤ block.size
  header : ∃ checksum keyBytes freeBytes,
    Bytes.StandsAt block 0 (encoded (c.headerWith checksum keyBytes freeBytes))
  entries : ∀ i e, c.entries[i]? = some e →
    c.EntryStandsIn (block.size - c.infoSize) block i e
  info : c.isRoot →
    Bytes.StandsAt block (block.size - c.infoSize) (encoded (c.info block.size))

section

variable {c} {n : Nat} {e : Entry}

theorem sum_take_succ {size : Entry → Nat} (h : c.entries[n]? = some e) :
    ((c.entries.take (n + 1)).map size).sum = ((c.entries.take n).map size).sum + size e := by
  simp [List.take_add_one, h]

theorem sum_take_le {size : Entry → Nat} {m n : Nat} (h : m ≤ n) :
    ((c.entries.take m).map size).sum ≤ ((c.entries.take n).map size).sum :=
  ((List.take_sublist_take_left h).map size).sum_le_sum fun _ _ => Nat.zero_le _

/-- What an entry takes of the keys, of the values and of the table. -/
theorem shares_of_entry (he : c.entries[n]? = some e) :
    n < c.entries.length ∧
      (c.keyBytes (n + 1) = c.keyBytes n + e.key.size ∧
        c.keyBytes (n + 1) ≤ c.keyBytes c.entries.length) ∧
      (c.valueBytes (n + 1) = c.valueBytes n + e.value.size ∧
        c.valueBytes (n + 1) ≤ c.valueBytes c.entries.length) ∧
      n * c.tableEntrySize + c.tableEntrySize ≤ c.tableSize := by
  have hn : n < c.entries.length := (List.getElem?_eq_some_iff.mp he).1
  have hline : (n + 1) * c.tableEntrySize ≤ c.tableSize := Nat.mul_le_mul_right _ hn
  rw [Nat.succ_mul] at hline
  exact ⟨hn, ⟨sum_take_succ he, sum_take_le hn⟩, ⟨sum_take_succ he, sum_take_le hn⟩, hline⟩

theorem keyStart_eq : c.keyStart = Layout.size NodeHeader + c.tableSize := rfl

end

/-! ### One entry -/

theorem put_eq_ok_iff {block written piece : ByteArray} {start : Nat} :
    put block start piece = .ok written ↔
      start + piece.size ≤ block.size ∧ written = Bytes.overlay block start piece := by
  unfold put
  by_cases h : start + piece.size ≤ block.size
  · simp [h, eq_comm]
  · simp [h]

/-- Writing an entry succeeds if its key, its value and its line of the table have room. -/
theorem putEntry_eq_ok_iff {valueEnd : Nat} {p p' : Progress} {e : Entry} {i : Nat} :
    c.putEntry valueEnd p e i = .ok p' ↔
      c.keyStart + p.keyBytes + e.key.size ≤ p.block.size ∧
        p.valueBytes + e.value.size ≤ valueEnd ∧
        valueEnd - (p.valueBytes + e.value.size) + e.value.size ≤ p.block.size ∧
        Layout.size NodeHeader + i * c.tableEntrySize + c.tableEntrySize ≤ p.block.size ∧
        p' = ⟨c.withEntry valueEnd p e i, p.keyBytes + e.key.size, p.valueBytes + e.value.size⟩ := by
  have hline := c.size_tableEntry p.keyBytes (p.valueBytes + e.value.size) e
  unfold putEntry
  simp only [sequence_eq_ok_iff, guarded_eq_ok_iff, put_eq_ok_iff, Nat.not_lt]
  rw [tableEntry] at hline
  -- Each step gets the block that the one before has written, which keeps its size.
  constructor
  · rintro ⟨_, ⟨hkey, rfl⟩, hvalue, _, ⟨hroom, rfl⟩, _, ⟨htable, rfl⟩, hp⟩
    rw [Bytes.size_overlay hroom, Bytes.size_overlay hkey, hline] at htable
    rw [Bytes.size_overlay hkey] at hroom
    exact ⟨hkey, hvalue, hroom, htable, (Except.ok.inj hp).symm⟩
  · rintro ⟨hkey, hvalue, hroom, htable, rfl⟩
    rw [← Bytes.size_overlay hkey] at hroom
    refine ⟨_, ⟨hkey, rfl⟩, hvalue, _, ⟨hroom, rfl⟩, _, ⟨?_, rfl⟩, rfl⟩
    rw [Bytes.size_overlay hroom, Bytes.size_overlay hkey, hline]
    exact htable

/-- The range from `start` to `stop` does not touch what the first `n` entries take: it is in the
    header, among later lines of the table, in the free space or behind the values. -/
def Beside (valueEnd n start stop : Nat) : Prop :=
  stop ≤ Layout.size NodeHeader ∨
    Layout.size NodeHeader + n * c.tableEntrySize ≤ start ∧ stop ≤ c.keyStart ∨
    c.keyStart + c.keyBytes n ≤ start ∧ stop ≤ valueEnd - c.valueBytes n ∨
    valueEnd ≤ start

/-- The first `n` entries have been written to the block. -/
structure WrittenTo (valueEnd blockSize n : Nat) (p : Progress) : Prop where
  size : p.block.size = blockSize
  keyBytes : p.keyBytes = c.keyBytes n
  valueBytes : p.valueBytes = c.valueBytes n
  entries : ∀ i e, i < n → c.entries[i]? = some e → c.EntryStandsIn valueEnd p.block i e

section

variable {c} {valueEnd : Nat}
  (hfits : c.keyStart + c.keyBytes c.entries.length + c.valueBytes c.entries.length ≤ valueEnd)
include hfits

/-- **Frame.**  An entry stays in the block when something is written beside it. -/
theorem EntryStandsIn.overlay {block piece : ByteArray} {n i start : Nat} {e : Entry}
    (h : c.EntryStandsIn valueEnd block i e) (he : c.entries[i]? = some e) (hi : i < n)
    (hn : n ≤ c.entries.length) (hpiece : start + piece.size ≤ block.size)
    (hbeside : c.Beside valueEnd n start (start + piece.size)) :
    c.EntryStandsIn valueEnd (Bytes.overlay block start piece) i e := by
  obtain ⟨-, ⟨hkey, -⟩, ⟨hvalue, -⟩, hline⟩ := shares_of_entry he
  have hkeys : c.keyBytes (i + 1) ≤ c.keyBytes n := sum_take_le hi
  have hvalues : c.valueBytes (i + 1) ≤ c.valueBytes n := sum_take_le hi
  have hallKeys : c.keyBytes n ≤ c.keyBytes c.entries.length := sum_take_le hn
  have hallValues : c.valueBytes n ≤ c.valueBytes c.entries.length := sum_take_le hn
  have hlines : (i + 1) * c.tableEntrySize ≤ n * c.tableEntrySize := Nat.mul_le_mul_right _ hi
  have hstart := c.keyStart_eq
  rw [Nat.succ_mul] at hlines
  unfold Beside at hbeside
  refine ⟨h.key.overlay hpiece (by omega), h.value.overlay hpiece (by omega),
    h.table.overlay hpiece ?_⟩
  rw [size_tableEntry]
  omega

section

variable {block : ByteArray} {n : Nat} {e : Entry} (hend : valueEnd ≤ block.size)
  (he : c.entries[n]? = some e)
include hend he

/-- There is room for an entry after those before it: for the key, then for the value, and then for
    the line of the table. -/
theorem rooms_for_entry :
    c.keyStart + c.keyBytes n + e.key.size ≤ block.size ∧
      valueEnd - c.valueBytes (n + 1) + e.value.size ≤
        (Bytes.overlay block (c.keyStart + c.keyBytes n) e.key).size ∧
      Layout.size NodeHeader + n * c.tableEntrySize +
          (c.tableEntry (c.keyBytes n) (c.valueBytes (n + 1)) e).size ≤
        (Bytes.overlay (Bytes.overlay block (c.keyStart + c.keyBytes n) e.key)
          (valueEnd - c.valueBytes (n + 1)) e.value).size := by
  obtain ⟨-, hkey, hvalue, hline⟩ := shares_of_entry he
  have hstart := c.keyStart_eq
  have hlineSize := c.size_tableEntry (c.keyBytes n) (c.valueBytes (n + 1)) e
  have hkeyRoom : c.keyStart + c.keyBytes n + e.key.size ≤ block.size := by omega
  have hafterKey := Bytes.size_overlay hkeyRoom
  have hvalueRoom : valueEnd - c.valueBytes (n + 1) + e.value.size ≤
      (Bytes.overlay block (c.keyStart + c.keyBytes n) e.key).size := by omega
  have hafterValue := Bytes.size_overlay hvalueRoom
  exact ⟨hkeyRoom, hvalueRoom, by omega⟩

/-- The size of the block stays, and the entry that was written stands in it. -/
theorem entryStandsIn_withEntry :
    (c.withEntry valueEnd ⟨block, c.keyBytes n, c.valueBytes n⟩ e n).size = block.size ∧
      c.EntryStandsIn valueEnd
        (c.withEntry valueEnd ⟨block, c.keyBytes n, c.valueBytes n⟩ e n) n e := by
  obtain ⟨hkeyRoom, hvalueRoom, hlineRoom⟩ := rooms_for_entry hfits hend he
  obtain ⟨-, hkey, hvalue, hline⟩ := shares_of_entry he
  have hstart := c.keyStart_eq
  have hlineSize := c.size_tableEntry (c.keyBytes n) (c.valueBytes (n + 1)) e
  unfold withEntry
  dsimp only
  rw [← hvalue.1]
  refine ⟨?_, ?_, ?_, Bytes.standsAt_overlay hlineRoom⟩
  · rw [Bytes.size_overlay hlineRoom, Bytes.size_overlay hvalueRoom, Bytes.size_overlay hkeyRoom]
  · -- The key stays while the value and the line are written, and the value while the line is.
    apply Bytes.StandsAt.overlay _ hlineRoom (by omega)
    exact (Bytes.standsAt_overlay hkeyRoom).overlay hvalueRoom (by omega)
  · exact (Bytes.standsAt_overlay hvalueRoom).overlay hlineRoom (by omega)

/-- The entries that were written before stay in the block. -/
theorem EntryStandsIn.withEntry {i : Nat} {e' : Entry} (hi : i < n)
    (he' : c.entries[i]? = some e') (h : c.EntryStandsIn valueEnd block i e') :
    c.EntryStandsIn valueEnd
      (c.withEntry valueEnd ⟨block, c.keyBytes n, c.valueBytes n⟩ e n) i e' := by
  obtain ⟨hkeyRoom, hvalueRoom, hlineRoom⟩ := rooms_for_entry hfits hend he
  obtain ⟨hn, hkey, hvalue, hline⟩ := shares_of_entry he
  have hstart := c.keyStart_eq
  have hlineSize := c.size_tableEntry (c.keyBytes n) (c.valueBytes (n + 1)) e
  unfold NodeContents.withEntry
  dsimp only
  rw [← hvalue.1]
  -- The line goes among the later lines, the value and the key into the free space.
  apply EntryStandsIn.overlay hfits _ he' hi hn.le hlineRoom
  · exact .inr (.inl ⟨by omega, by omega⟩)
  apply EntryStandsIn.overlay hfits _ he' hi hn.le hvalueRoom
  · exact .inr (.inr (.inl (by omega)))
  apply EntryStandsIn.overlay hfits h he' hi hn.le hkeyRoom
  exact .inr (.inr (.inl (by omega)))

end

/-- **One entry** more is written to the block, beside those that stand there. -/
theorem writtenTo_putEntry {blockSize n : Nat} {p : Progress} {e : Entry}
    (hend : valueEnd ≤ blockSize) (hp : c.WrittenTo valueEnd blockSize n p)
    (he : c.entries[n]? = some e) :
    ∃ p', c.putEntry valueEnd p e n = .ok p' ∧ c.WrittenTo valueEnd blockSize (n + 1) p' := by
  obtain ⟨-, hkey, hvalue, hline⟩ := shares_of_entry he
  have hstart := c.keyStart_eq
  obtain ⟨block, keyBytes, valueBytes⟩ := p
  obtain ⟨rfl, rfl, rfl, hentries⟩ := hp
  dsimp only at hentries hend
  refine ⟨_, c.putEntry_eq_ok_iff.mpr ⟨?_, ?_, ?_, ?_, rfl⟩, ?_⟩
  · show c.keyStart + c.keyBytes n + e.key.size ≤ block.size
    omega
  · show c.valueBytes n + e.value.size ≤ valueEnd
    omega
  · show valueEnd - (c.valueBytes n + e.value.size) + e.value.size ≤ block.size
    omega
  · show Layout.size NodeHeader + n * c.tableEntrySize + c.tableEntrySize ≤ block.size
    omega
  obtain ⟨hsize, hstands⟩ := entryStandsIn_withEntry hfits hend he
  refine ⟨hsize, hkey.1.symm, hvalue.1.symm, fun i e' hi he' => ?_⟩
  obtain hlt | rfl : i < n ∨ i = n := by omega
  · exact (hentries i e' hlt he').withEntry hfits hend he hlt he'
  · obtain rfl : e = e' := Option.some.inj (he.symm.trans he')
    exact hstands

/-- **All entries** are written to the block.  By induction on the entries that are left. -/
theorem exists_writtenTo {blockSize n : Nat} {p : Progress} (hend : valueEnd ≤ blockSize)
    (hp : c.WrittenTo valueEnd blockSize n p) {rest : List Entry}
    (hrest : c.entries.drop n = rest) (hn : n ≤ c.entries.length) :
    ∃ p', (rest.zipIdx n).foldlM (fun p (e, i) => c.putEntry valueEnd p e i) p = .ok p' ∧
      c.WrittenTo valueEnd blockSize c.entries.length p' := by
  induction rest generalizing n p with
  | nil =>
    have hlength : c.entries.length = n := by
      have hle := List.drop_eq_nil_iff.mp hrest
      omega
    rw [hlength]
    exact ⟨p, rfl, hp⟩
  | cons e rest ih =>
    obtain ⟨he, htail⟩ := next_of_drop hrest
    have hlt : n < c.entries.length := (List.getElem?_eq_some_iff.mp he).1
    obtain ⟨p₁, hput, hp₁⟩ := writtenTo_putEntry hfits hend hp he
    obtain ⟨p', hfold, hp'⟩ := ih hp₁ htail hlt
    refine ⟨p', ?_, hp'⟩
    rw [List.zipIdx_cons, List.foldlM_cons, sequence_eq_ok_iff]
    exact ⟨p₁, hput, hfold⟩

end

/-- Where writing entries succeeds, they were counted, and their values fit. -/
theorem totals_of_foldlM {valueEnd n : Nat} {rest : List Entry} {p p' : Progress}
    (h : (rest.zipIdx n).foldlM (fun p (e, i) => c.putEntry valueEnd p e i) p = .ok p')
    (hvalues : p.valueBytes ≤ valueEnd) :
    p'.keyBytes = p.keyBytes + (rest.map fun e => e.key.size).sum ∧
      p'.valueBytes = p.valueBytes + (rest.map fun e => e.value.size).sum ∧
      p'.valueBytes ≤ valueEnd := by
  induction rest generalizing n p with
  | nil =>
    obtain rfl : p = p' := Except.ok.inj h
    exact ⟨rfl, rfl, hvalues⟩
  | cons e rest ih =>
    rw [List.zipIdx_cons, List.foldlM_cons, sequence_eq_ok_iff] at h
    obtain ⟨p₁, hput, h⟩ := h
    obtain ⟨-, hvalue, -, -, rfl⟩ := (c.putEntry_eq_ok_iff).mp hput
    obtain ⟨hkeys, hvalues, hle⟩ := ih h hvalue
    simp only [List.map_cons, List.sum_cons]
    dsimp only at hkeys hvalues
    omega

/-! ### The whole node -/

/-- The sizes of all entries. -/
theorem requiredSize_eq : c.requiredSize =
    c.keyStart + c.keyBytes c.entries.length + c.valueBytes c.entries.length + c.infoSize := by
  rw [keyBytes, valueBytes, List.take_length]
  rfl

/-- Writing succeeds if there is room for the information about the tree, for each entry, and for
    the table, and then the header and that information are written. -/
theorem write_eq_ok_iff {block written : ByteArray} :
    c.write block = .ok written ↔
      c.infoSize ≤ block.size ∧ ∃ p,
        c.entries.zipIdx.foldlM
          (fun p (e, i) => c.putEntry (block.size - c.infoSize) p e i) ⟨block, 0, 0⟩ = .ok p ∧
        c.keyStart + p.keyBytes ≤ block.size - c.infoSize - p.valueBytes ∧ ∃ headed,
          encode (c.header p.keyBytes
            (block.size - c.infoSize - p.valueBytes - (c.keyStart + p.keyBytes))) p.block
              = .ok headed ∧
          (if c.isRoot then put headed (block.size - c.infoSize) (encoded (c.info block.size))
            else .ok headed) = .ok written := by
  unfold write
  simp only [sequence_eq_ok_iff, guarded_eq_ok_iff, Nat.not_lt]
  exact Iff.rfl

/-- A node that was written did fit. -/
theorem requiredSize_le_of_write {block written : ByteArray} (h : c.write block = .ok written) :
    c.requiredSize ≤ block.size := by
  obtain ⟨hinfo, p, hfold, hfree, -⟩ := c.write_eq_ok_iff.mp h
  obtain ⟨hkeys, hvalues, hle⟩ := c.totals_of_foldlM hfold (Nat.zero_le _)
  have hstart := c.keyStart_eq
  unfold requiredSize
  dsimp only at hkeys hvalues
  omega

/-- Before the information about the tree is written, the rest of the node stands in the block. -/
theorem exists_headed_of_le {block : ByteArray} (h : c.requiredSize ≤ block.size) :
    ∃ headed : ByteArray, headed.size = block.size ∧
      (∀ written, (if c.isRoot then put headed (block.size - c.infoSize) (encoded (c.info block.size))
        else .ok headed) = .ok written → c.write block = .ok written) ∧
      (∃ keyBytes freeBytes, Bytes.StandsAt headed 0 (encoded (c.header keyBytes freeBytes))) ∧
      ∀ i e, c.entries[i]? = some e → c.EntryStandsIn (block.size - c.infoSize) headed i e := by
  have hrequired := c.requiredSize_eq
  have hfits : c.keyStart + c.keyBytes c.entries.length + c.valueBytes c.entries.length ≤
      block.size - c.infoSize := by omega
  have hstart := c.keyStart_eq
  have hempty : c.WrittenTo (block.size - c.infoSize) block.size 0 ⟨block, 0, 0⟩ :=
    ⟨rfl, rfl, rfl, fun i e hi => absurd hi (Nat.not_lt_zero i)⟩
  obtain ⟨p, hfold, hsize, hkeys, hvalues, hentries⟩ :=
    exists_writtenTo hfits (Nat.sub_le ..) hempty rfl (Nat.zero_le _)
  have hfree : c.keyStart + p.keyBytes ≤ block.size - c.infoSize - p.valueBytes := by omega
  -- The header goes in front of the table, so it touches none of the entries.
  generalize hheader : c.header p.keyBytes
    (block.size - c.infoSize - p.valueBytes - (c.keyStart + p.keyBytes)) = header
  have hencode := @encode_eq_ok _ _ p.block header (by omega)
  have hfitsHeader : 0 + (encoded header).size ≤ p.block.size := by
    rw [size_encoded]
    omega
  refine ⟨_, (Bytes.size_overlay hfitsHeader).trans hsize, fun written hwritten => ?_, ?_, ?_⟩
  · rw [write_eq_ok_iff]
    exact ⟨by omega, p, hfold, hfree, _, by rw [hheader, hencode], hwritten⟩
  · subst hheader
    exact ⟨_, _, Bytes.standsAt_overlay hfitsHeader⟩
  · intro i e he
    have hi := (List.getElem?_eq_some_iff.mp he).1
    apply EntryStandsIn.overlay hfits (hentries i e hi he) he hi le_rfl hfitsHeader
    left
    rw [size_encoded]
    omega

/-- A node that fits is written, and then stands in the block. -/
theorem exists_write_of_le {block : ByteArray} (h : c.requiredSize ≤ block.size) :
    ∃ written, c.write block = .ok written ∧ written.size = block.size ∧ c.StandsIn written := by
  obtain ⟨headed, hsize, hwrite, ⟨keyBytes, freeBytes, hheader⟩, hentries⟩ :=
    c.exists_headed_of_le h
  have hrequired := c.requiredSize_eq
  have hstart := c.keyStart_eq
  cases hroot : c.isRoot with
  | false =>
    refine ⟨headed, hwrite headed (by rw [hroot]; rfl), hsize, ?_⟩
    exact ⟨by omega, ⟨0, _, _, hheader⟩, by rwa [hsize], fun h => by simp [hroot] at h⟩
  | true =>
    -- The information about the tree goes behind the values.
    have hinfo : c.infoSize = Layout.size TreeInfo := by rw [infoSize, hroot]; rfl
    have hfitsInfo : block.size - c.infoSize + (encoded (c.info block.size)).size ≤ headed.size := by
      rw [size_encoded]
      omega
    have hwritten := Bytes.size_overlay hfitsInfo
    refine ⟨_, hwrite _ (by rw [hroot, if_pos rfl, put_eq_ok_iff]; exact ⟨hfitsInfo, rfl⟩),
      by omega, ?_⟩
    refine ⟨by omega, ⟨0, keyBytes, freeBytes, ?_⟩, fun i e he => ?_, fun _ => ?_⟩
    · apply Bytes.StandsAt.overlay hheader hfitsInfo
      right
      rw [size_encoded]
      omega
    · have hi := (List.getElem?_eq_some_iff.mp he).1
      rw [hwritten, hsize]
      apply EntryStandsIn.overlay (by omega) (hentries i e he) he hi le_rfl hfitsInfo
      exact .inr (.inr (.inr le_rfl))
    · rw [hwritten, hsize]
      exact Bytes.standsAt_overlay hfitsInfo

end NodeContents

end Apfs
