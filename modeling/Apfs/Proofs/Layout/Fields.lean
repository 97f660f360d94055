import Apfs.Proofs.Layout.Lossless

namespace Apfs

/-!
# Structures field by field

The table of a structure says where its fields are.  Decoding and encoding by the table, one field
after the other, do the same as decoding and encoding the whole, so the table can be relied on.

* `Tiles` — fields that stand back to back, without gap or overlap.
* `Fieldwise` — a layout whose values are made of the bytes of their fields.
* `readFields`, `writeFields` — decoding by the table, and encoding by it in place.
* `readFields_eq`, `writeFields_eq` — they do what `decode` and `encode` do.
-/

/-! ### Tables -/

/-- The fields stand back to back from `start` up to `stop`. -/
def Tiles : (start stop : Nat) → List Field → Prop
  | start, stop, [] => start = stop
  | start, stop, f :: rest => f.offset = start ∧ Tiles f.stop stop rest

theorem tiles_place (offset : Nat) (columns : List (String × Nat)) :
    Tiles offset (offset + totalWidth columns) (Layout.place offset columns) := by
  induction columns generalizing offset with
  | nil => rfl
  | cons column columns ih =>
    refine ⟨rfl, ?_⟩
    rw [totalWidth, ← Nat.add_assoc]
    exact ih (offset + column.2)

/-- The table lists the columns in the order in which they are declared. -/
theorem columns_place (offset : Nat) (columns : List (String × Nat)) :
    (Layout.place offset columns).map (fun f => (f.name, f.width)) = columns := by
  induction columns generalizing offset with
  | nil => rfl
  | cons column columns ih => rw [Layout.place, List.map_cons, ih]

/-! ### The bytes of fields -/

/-- Pieces one after the other. -/
def joined (pieces : List ByteArray) : ByteArray := pieces.foldr (· ++ ·) .empty

theorem joined_cons (piece : ByteArray) (pieces : List ByteArray) :
    joined (piece :: pieces) = piece ++ joined pieces := rfl

theorem joined_singleton (piece : ByteArray) : joined [piece] = piece := ByteArray.append_empty

theorem size_joined {columns : List (String × Nat)} {pieces : List ByteArray}
    (h : pieces.map ByteArray.size = columns.map Prod.snd) :
    (joined pieces).size = totalWidth columns := by
  induction pieces generalizing columns with
  | nil =>
    rw [List.map_nil, eq_comm, List.map_eq_nil_iff] at h
    rw [h]
    rfl
  | cons piece pieces ih =>
    match columns with
    | [] => cases h
    | column :: columns =>
      obtain ⟨hpiece, hpieces⟩ := List.cons.inj h
      rw [joined_cons, ByteArray.size_append, ih hpieces, totalWidth, hpiece]

/-- The bytes of a value are those of its fields, each stored by the layout of its own type. -/
class Fieldwise (α : Type) [Layout α] extends Lossless α where
  /-- The bytes of each field. -/
  fieldBytes : α → List ByteArray
  /-- The value whose fields have the given bytes. -/
  ofFieldBytes : List ByteArray → α
  sizes_fieldBytes : ∀ v, (fieldBytes v).map ByteArray.size = (Layout.columns α).map Prod.snd
  joined_fieldBytes : ∀ v, joined (fieldBytes v) = encoded v
  ofFieldBytes_eq : ∀ pieces : List ByteArray,
    pieces.map ByteArray.size = (Layout.columns α).map Prod.snd →
      ofFieldBytes pieces = Layout.ofBytes (joined pieces).toList

namespace Fieldwise

variable {α β : Type}

/-- A layout with one field. -/
@[reducible] def single [Layout α] [Lossless α] {column : String × Nat}
    (h : Layout.columns α = [column]) : Fieldwise α where
  fieldBytes v := [encoded v]
  ofFieldBytes pieces := Layout.ofBytes (joined pieces).toList
  sizes_fieldBytes v := by
    have hsize : Layout.size α = column.2 := by
      rw [Layout.size, h]
      rfl
    rw [h, List.map_singleton, List.map_singleton, size_encoded, hsize]
  joined_fieldBytes v := joined_singleton _
  ofFieldBytes_eq _ _ := rfl

instance (name : String) [Layout α] [Lossless α] : @Fieldwise α (.column name α) :=
  letI := Layout.column name α
  single rfl

instance (name : String) [Layout α] [Lossless α] {rest : Layout β} [Fieldwise β] :
    @Fieldwise (α × β) (.andColumn name α rest) :=
  letI := Layout.andColumn name α rest
  { toLossless := inferInstance
    fieldBytes := fun (a, b) => encoded a :: fieldBytes b
    ofFieldBytes := fun pieces =>
      (Layout.ofBytes (pieces.headD .empty).toList, ofFieldBytes pieces.tail)
    sizes_fieldBytes := fun (a, b) => by
      show (encoded a).size :: (fieldBytes b).map ByteArray.size
        = Layout.size α :: (Layout.columns β).map Prod.snd
      rw [size_encoded, sizes_fieldBytes]
    joined_fieldBytes := fun (a, b) => by
      rw [joined_cons, joined_fieldBytes]
      apply ByteArray.ext
      rw [ByteArray.data_append]
      exact List.append_toArray (Layout.toBytes a) (Layout.toBytes b)
    ofFieldBytes_eq := fun pieces h => by
      match pieces with
      | [] => cases h
      | piece :: pieces =>
        obtain ⟨hpiece, hpieces⟩ := List.cons.inj h
        have hlen : piece.data.toList.length = Layout.size α := hpiece
        show (Layout.ofBytes piece.toList, ofFieldBytes pieces)
          = (Layout.ofBytes ((piece ++ joined pieces).toList.take (Layout.size α)),
            Layout.ofBytes ((piece ++ joined pieces).toList.drop (Layout.size α)))
        rw [ofFieldBytes_eq _ hpieces, Bytes.toList_eq, Bytes.toList_eq, Bytes.toList_eq,
          ByteArray.toList_data_append, List.take_left' hlen, List.drop_left' hlen] }

/-- A structure has the fields of the product that it is made from, if they are all there is to
    it. -/
@[reducible] def record {row : Layout α} [Fieldwise α] {make : α → β} {parts : β → α}
    (hmake : ∀ v, make (parts v) = v) (hparts : ∀ a, parts (make a) = a) :
    @Fieldwise β (.record row make parts) :=
  letI := Layout.record row make parts
  { toLossless := .record hmake hparts
    fieldBytes := fun v => fieldBytes (parts v)
    ofFieldBytes := fun pieces => make (ofFieldBytes pieces)
    sizes_fieldBytes := fun v => sizes_fieldBytes (parts v)
    joined_fieldBytes := fun v => joined_fieldBytes (parts v)
    ofFieldBytes_eq := fun pieces hsizes => congrArg make (ofFieldBytes_eq pieces hsizes) }

end Fieldwise

/-! ### Decoding and encoding by the table -/

/-- Writes bytes over a field of a buffer. -/
def Field.put (f : Field) (bytes : ByteArray) : EStateM Error ByteArray Unit := fun buffer =>
  if f.stop ≤ buffer.size then .ok () (Bytes.overlay buffer f.offset bytes)
  else .error (.fieldOutOfBounds f.name) buffer

section

variable {α : Type} [Layout α] [Fieldwise α]

/-- Decodes the value at the front of `data` field by field. -/
def readFields (data : ByteArray) : Except Error α :=
  if data.size < Layout.size α then .error (Layout.tooShort α data.size)
  else do return Fieldwise.ofFieldBytes (← (Layout.fields α).mapM (·.slice data))

/-- Writes bytes over each of some fields, one after the other. -/
def putAll (fields : List (Field × ByteArray)) : EStateM Error ByteArray Unit :=
  fields.forM fun (f, bytes) => f.put bytes

/-- Encodes a value field by field over the front of a buffer. -/
def writeFields (v : α) : EStateM Error ByteArray Unit := fun buffer =>
  if buffer.size < Layout.size α then .error (Layout.tooShort α buffer.size) buffer
  else putAll ((Layout.fields α).zip (Fieldwise.fieldBytes v)) buffer

/-- The slices of fields that stand back to back are the pieces of a range. -/
theorem mapM_slice_place (data : ByteArray) (columns : List (String × Nat)) {offset : Nat}
    (h : offset + totalWidth columns ≤ data.size) :
    ∃ pieces, (Layout.place offset columns).mapM (·.slice data) = .ok pieces ∧
      pieces.map ByteArray.size = columns.map Prod.snd ∧
      joined pieces = data.extract offset (offset + totalWidth columns) := by
  induction columns generalizing offset with
  | nil =>
    refine ⟨[], rfl, rfl, ?_⟩
    apply Bytes.ext_get
    · rw [ByteArray.size_extract, totalWidth]
      show 0 = _
      omega
    · intro i hi
      exact absurd hi (Nat.not_lt_zero i)
  | cons column columns ih =>
    rw [totalWidth, ← Nat.add_assoc] at h
    obtain ⟨pieces, hmap, hsizes, hjoined⟩ := ih h
    have hslice : Field.slice ⟨column.1, offset, column.2⟩ data
        = .ok (data.extract offset (offset + column.2)) := by
      rw [Field.slice, Bytes.slice?, if_pos (show offset + column.2 ≤ data.size by omega)]
    refine ⟨data.extract offset (offset + column.2) :: pieces, ?_, ?_, ?_⟩
    · rw [Layout.place, List.mapM_cons, hslice, hmap]
      rfl
    · rw [List.map_cons, List.map_cons, hsizes, ByteArray.size_extract]
      congr 1
      omega
    · rw [joined_cons, hjoined, totalWidth, ← Nat.add_assoc, ByteArray.extract_append_extract,
        Nat.min_eq_left (Nat.le_add_right ..), Nat.max_eq_right (Nat.le_add_right ..)]

/-- **Decoding by the table** decodes. -/
theorem readFields_eq (data : ByteArray) : (readFields data : Except Error α) = decode data := by
  unfold readFields decode
  by_cases hshort : data.size < Layout.size α
  · rw [if_pos hshort, if_pos hshort]
  · rw [if_neg hshort, if_neg hshort]
    have hfits : 0 + totalWidth (Layout.columns α) ≤ data.size := by
      rw [Nat.zero_add]
      exact Nat.le_of_not_lt hshort
    obtain ⟨pieces, hmap, hsizes, hjoined⟩ := mapM_slice_place data (Layout.columns α) hfits
    rw [Layout.fields, hmap]
    show Except.ok (Fieldwise.ofFieldBytes pieces) = _
    rw [Fieldwise.ofFieldBytes_eq pieces hsizes, hjoined, Nat.zero_add]
    rfl

/-- Writing a piece and then another one behind it writes both as one. -/
theorem Bytes.overlay_append {buffer a b : ByteArray} {start : Nat}
    (h : start + (a.size + b.size) ≤ buffer.size) :
    overlay buffer start (a ++ b) = overlay (overlay buffer start a) (start + a.size) b := by
  have ha : start + a.size ≤ buffer.size := by omega
  have hb : start + a.size + b.size ≤ (overlay buffer start a).size := by
    rw [size_overlay ha]
    omega
  have hab : start + (a ++ b).size ≤ buffer.size := by
    rw [ByteArray.size_append]
    omega
  apply ext_get
  · rw [size_overlay hab, size_overlay hb, size_overlay ha]
  · intro i _
    rw [get_overlay hab, get_overlay hb, get_overlay ha, ByteArray.size_append]
    by_cases hin : start ≤ i ∧ i < start + (a.size + b.size)
    · rw [if_pos hin, get_append]
      by_cases hlow : i < start + a.size
      · rw [if_pos (by omega), if_neg (by omega), if_pos (by omega)]
      · rw [if_neg (by omega), if_pos (by omega), Nat.sub_sub]
    · rw [if_neg hin, if_neg (by omega), if_neg (by omega)]

/-- Writing fields that stand back to back writes their bytes as one piece. -/
theorem putAll_place {columns : List (String × Nat)} {pieces : List ByteArray} {offset : Nat}
    {buffer : ByteArray} (hsizes : pieces.map ByteArray.size = columns.map Prod.snd)
    (h : offset + totalWidth columns ≤ buffer.size) :
    putAll ((Layout.place offset columns).zip pieces) buffer
      = .ok () (Bytes.overlay buffer offset (joined pieces)) := by
  induction columns generalizing pieces offset buffer with
  | nil =>
    rw [List.map_nil, List.map_eq_nil_iff] at hsizes
    rw [hsizes]
    show EStateM.Result.ok () buffer = .ok () (Bytes.overlay buffer offset .empty)
    rw [Bytes.overlay_empty (Nat.le_of_add_right_le h)]
  | cons column columns ih =>
    match pieces with
    | [] => cases hsizes
    | piece :: pieces =>
      obtain ⟨hpiece, hpieces⟩ := List.cons.inj hsizes
      rw [totalWidth, ← Nat.add_assoc] at h
      -- The first field is written, and the others behind it into what that leaves.
      have hput : Field.put ⟨column.1, offset, column.2⟩ piece buffer
          = .ok () (Bytes.overlay buffer offset piece) :=
        if_pos (show offset + column.2 ≤ buffer.size by omega)
      have hsize : (Bytes.overlay buffer offset piece).size = buffer.size :=
        Bytes.size_overlay (by omega)
      have hrest := ih hpieces (show offset + column.2 + totalWidth columns
        ≤ (Bytes.overlay buffer offset piece).size by rw [hsize]; exact h)
      show (Field.put ⟨column.1, offset, column.2⟩ piece >>= fun _ =>
        putAll ((Layout.place (offset + column.2) columns).zip pieces)) buffer = _
      simp only [bind, EStateM.bind]
      rw [hput]
      show putAll _ (Bytes.overlay buffer offset piece) = _
      have hjoined : (joined pieces).size = totalWidth columns := size_joined hpieces
      rw [hrest, joined_cons, Bytes.overlay_append (by omega), hpiece]

/-- **Encoding by the table** encodes in place; a failure leaves the buffer as it was. -/
theorem writeFields_eq (v : α) (buffer : ByteArray) :
    writeFields v buffer = match encode v buffer with
      | .ok written => .ok () written
      | .error e => .error e buffer := by
  unfold writeFields encode
  by_cases hshort : buffer.size < Layout.size α
  · rw [if_pos hshort, if_pos hshort]
  · rw [if_neg hshort, if_neg hshort]
    have hfits : 0 + totalWidth (Layout.columns α) ≤ buffer.size := by
      rw [Nat.zero_add]
      exact Nat.le_of_not_lt hshort
    rw [Layout.fields, putAll_place (Fieldwise.sizes_fieldBytes v) hfits,
      Fieldwise.joined_fieldBytes]

end

end Apfs
