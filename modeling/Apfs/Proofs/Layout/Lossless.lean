import Apfs.Object.Header
import Apfs.Proofs.Bytes.Pieces

namespace Apfs

/-!
# Layouts lose nothing

A value is read back as it was written, and bytes of the right number are written back as they were
read.  Both pass from the fields of a structure to the structure.

* `Lossless` — a layout whose values and bytes determine each other.
* `Lossless.integer`, `Lossless.record`, `Lossless.flagSet` — how such layouts are built.
* `decodeAt_of_standsAt` — a value is read where its bytes stand.
* `exists_encode`, `exists_decode` — what encoding writes, and what is lost by decoding: nothing.
* `sequence_eq_ok_iff`, `guarded_eq_ok_iff`, `mapM_eq_ok_iff`, `next_of_drop` — when computations
  that check what they read succeed, and what is next when they go through a list.
* `sequence_eq_error_iff`, `guarded_eq_error_iff` — how such computations fail.
-/

/-! ### Computations that may fail -/

section

variable {α β : Type}

/-- A sequence succeeds exactly if both of its steps do. -/
theorem sequence_eq_ok_iff {x : Except Error α} {f : α → Except Error β} {b : β} :
    x >>= f = .ok b ↔ ∃ a, x = .ok a ∧ f a = .ok b := by
  cases x <;> simp [bind, Except.bind]

/-- What comes after a check is only reached if the check passes. -/
theorem guarded_eq_ok_iff {p : Prop} [Decidable p] {e : Error} {f : α → Except Error β}
    {x : Except Error β} {b : β} :
    (if p then throw e >>= f else x) = .ok b ↔ ¬ p ∧ x = .ok b := by
  by_cases h : p <;> simp [h, throw, throwThe, MonadExceptOf.throw, bind, Except.bind]

/-- A sequence fails if its first step does, or if that succeeds and the second one fails. -/
theorem sequence_eq_error_iff {x : Except Error α} {f : α → Except Error β} {e : Error} :
    x >>= f = .error e ↔ x = .error e ∨ ∃ a, x = .ok a ∧ f a = .error e := by
  cases x <;> simp [bind, Except.bind]

/-- A check fails with its own error, and what comes after it with others. -/
theorem guarded_eq_error_iff {p : Prop} [Decidable p] {e e' : Error} {f : α → Except Error β}
    {x : Except Error β} :
    (if p then throw e >>= f else x) = .error e' ↔ p ∧ e = e' ∨ ¬ p ∧ x = .error e' := by
  by_cases h : p <;> simp [h, throw, throwThe, MonadExceptOf.throw, bind, Except.bind]

/-- A list is mapped if all of its elements are. -/
theorem mapM_eq_ok_iff {f : α → Except Error β} {l : List α} {results : List β} :
    l.mapM f = .ok results ↔ List.Forall₂ (fun a b => f a = .ok b) l results := by
  induction l generalizing results with
  | nil =>
    rw [List.forall₂_nil_left_iff]
    exact ⟨fun h => (Except.ok.inj h).symm, fun h => congrArg Except.ok h.symm⟩
  | cons a l ih =>
    simp only [List.mapM_cons, sequence_eq_ok_iff, ih, List.forall₂_cons_left_iff]
    constructor
    · rintro ⟨b, hb, rest, hrest, heq⟩
      exact ⟨b, rest, hb, hrest, (Except.ok.inj heq).symm⟩
    · rintro ⟨b, rest, hb, hrest, rfl⟩
      exact ⟨b, hb, rest, hrest, rfl⟩

/-- What is left of a list starts with the element that comes next. -/
theorem next_of_drop {l rest : List α} {n : Nat} {a : α} (h : l.drop n = a :: rest) :
    l[n]? = some a ∧ l.drop (n + 1) = rest := by
  constructor
  · rw [← List.head?_drop, h, List.head?_cons]
  · rw [← List.tail_drop, h, List.tail_cons]

end

/-- The bytes of a value determine it, and every sequence of the right number of bytes is that of a
    value. -/
class Lossless (α : Type) [Layout α] : Prop where
  length_toBytes : ∀ v : α, (Layout.toBytes v).length = Layout.size α
  ofBytes_toBytes : ∀ v : α, Layout.ofBytes (Layout.toBytes v) = v
  toBytes_ofBytes : ∀ bytes, bytes.length = Layout.size α →
    Layout.toBytes (Layout.ofBytes bytes : α) = bytes

namespace Lossless

variable {α β : Type}

/-! ### Building layouts -/

/-- An integer is read back if the bytes have room for its number. -/
theorem integer {width : Nat} {ofNat : Nat → α} {toNat : α → Nat}
    (hofNat : ∀ n < 2 ^ (8 * width), toNat (ofNat n) = n)
    (hlt : ∀ v, toNat v < 2 ^ (8 * width)) (htoNat : ∀ v, ofNat (toNat v) = v) :
    @Lossless α (.integer width ofNat toNat) :=
  letI := Layout.integer width ofNat toNat
  { length_toBytes := fun v => Bytes.length_littleEndian width (toNat v)
    ofBytes_toBytes := fun v => by
      show ofNat (Bytes.ofLittleEndian (Bytes.littleEndian width (toNat v))) = v
      rw [Bytes.ofLittleEndian_littleEndian, Nat.one_shiftLeft, Nat.mod_eq_of_lt (hlt v), htoNat]
    toBytes_ofBytes := fun bytes h => by
      have hlen : bytes.length = width := h
      have hbound : Bytes.ofLittleEndian bytes < 2 ^ (8 * width) := by
        rw [← hlen]
        exact Bytes.ofLittleEndian_lt bytes
      show Bytes.littleEndian width (toNat (ofNat (Bytes.ofLittleEndian bytes))) = bytes
      rw [hofNat _ hbound, ← hlen, Bytes.littleEndian_ofLittleEndian] }

instance (name : String) [Layout α] [h : Lossless α] : @Lossless α (.column name α) :=
  letI := Layout.column name α
  { length_toBytes := h.length_toBytes
    ofBytes_toBytes := h.ofBytes_toBytes
    toBytes_ofBytes := h.toBytes_ofBytes }

instance (name : String) [Layout α] [Lossless α] {rest : Layout β} [Lossless β] :
    @Lossless (α × β) (.andColumn name α rest) :=
  letI := Layout.andColumn name α rest
  { length_toBytes := fun (a, b) => by
      show (Layout.toBytes a ++ Layout.toBytes b).length = Layout.size α + Layout.size β
      rw [List.length_append, length_toBytes, length_toBytes]
    ofBytes_toBytes := fun (a, b) => by
      have hlen := length_toBytes a
      show (Layout.ofBytes ((Layout.toBytes a ++ Layout.toBytes b).take (Layout.size α)),
        Layout.ofBytes ((Layout.toBytes a ++ Layout.toBytes b).drop (Layout.size α))) = (a, b)
      rw [List.take_left' hlen, List.drop_left' hlen, ofBytes_toBytes, ofBytes_toBytes]
    toBytes_ofBytes := fun bytes h => by
      have hlen : bytes.length = Layout.size α + Layout.size β := h
      have hfront : (bytes.take (Layout.size α)).length = Layout.size α := by
        rw [List.length_take]
        omega
      have hback : (bytes.drop (Layout.size α)).length = Layout.size β := by
        rw [List.length_drop]
        omega
      show Layout.toBytes (Layout.ofBytes (bytes.take (Layout.size α)) : α) ++
        Layout.toBytes (Layout.ofBytes (bytes.drop (Layout.size α)) : β) = bytes
      rw [toBytes_ofBytes _ hfront, toBytes_ofBytes _ hback, List.take_append_drop] }

/-- A structure is read back if its fields are all there is to it. -/
theorem record {row : Layout α} [Lossless α] {make : α → β} {parts : β → α}
    (hmake : ∀ v, make (parts v) = v) (hparts : ∀ a, parts (make a) = a) :
    @Lossless β (.record row make parts) :=
  letI := Layout.record row make parts
  { length_toBytes := fun v => length_toBytes (parts v)
    ofBytes_toBytes := fun v => (congrArg make (ofBytes_toBytes (parts v))).trans (hmake v)
    toBytes_ofBytes := fun bytes h =>
      (congrArg row.toBytes (hparts (row.ofBytes bytes))).trans (toBytes_ofBytes bytes h) }

/-- A set of flags is read back if its bits are all there is to it. -/
theorem flagSet [Layout α] [Lossless α] {make : α → β} {bits : β → α}
    (hmake : ∀ v, make (bits v) = v) (hbits : ∀ a, bits (make a) = a) :
    @Lossless β (.flagSet make bits) :=
  letI := Layout.flagSet make bits
  { length_toBytes := fun v => length_toBytes (bits v)
    ofBytes_toBytes := fun v => (congrArg make (ofBytes_toBytes (bits v))).trans (hmake v)
    toBytes_ofBytes := fun bytes h =>
      (congrArg Layout.toBytes (hbits (Layout.ofBytes bytes))).trans (toBytes_ofBytes bytes h) }

/-! ### Integers and words -/

instance : Lossless UInt16 :=
  integer (fun _ h => UInt16.toNat_ofNat_of_lt h) UInt16.toNat_lt fun _ => UInt16.ofNat_toNat

instance : Lossless UInt32 :=
  integer (fun _ h => UInt32.toNat_ofNat_of_lt h) UInt32.toNat_lt fun _ => UInt32.ofNat_toNat

instance : Lossless UInt64 :=
  integer (fun _ h => UInt64.toNat_ofNat_of_lt h) UInt64.toNat_lt fun _ => UInt64.ofNat_toNat

instance : Lossless ObjectId := record (fun _ => rfl) (fun _ => rfl)

instance : Lossless TransactionId := record (fun _ => rfl) (fun _ => rfl)

instance : Lossless TypeWord := record (fun _ => rfl) (fun _ => rfl)

end Lossless

/-! ### Decoding -/

/-- A value is decoded from as many bytes as it takes. -/
theorem decode_eq_ok_iff {α : Type} [Layout α] {data : ByteArray} {v : α} :
    decode data = .ok v ↔
      Layout.size α ≤ data.size ∧ Layout.ofBytes (data.extract 0 (Layout.size α)).toList = v := by
  unfold decode
  by_cases hshort : data.size < Layout.size α
  · simp [hshort]
  · simp [hshort, Nat.le_of_not_lt hshort]

section

variable {α : Type} [Layout α] [Lossless α]

@[simp] theorem size_encoded (v : α) : (encoded v).size = Layout.size α :=
  Lossless.length_toBytes v

/-- **A value is read back** where its bytes stand. -/
theorem decodeAt_of_standsAt {data : ByteArray} {offset : Nat} {v : α}
    (h : Bytes.StandsAt data offset (encoded v)) : decodeAt data offset = .ok v := by
  have hle := h.le
  rw [size_encoded] at hle
  have hsize : ¬ (data.extract offset data.size).size < Layout.size α := by
    rw [ByteArray.size_extract]
    omega
  -- Decoding drops what is in front, and then takes no more bytes than the value has.
  have hbytes : (data.extract offset data.size).extract 0 (Layout.size α) = encoded v := by
    rw [ByteArray.extract_extract, Nat.add_zero, Nat.min_eq_left hle, ← size_encoded v,
      h.extract_eq]
  rw [decodeAt, decode, if_neg hsize, hbytes, Bytes.toList_eq]
  exact congrArg _ (Lossless.ofBytes_toBytes v)

/-- The value at the front of data is read back. -/
theorem decode_of_standsAt {data : ByteArray} {v : α} (h : Bytes.StandsAt data 0 (encoded v)) :
    decode data = .ok v := by
  rw [← decodeAt_of_standsAt h, decodeAt, ByteArray.extract_zero_size]

end

/-- A value is written if there is room for it. -/
theorem encode_eq_ok {α : Type} [Layout α] {buffer : ByteArray} (v : α)
    (h : Layout.size α ≤ buffer.size) :
    encode v buffer = .ok (Bytes.overlay buffer 0 (encoded v)) :=
  if_neg (Nat.not_lt.mpr h)

section

variable {α : Type} [Layout α] [Lossless α]

/-- **Encoding** replaces the front of a buffer by bytes from which the value is read back. -/
theorem exists_encode {buffer : ByteArray} (v : α) (h : Layout.size α ≤ buffer.size) :
    ∃ written, encode v buffer = .ok written ∧ written.size = buffer.size ∧
      written.extract (Layout.size α) written.size = buffer.extract (Layout.size α) buffer.size ∧
      written.extract 0 (Layout.size α) = encoded v ∧ decode written = .ok v := by
  have hfits : 0 + (encoded v).size ≤ buffer.size := by
    rw [size_encoded, Nat.zero_add]
    exact h
  have hstands := Bytes.standsAt_overlay hfits
  have hsize := Bytes.size_overlay hfits
  refine ⟨_, encode_eq_ok v h, hsize, ?_, ?_, decode_of_standsAt hstands⟩
  · apply Bytes.ext_get
    · rw [ByteArray.size_extract, ByteArray.size_extract, hsize]
    · intro i hi
      rw [ByteArray.size_extract, hsize] at hi
      rw [Bytes.get_extract _ (by omega), Bytes.get_extract _ (by omega), Bytes.get_overlay hfits,
        if_neg (by rw [size_encoded]; omega)]
  · have hfront := hstands.extract_eq
    rw [size_encoded, Nat.zero_add] at hfront
    exact hfront

/-- **Decoding** gives a value that has the bytes that were decoded. -/
theorem exists_decode {data : ByteArray} (h : Layout.size α ≤ data.size) :
    ∃ v : α, decode data = .ok v ∧ encoded v = data.extract 0 (Layout.size α) := by
  have hlen : (data.extract 0 (Layout.size α)).data.toList.length = Layout.size α := by
    show (data.extract 0 (Layout.size α)).size = _
    rw [ByteArray.size_extract]
    omega
  refine ⟨_, if_neg (Nat.not_lt.mpr h), ?_⟩
  apply ByteArray.ext
  apply Array.toList_inj.mp
  show Layout.toBytes (Layout.ofBytes (data.extract 0 (Layout.size α)).toList : α) = _
  rw [Bytes.toList_eq, Lossless.toBytes_ofBytes _ hlen]

/-- What was decoded stands at the front of the data. -/
theorem standsAt_of_decode {data : ByteArray} {v : α} (h : decode data = .ok v) :
    Bytes.StandsAt data 0 (encoded v) := by
  obtain ⟨hsize, -⟩ := decode_eq_ok_iff.mp h
  obtain ⟨v', hv', hencoded⟩ := exists_decode hsize
  obtain rfl : v' = v := Except.ok.inj (hv'.symm.trans h)
  rw [Bytes.StandsAt, Bytes.slice?, size_encoded, Nat.zero_add, if_pos hsize, hencoded]

/-- Whatever stands at an offset can be decoded if there is enough of it. -/
theorem exists_decodeAt {data : ByteArray} {offset : Nat}
    (h : offset + Layout.size α ≤ data.size) : ∃ v : α, decodeAt data offset = .ok v := by
  have hsize : Layout.size α ≤ (data.extract offset data.size).size := by
    rw [ByteArray.size_extract]
    omega
  obtain ⟨v, hv, -⟩ := exists_decode (α := α) hsize
  exact ⟨v, hv⟩

end

end Apfs
