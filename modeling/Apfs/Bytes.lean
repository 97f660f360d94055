namespace Apfs.Bytes

/-!
# Byte strings

Cutting pieces out of byte strings, putting pieces into them, and numbers written as bytes.

* `get`, `slice?` — the byte at an offset, and the bytes of a range that lies inside the data.
* `overlay` — the data with some of its bytes replaced.
* `fill`, `zeros` — runs of equal bytes.
* `resize` — the data, cut off or filled up to a size.
* `wholePieces` — the data, cut into pieces of one size.
* `copyBack` — the data with earlier bytes of its own repeated at the end.
* `littleEndian`, `ofLittleEndian` — the bytes of a number, least significant first, and the
  number that bytes stand for.
-/

/-! ### Ranges -/

/-- The `length` bytes from `start` on, if all of them are inside `data`. -/
def slice? (data : ByteArray) (start length : Nat) : Option ByteArray :=
  if start + length ≤ data.size then some (data.extract start (start + length)) else none

/-- The byte at offset `i`, or 0 if `data` ends before it. -/
def get (data : ByteArray) (i : Nat) : UInt8 :=
  if h : i < data.size then data[i] else 0

/-- The bytes of `data` with those from `start` on replaced by `piece`.  The piece is meant to
    fit: `start + piece.size ≤ data.size`. -/
def overlay (data : ByteArray) (start : Nat) (piece : ByteArray) : ByteArray :=
  data.extract 0 start ++ piece ++ data.extract (start + piece.size) data.size

/-- A run of `n` bytes, each equal to `b`. -/
def fill (n : Nat) (b : UInt8) : ByteArray :=
  go n (.emptyWithCapacity n)
where
  /-- Appends `n` copies of `b`. -/
  go : Nat → ByteArray → ByteArray
    | 0, out => out
    | n + 1, out => go n (out.push b)

/-- A run of `n` zero bytes. -/
def zeros (n : Nat) : ByteArray := fill n 0

/-- The data with `size` bytes: what is too much is cut off, and what is missing is zero. -/
def resize (data : ByteArray) (size : Nat) : ByteArray :=
  data.extract 0 size ++ zeros (size - data.size)

/-- The pieces of `width` bytes into which the data can be cut from its front.  What is left over at
    the end is not a whole piece, and is dropped. -/
def wholePieces (data : ByteArray) (width : Nat) : List ByteArray :=
  (List.range (data.size / width)).map fun i => data.extract (i * width) ((i + 1) * width)

/-- The data with `count` bytes more, each equal to the one `distance` before it.  A copy may run
    into the bytes that it appends, and then repeats them.  At distance 0 the bytes are zero. -/
def copyBack (data : ByteArray) (distance : Nat) : (count : Nat) → ByteArray
  | 0 => data
  | count + 1 => copyBack (data.push (get data (data.size - distance))) distance count

/-! ### Numbers -/

/-- The number whose bytes, least significant first, are `bytes`. -/
def ofLittleEndian : List UInt8 → Nat
  | [] => 0
  | b :: rest => b.toNat + 256 * ofLittleEndian rest

/-- The low `width` bytes of `n`, least significant first. -/
def littleEndian : (width n : Nat) → List UInt8
  | 0, _ => []
  | width + 1, n => UInt8.ofNat n :: littleEndian width (n / 256)

/-- The number whose bytes, most significant first, are `bytes`. -/
def ofBigEndian (bytes : List UInt8) : Nat :=
  ofLittleEndian bytes.reverse

@[simp] theorem length_littleEndian (width n : Nat) : (littleEndian width n).length = width := by
  induction width generalizing n with
  | zero => rfl
  | succ width ih => simp [littleEndian, ih]

/-- Writing a number and reading it again gives its low bits, eight for each byte. -/
theorem ofLittleEndian_littleEndian (width n : Nat) :
    ofLittleEndian (littleEndian width n) = n % (1 <<< (8 * width)) := by
  induction width generalizing n with
  | zero => simp [littleEndian, ofLittleEndian, Nat.mod_one]
  | succ width ih =>
    have shift : 1 <<< (8 * (width + 1)) = 256 * 1 <<< (8 * width) := by
      simp only [Nat.one_shiftLeft, Nat.mul_add, Nat.pow_add]
      omega
    simp only [littleEndian, ofLittleEndian, ih, UInt8.toNat_ofNat', shift]
    exact Nat.mod_mul.symm

/-- The bytes of the number that `bytes` stand for are `bytes`. -/
theorem littleEndian_ofLittleEndian (bytes : List UInt8) :
    littleEndian bytes.length (ofLittleEndian bytes) = bytes := by
  induction bytes with
  | nil => rfl
  | cons b rest ih =>
    have hb : b.toNat < 256 := b.toNat_lt
    have hdiv : (b.toNat + 256 * ofLittleEndian rest) / 256 = ofLittleEndian rest := by omega
    have hmod : UInt8.ofNat (b.toNat + 256 * ofLittleEndian rest) = b := by
      apply UInt8.toNat_inj.1
      simp only [UInt8.toNat_ofNat']
      omega
    simp only [List.length_cons, littleEndian, ofLittleEndian, hdiv, hmod, ih]

end Apfs.Bytes
