namespace Apfs.Text

/-!
# Hexadecimal text

Bytes and machine words written with the lowercase digits `0` to `f`.

* `hexByte` — the two digits of a byte, the high half first.
* `hexBytes` — the digits of a byte string, as message digests are written.
* `hexNat` — a number after `0x`, without leading zeros.
* `hexWord` — a number after `0x`, padded with zeros to a number of digits.
-/

/-- The two digits of `b`. -/
def hexByte (b : UInt8) : List Char :=
  [Nat.digitChar (b.toNat / 16), Nat.digitChar (b.toNat % 16)]

/-- The digits of `data`, two for each byte. -/
def hexBytes (data : ByteArray) : String :=
  data.foldl (fun text b => (hexByte b).foldl String.push text) ""

/-- The number `n` after `0x`, without leading zeros. -/
def hexNat (n : Nat) : String :=
  "0x" ++ String.ofList (Nat.toDigits 16 n)

/-- The number `n` after `0x`, padded on the left to `width` digits. -/
def hexWord (width n : Nat) : String :=
  let digits := Nat.toDigits 16 n
  "0x" ++ String.ofList (List.replicate (width - digits.length) '0' ++ digits)

end Apfs.Text
