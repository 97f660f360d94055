import Apfs.Bytes
import Apfs.Error

namespace Apfs

/-!
# What a decoder leaves behind

A decoder writes its output from the start of a buffer of limited size and may fail on the way,
with part of the output written.

* `Decoded` — the bytes written, and whether decoding failed.
* `Decoded.into` — the same for a caller's buffer: the bytes that were not written stay.
-/

/-- The result of decoding into a buffer. -/
structure Decoded where
  /-- The bytes written from the start of the buffer on. -/
  output : ByteArray
  /-- The error that ended decoding, if one did. -/
  outcome : Except Error Unit

namespace Decoded

/-- Success with the given output. -/
def ok (output : ByteArray) : Decoded := ⟨output, .ok ()⟩

/-- Failure before anything is written. -/
def error (e : Error) : Decoded := ⟨.empty, .error e⟩

/-- The output, unless decoding failed. -/
def result (d : Decoded) : Except Error ByteArray :=
  d.outcome.map fun _ => d.output

/-- The number of bytes written, unless decoding failed, and `buffer` with the output in it. -/
def into (d : Decoded) (buffer : ByteArray) : Except Error Nat × ByteArray :=
  (d.outcome.map fun _ => d.output.size, Bytes.overlay buffer 0 d.output)

end Decoded

end Apfs
