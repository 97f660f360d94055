import Apfs.Text.Lowercase

namespace Apfs

/-!
# Case sensitivity of names

* `CaseSensitivity` — whether upper and lower case make a difference on a volume.
* `CaseSensitivity.fold` — what a code point counts as.  Each code point counts on its own; names
  are not normalized.
-/

/-- Whether names that differ only in case are different. -/
inductive CaseSensitivity where
  /-- Case makes a difference. -/
  | sensitive
  /-- Case makes no difference. -/
  | insensitive
deriving DecidableEq

/-- What a code point counts as in comparisons and hashes. -/
def CaseSensitivity.fold : CaseSensitivity → Char → Char
  | sensitive, c => c
  | insensitive, c => Text.lowercase c

end Apfs
