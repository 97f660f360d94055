import Apfs.Error

namespace Apfs

/-!
# Volume locks

File data may be decoded only while its volume is unlocked.

* `VolumeLock` — a volume that is never locked, or one that a password unlocks.
* `VolumeLock.unlock` — tries a password; `VolumeLock.ensureUnlocked` — fails while locked.
-/

/-- The lock of a volume. -/
inductive VolumeLock where
  /-- The volume is not encrypted, and so never locked. -/
  | unencrypted
  /-- The volume is unlocked by `password`; `isLocked` is its present state. -/
  | encrypted (password : String) (isLocked : Bool)
deriving DecidableEq

namespace VolumeLock

/-- Whether the data of the volume cannot be decoded yet. -/
def isLocked : VolumeLock → Bool
  | unencrypted => false
  | encrypted _ locked => locked

/-- The lock after a password was tried.  A wrong password changes nothing. -/
def unlock (attempt : String) : VolumeLock → VolumeLock
  | unencrypted => unencrypted
  | encrypted password locked => encrypted password (locked && attempt != password)

/-- Fails while the volume is locked. -/
def ensureUnlocked (lock : VolumeLock) : Except Error Unit :=
  if lock.isLocked then .error .volumeLocked else .ok ()

end VolumeLock

end Apfs
