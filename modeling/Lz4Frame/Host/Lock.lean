import Lz4Frame.Host.Gate

/-!
# The host lock

One lock, held by at most one thread at a time, that counts how often it was given back.  The
functions of this module say what one thread meets that has nobody to wait for; several threads are
the matter of `Lz4Frame.Host.Threads`.
-/

namespace Lz4Frame

/-- Whether the lock is held, and how often it was given back. -/
structure HostLock where
  held : Bool := false
  releases : Nat := 0
  deriving DecidableEq, Repr

namespace HostLock

/-- Takes the lock; a lock that is held has to be waited for. -/
def acquire? (lock : HostLock) : Option HostLock :=
  if lock.held then none else some { lock with held := true }

/-- Takes a lock that is known to be free. -/
def acquire (lock : HostLock) : HostLock := { lock with held := true }

/-- Gives the lock back. -/
def release (lock : HostLock) : HostLock := ⟨false, lock.releases + 1⟩

theorem acquire?_release (lock : HostLock) :
    lock.release.acquire? = some lock.release.acquire := rfl

/-- Follows what happens on the lock around a call; gives the lock as the call sees it, if there is
a call, and the lock afterwards. -/
def follow (lock : HostLock) (seen : Option HostLock) : List LockEvent → Option HostLock × HostLock
  | [] => (seen, lock)
  | .release :: rest => follow lock.release seen rest
  | .acquire :: rest => follow lock.acquire seen rest
  | .call _ :: rest => follow lock (some lock) rest

/-- A call on `amount` bytes through a gate to this lock: whether the call finds the lock held, and
the lock afterwards. -/
def run (lock : HostLock) (threshold amount : Nat) : Bool × HostLock :=
  let (seen, lock) := lock.follow none (Gate.around ⟨.locked, threshold⟩ amount)
  ((seen.map HostLock.held).getD false, lock)

/-- The holder lets another thread have the lock once and takes it again: whether the other thread
finds it held, and the lock afterwards. -/
def handOff (lock : HostLock) : Bool × HostLock :=
  let inside := lock.release.acquire
  (inside.held, inside.release.acquire)

end HostLock

end Lz4Frame
