/-!
# Shared locks

A lock is held either by any number of readers or by one writer.  Readers come
first: a reader is let in unless a writer holds the lock, no matter who is
waiting, and a writer is let in only when nobody holds it.

Who is refused may wait for a notice.  A writer that goes gives notice, and so
does the last reader; a reader that leaves others behind gives none, for it
frees nobody.
-/

namespace HttpWire

/-- The two ways to hold a lock. -/
inductive Mode where
  /-- Together with other readers. -/
  | shared
  /-- Alone, as a writer. -/
  | unique
  deriving DecidableEq, Repr

/-- Who holds a lock: so many readers, and perhaps a writer. -/
structure Lock where
  readers : Nat
  writer : Bool
  deriving DecidableEq, Repr

namespace Lock

/-- A lock that nobody holds. -/
def free : Lock := ⟨0, false⟩

/-- Whether a lock can be taken in a mode. -/
def admits (l : Lock) : Mode → Bool
  | .shared => !l.writer
  | .unique => !l.writer && l.readers == 0

/-- The lock with one more holder. -/
def take (l : Lock) : Mode → Lock
  | .shared => { l with readers := l.readers + 1 }
  | .unique => { l with writer := true }

/-- The lock with one more holder, if it admits one. -/
def take? (l : Lock) (mode : Mode) : Option Lock :=
  if l.admits mode then some (l.take mode) else none

/-- The lock with one holder less. -/
def release (l : Lock) : Mode → Lock
  | .shared => { l with readers := l.readers - 1 }
  | .unique => { l with writer := false }

/-- Whether a release in a mode, after which the lock is `l`, gives notice. -/
def givesNotice (l : Lock) : Mode → Bool
  | .shared => l.readers == 0
  | .unique => true

end Lock
end HttpWire
