import HttpWire.Lock.Basic

/-!
# Sessions with a lock

A session is a lock together with everyone who deals with it: the guards that
are held, each under a name, and the calls that are blocked, in the order in
which they came.

When notice is given, the blocked calls try again in that order, and each
either takes the lock or stays blocked.  A guard that a blocked call takes is
named `w` and a number that counts such guards from 1.
-/

namespace HttpWire.Lock

/-- A guard that is held under a name. -/
structure Guard where
  name : String
  mode : Mode
  deriving DecidableEq, Repr

/-- A lock, its guards and the calls that are blocked. -/
structure Session where
  lock : Lock
  /-- The guards that are held, the latest last. -/
  guards : List Guard
  /-- The calls that are blocked, the latest last. -/
  blocked : List Mode
  /-- How many calls were blocked and have got the lock since. -/
  granted : Nat
  deriving DecidableEq, Repr

/-- One thing done with a lock. -/
inductive Op where
  /-- Takes the lock if it is to be had, keeping the guard under a name. -/
  | attempt (mode : Mode) (name : String)
  /-- Takes the lock, blocked until it is to be had. -/
  | await (mode : Mode) (name : String)
  /-- Drops the guard of a name. -/
  | drop (name : String)
  /-- Takes the lock if it is to be had, and unwinds while holding it. -/
  | unwind (mode : Mode)
  deriving DecidableEq, Repr

/-- What an operation answers. -/
inductive Answer where
  /-- Whether the lock was taken. -/
  | taken (got : Bool)
  /-- The call is blocked. -/
  | blocks
  /-- Whether there was such a guard. -/
  | dropped (held : Bool)
  /-- Whether the lock was held while unwinding. -/
  | unwound (locked : Bool)
  deriving DecidableEq, Repr

namespace Session

/-- The session before anything happened. -/
def initial : Session :=
  ⟨Lock.free, [], [], 0⟩

/-- The name of the guard that a blocked call gets as the `n`th of its kind. -/
def wakeName (n : Nat) : String :=
  "w" ++ toString n

/-- One blocked call tries again: either it takes the lock, or it stays
blocked. -/
def retryOne (s : Session) (mode : Mode) : Session :=
  match s.lock.take? mode with
  | some lock =>
    { s with
      lock
      guards := s.guards ++ [⟨wakeName (s.granted + 1), mode⟩]
      granted := s.granted + 1 }
  | none => { s with blocked := s.blocked ++ [mode] }

/-- All blocked calls try again, in the order in which they came. -/
def wake (s : Session) : Session :=
  s.blocked.foldl retryOne { s with blocked := [] }

/-- Releases the lock, and wakes the blocked calls if that gives notice. -/
def release (s : Session) (mode : Mode) : Session :=
  let released := { s with lock := s.lock.release mode }
  if released.lock.givesNotice mode then released.wake else released

/-- The oldest guard of a name. -/
def guard? (s : Session) (name : String) : Option Guard :=
  s.guards.find? (·.name = name)

/-- Drops the oldest guard of a name. -/
def drop (s : Session) (g : Guard) : Session :=
  { s with guards := s.guards.eraseP (·.name = g.name) }.release g.mode

/-- Keeps a guard with which the lock is now `lock`; a guard that already has
the name gives way. -/
def keep (s : Session) (lock : Lock) (g : Guard) : Session :=
  let kept := { s with lock, guards := s.guards ++ [g] }
  match s.guard? g.name with
  | some older => kept.drop older
  | none => kept

/-- Does one operation. -/
def step (s : Session) : Op → Answer × Session
  | .attempt mode name =>
    match s.lock.take? mode with
    | some lock => (.taken true, s.keep lock ⟨name, mode⟩)
    | none => (.taken false, s)
  | .await mode name =>
    match s.lock.take? mode with
    | some lock => (.taken true, s.keep lock ⟨name, mode⟩)
    | none => (.blocks, { s with blocked := s.blocked ++ [mode] })
  | .drop name =>
    match s.guard? name with
    | some g => (.dropped true, s.drop g)
    | none => (.dropped false, s)
  | .unwind mode =>
    match s.lock.take? mode with
    | some lock => (.unwound true, { s with lock }.release mode)
    | none => (.unwound false, s)

/-- Does operations one after the other; each answer stands with the session
that its operation left. -/
def run (s : Session) : List Op → List (Answer × Session)
  | [] => []
  | op :: later =>
    let done := s.step op
    done :: run done.2 later

/-- The guards that are held, in the order of their names. -/
def roster (s : Session) : List Guard :=
  s.guards.mergeSort fun a b => decide (a.name ≤ b.name)

/-- How many calls of a mode are blocked. -/
def blockedCount (s : Session) (mode : Mode) : Nat :=
  s.blocked.count mode

end Session
end HttpWire.Lock
