import HttpWire.Gate.Basic

/-!
# Sessions at a gate

A session is a gate together with everyone who deals with it: the guards that
are held, each under a name, and the calls to stop that wait because scopes
are still inside.

A guard lets its scope leave when it is dropped, on whatever thread, and also
when the code that holds it unwinds.  A waiting call tries again after every
operation.  As long as a guard is held it goes on waiting, and entering goes
on succeeding; when the last guard is gone, all waiting calls complete.
-/

namespace HttpWire.Gate

/-- The two kinds of guard, which count alike. -/
inductive GuardKind where
  /-- Must go before the gate does. -/
  | attached
  /-- Keeps the gate alive and can be taken anywhere. -/
  | detached
  deriving DecidableEq, Repr

/-- A guard that is held under a name. -/
structure Guard where
  name : String
  kind : GuardKind
  deriving DecidableEq, Repr

/-- A gate, its guards and the calls to stop that wait for it. -/
structure Session where
  gate : Gate
  /-- The guards that are held, the latest last. -/
  guards : List Guard
  /-- The numbers of the calls that wait, the latest last. -/
  waiting : List Nat
  /-- How many calls to stop have been made. -/
  calls : Nat
  deriving DecidableEq, Repr

/-- One thing done at a gate. -/
inductive Op where
  /-- Tries to enter, keeping the guard under a name. -/
  | enter (kind : GuardKind) (name : String)
  /-- Drops the guard of a name. -/
  | drop (name : String)
  /-- Tries to enter, and unwinds while inside. -/
  | unwind
  /-- Calls for the gate to stop. -/
  | stop
  /-- Looks at the state. -/
  | look
  deriving DecidableEq, Repr

/-- What an operation answers. -/
inductive Answer where
  /-- Whether a guard was given. -/
  | entered (given : Bool)
  /-- Whether there was such a guard. -/
  | dropped (held : Bool)
  /-- The number of scopes seen from inside, if a guard was given. -/
  | unwound (inside : Option UInt32)
  /-- Whether the call completed at once; if not, it waits. -/
  | stopped (atOnce : Bool)
  /-- The state. -/
  | seen (state : State)
  deriving DecidableEq, Repr

namespace Session

/-- The session before anything happened. -/
def initial : Session :=
  ⟨Gate.initial, [], [], 0⟩

/-- Whether a guard is held under a name. -/
def holds (s : Session) (name : String) : Bool :=
  s.guards.any (·.name = name)

/-- Drops the oldest guard of a name; its scope leaves. -/
def drop (s : Session) (name : String) : Session :=
  { s with gate := s.gate.leave, guards := s.guards.eraseP (·.name = name) }

/-- Enters the gate `entered` with a guard; a guard that already has the name
gives way. -/
def keep (s : Session) (entered : Gate) (g : Guard) : Session :=
  let kept := { s with gate := entered, guards := s.guards ++ [g] }
  if s.holds g.name then kept.drop g.name else kept

/-- One waiting call tries again: either it completes, or it waits on. -/
def retryOne (s : Session) (call : Nat) : List Nat × Session :=
  match s.gate.stop? with
  | some stopped => ([call], { s with gate := stopped })
  | none => ([], { s with waiting := s.waiting ++ [call] })

/-- Some calls try again, one after the other; gives those that complete. -/
def retry (s : Session) : List Nat → List Nat × Session
  | [] => ([], s)
  | call :: later =>
    let first := s.retryOne call
    let others := retry first.2 later
    (first.1 ++ others.1, others.2)

/-- All waiting calls try again. -/
def settle (s : Session) : List Nat × Session :=
  retry { s with waiting := [] } s.waiting

/-- What an operation does itself, before waiting calls try again. -/
def act (s : Session) : Op → Answer × Session
  | .enter kind name =>
    match s.gate.enter? with
    | some entered => (.entered true, s.keep entered ⟨name, kind⟩)
    | none => (.entered false, s)
  | .drop name =>
    if s.holds name then (.dropped true, s.drop name) else (.dropped false, s)
  | .unwind =>
    match s.gate.enter? with
    | some entered => (.unwound (some entered.scopes), { s with gate := entered.leave })
    | none => (.unwound none, s)
  | .stop =>
    let called := { s with calls := s.calls + 1 }
    match s.gate.stop? with
    | some stopped => (.stopped true, { called with gate := stopped })
    | none => (.stopped false, { called with waiting := s.waiting ++ [s.calls] })
  | .look => (.seen s.gate.state, s)

/-- What an operation comes to: its answer, the waiting calls that completed
after it, and the session then. -/
structure Step where
  answer : Answer
  completed : List Nat
  session : Session
  deriving DecidableEq, Repr

/-- Does one operation. -/
def step (s : Session) (op : Op) : Step :=
  let acted := s.act op
  let settled := acted.2.settle
  ⟨acted.1, settled.1, settled.2⟩

/-- Does operations one after the other. -/
def run (s : Session) : List Op → List Step
  | [] => []
  | op :: later =>
    let done := s.step op
    done :: run done.session later

end Session
end HttpWire.Gate
