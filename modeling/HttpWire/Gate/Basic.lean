/-!
# Gates

A gate counts the scopes that are inside and can be stopped for good.  Its
whole state is one 32-bit word: the greatest value means stopped, every other
value is the number of scopes inside.

A scope enters by adding one and leaves by subtracting one.  Entering is
refused by a stopped gate, and also where one more scope would make the word
mean stopped.  Leaving does not look at the word at all; that it never turns
one state into the other rests on every leave having its own enter before it.
-/

namespace HttpWire

/-- A gate, as its word. -/
structure Gate where
  word : UInt32
  deriving DecidableEq, Repr

namespace Gate

/-- The word of a stopped gate. -/
def stoppedWord : UInt32 := 0xFFFFFFFF

/-- The states of a gate. -/
inductive State where
  /-- Open, with a number of scopes inside. -/
  | active (scopes : UInt32)
  /-- Stopped, now and for ever. -/
  | stopped
  deriving DecidableEq, Repr

/-- An open gate without scopes. -/
def initial : Gate := ⟨0⟩

/-- A stopped gate. -/
def stoppedGate : Gate := ⟨stoppedWord⟩

/-- What the word means. -/
def state (g : Gate) : State :=
  if g.word = stoppedWord then .stopped else .active g.word

/-- Whether the gate is stopped. -/
def isStopped (g : Gate) : Bool :=
  g.state = .stopped

/-- The number of scopes inside; none are inside a stopped gate. -/
def scopes (g : Gate) : UInt32 :=
  match g.state with
  | .active n => n
  | .stopped => 0

/-- The gate with one more scope inside, unless it refuses. -/
def enter? (g : Gate) : Option Gate :=
  match g.state with
  | .stopped => none
  | .active n => if n + 1 = stoppedWord then none else some ⟨n + 1⟩

/-- The gate with one scope less; the word wraps around. -/
def leave (g : Gate) : Gate :=
  ⟨g.word - 1⟩

/-- The stopped gate, if no scope is inside. -/
def stop? (g : Gate) : Option Gate :=
  if g.word = 0 then some stoppedGate
  else if g.word = stoppedWord then some g
  else none

end Gate
end HttpWire
