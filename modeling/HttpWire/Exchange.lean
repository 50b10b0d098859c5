import HttpWire.Head.Request
import HttpWire.Head.Response

/-!
# Exchanges

A connection carries one message after the other on one source.  An exchange
is a list of steps, each of which reads a head, a block of fields or some
octets of a body from where the step before it stopped.
-/

namespace HttpWire.Exchange

/-- One thing to read. -/
inductive Step where
  | fields (limits : Limits)
  | request (limits : Limits)
  | response (limits : Limits)
  /-- At most `count` octets as they are. -/
  | octets (count : Nat)
  deriving DecidableEq, Repr

variable [Hasher]

/-- What a step has read. -/
inductive Outcome where
  | fields (fields : Fields)
  | request (result : Except HeadError Request)
  | response (result : Except HeadError Response)
  /-- The octets, and whether the read went on without a failure. -/
  | octets (octets : Octets) (intact : Bool)

/-- Takes one step on a source. -/
def Step.run (s : Source) : Step → Outcome × Source
  | .fields limits =>
    let read := s.readFields limits
    (.fields read.1, read.2)
  | .request limits =>
    let read := s.readRequest limits
    (.request read.1, read.2)
  | .response limits =>
    let read := s.readResponse limits
    (.response read.1, read.2)
  | .octets count =>
    let taken := s.takeOctets count
    (.octets taken.octets !taken.failed, taken.rest)

/-- Takes steps one after the other; each outcome stands with the source that
its step left. -/
def run (s : Source) : List Step → List (Outcome × Source)
  | [] => []
  | step :: later =>
    let done := step.run s
    done :: run done.2 later

end HttpWire.Exchange
