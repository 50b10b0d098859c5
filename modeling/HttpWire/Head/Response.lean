import HttpWire.Head.Basic
import HttpWire.Text.Slice
import HttpWire.Text.Utf8

/-!
# Responses

A status line is a protocol with its version, one space, and the status: all
the rest, which may be empty and may hold spaces.  The name of the protocol is
not compared: the version is what stands behind the first five octets, the
place of `HTTP/`, and the line is in error only if those octets are not there
or end inside a character.

The code of a status is its first three octets, if they are digits and a space
or nothing follows.  A status may be any text, so three octets may end inside a
character: then there is no code.
-/

namespace HttpWire

/-- A status line. -/
structure StatusLine where
  version : Text
  status : Text
  deriving DecidableEq, Repr

namespace StatusLine

/-- The number of octets of the protocol's name with its `/`. -/
def protocolSize : Nat := 5

/-- Reads a status line. -/
def parse (line : Text) : Except HeadError StatusLine :=
  match line.cutAt ' ' with
  | none => .error .noSpaceAfterVersion
  | some (protocol, status) =>
    if (Utf8.encode protocol).length < protocolSize then .error .versionTooShort
    else
      match protocol.splitOctets? protocolSize with
      | none => .error .wrongProtocol
      | some (_, version) => .ok ⟨version, status⟩

end StatusLine

/-- The classes of status codes. -/
inductive StatusClass where
  | informational
  | success
  | redirect
  | clientError
  | serverError
  deriving DecidableEq, Repr

namespace StatusClass

/-- The first code of a class; the last is 99 above it. -/
def base : StatusClass → Nat
  | .informational => 100
  | .success => 200
  | .redirect => 300
  | .clientError => 400
  | .serverError => 500

/-- Whether a code belongs to a class. -/
def holds (k : StatusClass) (code : Nat) : Bool :=
  k.base ≤ code && code < k.base + 100

end StatusClass

variable [Hasher]

/-- The head of a response. -/
structure Response extends Head where
  status : Text

namespace Response

/-- The number of octets of a code. -/
def codeSize : Nat := 3

/-- Whether an octet is a decimal digit. -/
def isDigitOctet (b : UInt8) : Bool :=
  48 ≤ b && b ≤ 57

/-- Whether a code may end before an octet, or where there is none. -/
def endsCode : Option UInt8 → Bool
  | none => true
  | some b => b == 32

/-- The code that a status begins with. -/
def codeOf (status : Text) : Option Nat :=
  match status.slice? ⟨0, codeSize⟩ with
  | none => none
  | some code =>
    if (Utf8.encode code).all isDigitOctet && endsCode (Utf8.encode status)[codeSize]? then
      Text.number? UInt16.size code
    else none

/-- The status code. -/
def code? (r : Response) : Option Nat :=
  codeOf r.status

/-- Whether the status code belongs to a class. -/
def isIn (k : StatusClass) (r : Response) : Bool :=
  r.code?.any k.holds

/-- The head with a given status line and given fields. -/
def ofLine (line : StatusLine) (fields : Fields) : Response :=
  { version := line.version, fields, status := line.status }

end Response

/-- Reads the head of a response. -/
def Source.readResponse (limits : Limits) (s : Source) : Except HeadError Response × Source :=
  let read := s.readHead StatusLine.parse limits
  (read.1.map fun head => Response.ofLine head.1 head.2, read.2)

end HttpWire
