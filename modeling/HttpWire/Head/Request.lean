import HttpWire.Head.Basic
import HttpWire.Query

/-!
# Requests

A request line is a method, a target and a protocol with its version, with one
space between them.  The target is a path and, behind its first `?`, a query.
The parts are looked for from left to right, and the first that is missing
names the error.
-/

namespace HttpWire

/-- A request line. -/
structure RequestLine where
  method : Text
  path : Text
  query : Text
  version : Text
  deriving DecidableEq, Repr

namespace RequestLine

/-- The name of the protocol. -/
def protocol : Text :=
  ['H', 'T', 'T', 'P']

/-- The path and the query of a target. -/
def splitTarget (target : Text) : Text × Text :=
  (target.cutAt '?').getD (target, [])

/-- The version behind the name of the protocol. -/
def versionOf (t : Text) : Except HeadError Text :=
  match t.cutAt '/' with
  | none => .error .noSlashInProtocol
  | some (name, version) =>
    if name ≠ protocol then .error .wrongProtocol
    else if version.isEmpty then .error .emptyVersion
    else .ok version

/-- Reads a request line. -/
def parse (line : Text) : Except HeadError RequestLine :=
  match line.cutAt ' ' with
  | none => .error .noSpaceAfterMethod
  | some (method, rest) =>
    match rest.cutAt ' ' with
    | none => .error .noSpaceAfterTarget
    | some (target, protocol) =>
      (versionOf protocol).map fun version =>
        ⟨method, (splitTarget target).1, (splitTarget target).2, version⟩

end RequestLine

variable [Hasher]

/-- The head of a request. -/
structure Request extends Head where
  method : Text
  path : Text
  query : Text

namespace Request

/-- The fields of the query. -/
def queryFields (r : Request) : Fields :=
  Query.parse r.query

/-- The path with its escapes resolved. -/
def decodedPath (r : Request) : Text :=
  Percent.decode r.path

/-- The head with a given request line and given fields. -/
def ofLine (line : RequestLine) (fields : Fields) : Request :=
  { version := line.version, fields, method := line.method, path := line.path,
    query := line.query }

end Request

/-- Reads the head of a request. -/
def Source.readRequest (limits : Limits) (s : Source) : Except HeadError Request × Source :=
  let read := s.readHead RequestLine.parse limits
  (read.1.map fun head => Request.ofLine head.1 head.2, read.2)

end HttpWire
