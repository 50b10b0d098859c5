import HttpWire.Fields.Basic
import HttpWire.Head.Block
import HttpWire.Head.Error
import HttpWire.Text.Blank
import HttpWire.Text.Decimal

/-!
# Heads

What the heads of requests and responses have in common: the version of the
protocol and the fields, what the fields say of the connection and of the
length of the body, and how a head is read: a start line, then a block of
fields.

All `Connection` fields together are one list of tokens.  `close` among them
wins over `keep-alive`, and either wins over the version.
-/

namespace HttpWire

variable [Hasher]

/-- The version and the fields of a message. -/
structure Head where
  version : Text
  fields : Fields

namespace Head

/-- The name `Connection`. -/
def connectionName : Text :=
  ['C', 'o', 'n', 'n', 'e', 'c', 't', 'i', 'o', 'n']

/-- The name `Content-Length`. -/
def contentLengthName : Text :=
  ['C', 'o', 'n', 't', 'e', 'n', 't', '-', 'L', 'e', 'n', 'g', 't', 'h']

/-- The token `close`. -/
def closeToken : Text :=
  ['c', 'l', 'o', 's', 'e']

/-- The token `keep-alive`. -/
def keepAliveToken : Text :=
  ['k', 'e', 'e', 'p', '-', 'a', 'l', 'i', 'v', 'e']

/-- The version whose connections stay open by default. -/
def persistentVersion : Text :=
  ['1', '.', '1']

/-- The first `Connection` field. -/
def connection? (head : Head) : Option Text :=
  head.fields.get? connectionName

/-- The tokens of a list of values joined by commas. -/
def tokens (value : Text) : List Text :=
  (value.splitOn ',').map Text.trim

/-- Takes in one more token when `keep-alive` has been heard already or not.
After `close` nothing more is heard. -/
def hear? (heard : Bool) (token : Text) : Option Bool :=
  if token.caselessEq closeToken then none
  else some (heard || token.caselessEq keepAliveToken)

/-- Goes through the `Connection` fields one by one, and through the tokens of
each, up to the first `close`: whether `keep-alive` has been heard. -/
def heard? (head : Head) : Option Bool :=
  (head.fields.findAll connectionName).foldlM
    (fun heard value => (tokens value).foldlM hear? heard) false

/-- Whether the connection stays open after the message. -/
def isKeepAlive (head : Head) : Bool :=
  match head.heard? with
  | none => false
  | some heard => heard || head.version == persistentVersion

/-- The length of the body that the first `Content-Length` field states, if it
fits 64 bits. -/
def contentLength? (head : Head) : Option UInt64 :=
  (head.fields.get? contentLengthName).bind fun value =>
    (Text.number? UInt64.size value.trim).map UInt64.ofNat

end Head

/-- Reads a start line with `parse` and then the fields behind it.  A start
line in error uses up that line and no more. -/
def Source.readHead {α : Type} (parse : Text → Except HeadError α) (limits : Limits)
    (s : Source) : Except HeadError (α × Fields) × Source :=
  match s.readLine limits.lineSize with
  | (.ended, rest) => (.error .noStartLine, rest)
  | (.tooLong, rest) => (.error .startLineTooLong, rest)
  | (.text line, rest) =>
    match parse line with
    | .error e => (.error e, rest)
    | .ok start =>
      let block := rest.readFields limits
      (.ok (start, block.1), block.2)

end HttpWire
