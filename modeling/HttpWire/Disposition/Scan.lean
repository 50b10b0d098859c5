import HttpWire.Text.Slice
import HttpWire.Text.Utf8

/-!
# Scanning a disposition value

A `Content-Disposition` value is scanned once, octet by octet, by a machine
with four phases.  The machine holds no text: it remembers offsets, and for
each parameter that it accepts it gives the span of the name and, if there is
one, of the quoted value.  Only ASCII octets make it change phase, so the
spans never cut a character in two.

A parameter is dropped when its value is not quoted, or when the quotes are
not closed; a `;` before the opening quote starts the next parameter.  A quote
that is the last octet of all opens nothing.
-/

namespace HttpWire.Disposition

open Text (Span)

/-- Where the scan stands. -/
inductive Phase where
  /-- Between parameters. -/
  | between
  /-- In a name that began at `start`. -/
  | inName (start : Nat)
  /-- Behind the `=` of a name, before an opening quote. -/
  | beforeQuote (label : Span)
  /-- In the quoted value, begun at `start`, of a name. -/
  | inQuotes (label : Span) (start : Nat)
  deriving DecidableEq, Repr

/-- A parameter that the scan has found. -/
structure Found where
  name : Span
  value : Option Span
  deriving DecidableEq, Repr

/-- The octet of a space. -/
def space : UInt8 := 32

/-- The octet of `"`. -/
def quote : UInt8 := 34

/-- The octet of `;`. -/
def semicolon : UInt8 := 59

/-- The octet of `=`. -/
def equals : UInt8 := 61

/-- The phase after octet `b` at offset `i`, and the parameter that this octet
completes.  `isLast` tells whether the octet is the last of all. -/
def Phase.step (isLast : Bool) (i : Nat) (b : UInt8) : Phase → Phase × Option Found
  | .between =>
    if b = space ∨ b = semicolon then (.between, none) else (.inName i, none)
  | .inName start =>
    if b = semicolon then (.between, some ⟨⟨start, i⟩, none⟩)
    else if b = equals then (.beforeQuote ⟨start, i⟩, none)
    else (.inName start, none)
  | .beforeQuote label =>
    if b = quote ∧ !isLast then (.inQuotes label (i + 1), none)
    else if b = semicolon then (.between, none)
    else (.beforeQuote label, none)
  | .inQuotes label start =>
    if b = quote then (.between, some ⟨label, some ⟨start, i⟩⟩)
    else (.inQuotes label start, none)

/-- The parameter that the end of the value at offset `i` completes. -/
def Phase.finish (i : Nat) : Phase → Option Found
  | .inName start => some ⟨⟨start, i⟩, none⟩
  | _ => none

/-- The parameters found from offset `i` on. -/
def scanFrom (i : Nat) (phase : Phase) : Octets → List Found
  | [] => (phase.finish i).toList
  | b :: rest =>
    let next := phase.step rest.isEmpty i b
    next.2.toList ++ scanFrom (i + 1) next.1 rest

/-- The parameters found in a value. -/
def scan (octets : Octets) : List Found :=
  scanFrom 0 .between octets

end HttpWire.Disposition
