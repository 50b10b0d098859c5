import HttpWire.Text.Basic

/-!
# UTF-8, with replacement

Text is written as UTF-8.  Reading never fails: octets that are no UTF-8 are
shown as U+FFFD, one for each maximal ill-formed part.

The reader is a machine that takes one octet at a time.  Between two octets it
is either at the start of a character or in the middle of one; in the middle
it knows the range in which the next octet must lie.  The ranges are those of
the standard's table of well-formed sequences, narrowed after `E0`, `ED`, `F0`
and `F4`, so overlong forms, surrogates and values past U+10FFFF are refused
at their second octet.  An octet outside the range ends the part read so far,
which becomes one U+FFFD, and is then read afresh.
-/

namespace HttpWire.Utf8

/-- The UTF-8 form of a text. -/
def encode (t : Text) : Octets :=
  t.flatMap String.utf8EncodeChar

/-- The character that stands for an ill-formed part. -/
def replacement : Char := '\uFFFD'

/-- The middle of a character: the next octet lies between `low` and `high`,
`after` more octets follow it, and `value` holds the bits read so far. -/
structure Partial where
  low : Nat
  high : Nat
  after : Nat
  value : Nat
  deriving DecidableEq, Repr

/-- What one octet does at the start of a character. -/
inductive Lead where
  /-- The octet is a whole character. -/
  | whole (c : Char)
  /-- The octet opens a longer character. -/
  | opens (p : Partial)
  /-- The octet opens nothing. -/
  | stray
  deriving DecidableEq, Repr

/-- The first column of the table of well-formed sequences. -/
def lead (b : UInt8) : Lead :=
  let v := b.toNat
  if v < 0x80 then .whole (Char.ofNat v)
  else if v < 0xC2 then .stray
  else if v < 0xE0 then .opens ⟨0x80, 0xBF, 0, v - 0xC0⟩
  else if v = 0xE0 then .opens ⟨0xA0, 0xBF, 1, 0⟩
  else if v = 0xED then .opens ⟨0x80, 0x9F, 1, 0xD⟩
  else if v < 0xF0 then .opens ⟨0x80, 0xBF, 1, v - 0xE0⟩
  else if v = 0xF0 then .opens ⟨0x90, 0xBF, 2, 0⟩
  else if v < 0xF4 then .opens ⟨0x80, 0xBF, 2, v - 0xF0⟩
  else if v = 0xF4 then .opens ⟨0x80, 0x8F, 2, 4⟩
  else .stray

/-- The reader between two octets: at the start of a character, or inside. -/
abbrev State := Option Partial

/-- Reads one octet at the start of a character. -/
def fresh (b : UInt8) : Text × State :=
  match lead b with
  | .whole c => ([c], none)
  | .opens p => ([], some p)
  | .stray => ([replacement], none)

/-- Reads one octet inside a character; one out of range ends the ill-formed
part and begins anew. -/
def resume (p : Partial) (b : UInt8) : Text × State :=
  if p.low ≤ b.toNat ∧ b.toNat ≤ p.high then
    let value := p.value * 64 + (b.toNat - 0x80)
    match p.after with
    | 0 => ([Char.ofNat value], none)
    | n + 1 => ([], some ⟨0x80, 0xBF, n, value⟩)
  else
    let next := fresh b
    (replacement :: next.1, next.2)

/-- Reads one octet. -/
def step : State → UInt8 → Text × State
  | none, b => fresh b
  | some p, b => resume p b

/-- Reads octets to the end; a character cut short there is ill-formed too. -/
def decodeFrom : State → Octets → Text
  | none, [] => []
  | some _, [] => [replacement]
  | s, b :: rest => (step s b).1 ++ decodeFrom (step s b).2 rest

/-- The text that octets spell, with U+FFFD for each ill-formed part. -/
def decode (octets : Octets) : Text :=
  decodeFrom none octets

end HttpWire.Utf8
