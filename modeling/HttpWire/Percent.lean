import HttpWire.Text.Utf8

/-!
# Percent-encoding of form values

A space is written `+`, and a character with a meaning of its own in a query
is written as `%` and two upper-case hexadecimal digits.  Everything else,
text outside ASCII included, stands for itself.

Decoding works on octets: `%` followed by two hexadecimal digits of either
case is the octet they spell, `+` is a space, and any other octet stands for
itself, a `%` without its two digits among them.  So decoding never fails, and
the octets are then read as UTF-8 with replacement.
-/

namespace HttpWire.Percent

/-- The characters that are escaped. -/
def reserved : List Char :=
  ['!', '#', '$', '%', '&', '\'', '(', ')', '*', '+', ',', '/', ':', ';', '=',
   '?', '@', '[', ']']

/-- The upper-case hexadecimal digit of a number below 16. -/
def hexDigit (n : Nat) : Char :=
  if n < 10 then Char.ofNat (48 + n) else Char.ofNat (55 + n)

/-- How one character is written. -/
def encodeChar (c : Char) : Text :=
  if c = ' ' then ['+']
  else if c ∈ reserved then ['%', hexDigit (c.toNat / 16), hexDigit (c.toNat % 16)]
  else [c]

/-- A text, percent-encoded. -/
def encode (t : Text) : Text :=
  t.flatMap encodeChar

/-- The value of a hexadecimal digit of either case. -/
def hexValue? (b : UInt8) : Option UInt8 :=
  if 48 ≤ b ∧ b ≤ 57 then some (b - 48)
  else if 65 ≤ b ∧ b ≤ 70 then some (b - 55)
  else if 97 ≤ b ∧ b ≤ 102 then some (b - 87)
  else none

/-- The octet that three octets escape, if they are `%` and two hexadecimal
digits. -/
def escaped? (mark high low : UInt8) : Option UInt8 :=
  if mark = 37 then do
    let h ← hexValue? high
    let l ← hexValue? low
    return 16 * h + l
  else none

/-- What an octet outside an escape stands for. -/
def literal (b : UInt8) : UInt8 :=
  if b = 43 then 32 else b

/-- Octets with their escapes resolved. -/
def unescape : Octets → Octets
  | mark :: high :: low :: rest =>
    match escaped? mark high low with
    | some b => b :: unescape rest
    | none => literal mark :: unescape (high :: low :: rest)
  | b :: rest => literal b :: unescape rest
  | [] => []

/-- The octets that a percent-encoded text stands for. -/
def decodeOctets (t : Text) : Octets :=
  unescape (Utf8.encode t)

/-- The text that a percent-encoded text stands for. -/
def decode (t : Text) : Text :=
  Utf8.decode (decodeOctets t)

end HttpWire.Percent
