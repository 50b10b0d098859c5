import HttpWire.Text.Utf8

/-!
# Names without case

Field names and tokens are compared without regard to the case of ASCII
letters; every other character must match exactly.  `caselessEq` compares two
texts character by character.  `caselessHash` feeds octets to a hasher instead:
those of the UTF-8 form with its ASCII letters lowered, and then their number.
Both see the same texts as one, because a character outside ASCII has no octet
below 128 in its UTF-8 form.

Which hasher it is, is left open.  `Hasher` is a class, and what is said of
hashes and of the maps that use them is said of every hasher; `mixingHasher` is
the one that runs.
-/

namespace HttpWire

/-- A hasher: it takes in octets and sizes one by one, and its state at the end
makes up the hash. -/
class Hasher where
  /-- What a hasher keeps of all that it has taken in. -/
  State : Type
  /-- The state of a new hasher. -/
  start : State
  writeOctet : State → UInt8 → State
  writeSize : State → UInt64 → State
  finish : State → UInt64

/-- The hasher that runs unless another one is given: it mixes in one value
after the other, the way lists are hashed. -/
instance (priority := low) mixingHasher : Hasher where
  State := UInt64
  start := 7
  writeOctet h b := mixHash h (hash b)
  writeSize h n := mixHash h (hash n)
  finish h := h

namespace Text

/-- Whether two texts differ at most in the case of ASCII letters. -/
def caselessEq : Text → Text → Bool
  | [], [] => true
  | a :: s, b :: t => a.toLower == b.toLower && caselessEq s t
  | _, _ => false

/-- An octet, lowered if it is an ASCII capital. -/
def lowerOctet (b : UInt8) : UInt8 :=
  if 65 ≤ b ∧ b ≤ 90 then b + 32 else b

/-- A hash that does not see the case of ASCII letters: that of the lowered
octets and then of their number. -/
def caselessHash [Hasher] (t : Text) : UInt64 :=
  let octets := Utf8.encode t
  let fed := (octets.map lowerOctet).foldl Hasher.writeOctet Hasher.start
  Hasher.finish (Hasher.writeSize fed (UInt64.ofNat octets.length))

end Text
end HttpWire
