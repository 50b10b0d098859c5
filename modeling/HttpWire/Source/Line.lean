import HttpWire.Source.Basic
import HttpWire.Text.Utf8

/-!
# Lines

A line ends with LF.  Its size counts every octet through the LF, and a reader
sets a bound on it: of a longer line exactly one octet more than the bound is
taken, and the rest of it stays in the source.

The text of a line is what is left when one final LF and then one final CR are
taken away, read as UTF-8 with replacement.  A last line without LF is a line
all the same.  A failure in the middle of a line loses the octets of that line
taken so far, and the reader sees the end of the data.
-/

namespace HttpWire

/-- What reading a line finds. -/
inductive Line where
  /-- A line, without its end. -/
  | text (t : Text)
  /-- A line longer than the bound. -/
  | tooLong
  /-- No line: the data ended or a read failed. -/
  | ended
  deriving DecidableEq, Repr

namespace Line

/-- Line feed. -/
def lf : UInt8 := 10

/-- Carriage return. -/
def cr : UInt8 := 13

/-- Octets without one final `b`, if they end with it. -/
def dropFinal (b : UInt8) (octets : Octets) : Octets :=
  if octets.getLast? = some b then octets.dropLast else octets

theorem dropFinal_append (b : UInt8) (octets : Octets) : dropFinal b (octets ++ [b]) = octets := by
  simp [dropFinal]

theorem mem_of_mem_dropFinal {b c : UInt8} {octets : Octets} (h : c ∈ dropFinal b octets) :
    c ∈ octets := by
  unfold dropFinal at h
  split at h
  · exact List.dropLast_subset _ h
  · exact h

/-- The text of the octets of a line. -/
def textOf (octets : Octets) : Text :=
  Utf8.decode (dropFinal cr (dropFinal lf octets))

/-- How many octets are taken to tell a line within the bound `size` from a
longer one: one more than the bound, if that still fits 64 bits. -/
def reach (size : UInt64) : Nat :=
  min (size.toNat + 1) (UInt64.size - 1)

/-- Judges the octets taken for one line. -/
def ofTaken (size : UInt64) (taken : Source.Taken) : Line :=
  if taken.failed || taken.octets.isEmpty then .ended
  else if size.toNat < taken.octets.length then .tooLong
  else .text (textOf taken.octets)

end Line

/-- Reads one line of at most `size` octets. -/
def Source.readLine (size : UInt64) (s : Source) : Line × Source :=
  let taken := s.takeThrough (· == Line.lf) (Line.reach size)
  (Line.ofTaken size taken, taken.rest)

/-- Reading a line makes the source lighter, unless there was no line. -/
theorem Source.readLine_weight_lt {size : UInt64} {s rest : Source} {t : Text}
    (h : s.readLine size = (.text t, rest)) : rest.weight < s.weight := by
  have hle := takeThrough_weight (· == Line.lf) (Line.reach size) s
  simp only [readLine, Line.ofTaken, Prod.mk.injEq] at h
  obtain ⟨htext, rfl⟩ := h
  split at htext
  · simp at htext
  · rename_i hsome
    simp only [Bool.or_eq_true, List.isEmpty_iff, not_or] at hsome
    have hpos := List.length_pos_iff.mpr hsome.2
    omega

end HttpWire
