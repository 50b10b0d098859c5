import HttpWire.Fields.Basic
import HttpWire.Head.Limits
import HttpWire.Source.Line

/-!
# Blocks of fields

A field line is a name, `:`, at most one space that does not count, and a
value.  A block of fields is read line by line up to the first line without
`:`, which is used up, or to the end of the data.  A line whose value is empty
is passed over.

Two bounds end a block early, without complaint: a line that is too long, and
a field beyond the greatest number of fields, whose line is used up as well.
-/

namespace HttpWire

/-- What a line is in a block of fields. -/
inductive FieldLine where
  /-- A field with a value. -/
  | field (name value : Text)
  /-- A field without a value, which does not count. -/
  | blank
  /-- A line without `:`, which ends the block. -/
  | outside
  deriving DecidableEq, Repr

/-- A text without one leading space. -/
def dropSpace : Text → Text
  | ' ' :: rest => rest
  | t => t

/-- Reads a line as a line of a block of fields. -/
def FieldLine.ofText (line : Text) : FieldLine :=
  match line.cutAt ':' with
  | none => .outside
  | some (name, rest) =>
    match dropSpace rest with
    | [] => .blank
    | value => .field name value

namespace Source

variable [Hasher]

/-- Reads the rest of a block of which `fields` have been read already. -/
def readFieldsAfter (limits : Limits) (fields : Fields) (s : Source) : Fields × Source :=
  match _h : s.readLine limits.lineSize with
  | (.ended, rest) => (fields, rest)
  | (.tooLong, rest) => (fields, rest)
  | (.text line, rest) =>
    match FieldLine.ofText line with
    | .outside => (fields, rest)
    | .blank => readFieldsAfter limits fields rest
    | .field name value =>
      if limits.fieldCount.toNat ≤ fields.size then (fields, rest)
      else readFieldsAfter limits (fields.insert name value) rest
termination_by s.weight
decreasing_by all_goals exact readLine_weight_lt (by assumption)

/-- What the next line does to a block. -/
theorem readFieldsAfter_eq (limits : Limits) (fields : Fields) (s : Source) :
    s.readFieldsAfter limits fields =
      match s.readLine limits.lineSize with
      | (.ended, rest) => (fields, rest)
      | (.tooLong, rest) => (fields, rest)
      | (.text line, rest) =>
        match FieldLine.ofText line with
        | .outside => (fields, rest)
        | .blank => rest.readFieldsAfter limits fields
        | .field name value =>
          if limits.fieldCount.toNat ≤ fields.size then (fields, rest)
          else rest.readFieldsAfter limits (fields.insert name value) := by
  rw [readFieldsAfter]
  split <;> simp only [*]

/-- Reads a block of fields. -/
def readFields (limits : Limits) (s : Source) : Fields × Source :=
  s.readFieldsAfter limits FieldMap.empty

end Source
end HttpWire
