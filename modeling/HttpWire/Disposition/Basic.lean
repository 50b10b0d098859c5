import HttpWire.Disposition.Scan
import HttpWire.Fields.Basic

/-!
# Disposition values

A `Content-Disposition` value is a list of parameters.  A bare name has the
empty value; a quoted value is the text between its quotes, as it stands.
Reading never fails, since a parameter that is ill-formed is left out.

The type of a disposition is its first parameter, provided that this has the
empty value.
-/

namespace HttpWire

variable [Hasher]

/-- The parameters of a `Content-Disposition` value. -/
structure Disposition where
  params : Fields

namespace Disposition

/-- The entry that a found parameter is in the text that was scanned. -/
def Found.entry? (t : Text) (found : Found) : Option Entry := do
  let name ← t.slice? found.name
  let value ← match found.value with
    | none => some []
    | some span => t.slice? span
  return (name, value)

/-- The entries of a disposition value, in order. -/
def entriesOf (t : Text) : List Entry :=
  (scan (Utf8.encode t)).filterMap (Found.entry? t)

/-- Reads a disposition value. -/
def parse (t : Text) : Disposition :=
  ⟨FieldMap.ofList (entriesOf t)⟩

/-- The first value of a parameter. -/
def get? (d : Disposition) (name : Text) : Option Text :=
  d.params.get? name

/-- The type: the name of the first parameter, if its value is empty. -/
def type? (d : Disposition) : Option Text :=
  match d.params.toList.head? with
  | some (name, []) => some name
  | _ => none

/-- The parameter `name`. -/
def name? (d : Disposition) : Option Text :=
  d.get? ['n', 'a', 'm', 'e']

/-- The parameter `filename`. -/
def filename? (d : Disposition) : Option Text :=
  d.get? ['f', 'i', 'l', 'e', 'n', 'a', 'm', 'e']

/-- The type `form-data`. -/
def formData : Text :=
  ['f', 'o', 'r', 'm', '-', 'd', 'a', 't', 'a']

/-- Whether the type is `form-data`, in any case of letters. -/
def isFormData (d : Disposition) : Bool :=
  d.type?.any (·.caselessEq formData)

end Disposition
end HttpWire
