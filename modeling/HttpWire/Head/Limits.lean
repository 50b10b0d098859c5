/-!
# Limits

How much of a message head is read: at most `fieldCount` fields, and no line
longer than `lineSize` octets, its end included.
-/

namespace HttpWire

/-- Bounds on the reading of a head. -/
structure Limits where
  fieldCount : UInt64
  lineSize : UInt64
  deriving DecidableEq, Repr

namespace Limits

/-- The bounds that suit most servers: 100 fields and lines of 8192 octets. -/
def standard : Limits :=
  ⟨100, 8192⟩

/-- The greatest bounds there are. -/
def unlimited : Limits :=
  ⟨0xFFFFFFFFFFFFFFFF, 0xFFFFFFFFFFFFFFFF⟩

instance : Inhabited Limits := ⟨standard⟩

end Limits
end HttpWire
