/-!
# Errors of a start line

What keeps a start line from being one.  A field line is never in error.
-/

namespace HttpWire

/-- Why a head could not be read. -/
inductive HeadError where
  /-- There was no line at all. -/
  | noStartLine
  /-- The start line is longer than the bound. -/
  | startLineTooLong
  /-- No space ends the method. -/
  | noSpaceAfterMethod
  /-- No space ends the target. -/
  | noSpaceAfterTarget
  /-- No `/` stands between protocol and version. -/
  | noSlashInProtocol
  /-- The protocol has another name. -/
  | wrongProtocol
  /-- Nothing follows the `/` of the protocol. -/
  | emptyVersion
  /-- No space ends the version. -/
  | noSpaceAfterVersion
  /-- The version ends before the name of the protocol could. -/
  | versionTooShort
  deriving DecidableEq, Repr

/-- The wording of an error. -/
def HeadError.message : HeadError → String
  | .noStartLine => "empty start line"
  | .startLineTooLong => "start line too long"
  | .noSpaceAfterMethod => "missing space after method"
  | .noSpaceAfterTarget => "missing space after request target"
  | .noSlashInProtocol => "missing '/' between protocol and version"
  | .wrongProtocol => "protocol is not HTTP"
  | .emptyVersion => "missing HTTP version"
  | .noSpaceAfterVersion => "missing space after HTTP version"
  | .versionTooShort => "HTTP version token too short"

namespace HeadError

variable {α β : Type} {f : α → β} {r : Except HeadError α}

/-- A mapped result is a success if the result was one. -/
theorem map_eq_ok_iff {b : β} : r.map f = .ok b ↔ ∃ a, r = .ok a ∧ f a = b := by
  cases r <;> simp [Except.map]

/-- A mapped result is an error if the result was the same error. -/
theorem map_eq_error_iff {e : HeadError} : r.map f = .error e ↔ r = .error e := by
  cases r <;> simp [Except.map]

end HeadError
end HttpWire
