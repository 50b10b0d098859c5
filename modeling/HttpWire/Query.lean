import HttpWire.Fields.Basic
import HttpWire.Percent

/-!
# Query strings

A query string is a list of segments joined by `&`.  A segment is a name, `=`
and a percent-encoded value; without `=` its value is empty.  Names are
written and read as they are, and a segment without a name counts for nothing.
-/

namespace HttpWire.Query

variable [Hasher]

/-- The entry that a segment stands for, if it has a name. -/
def entryOf (segment : Text) : Option Entry :=
  let parts := (segment.cutAt '=').getD (segment, [])
  if parts.1.isEmpty then none else some (parts.1, Percent.decode parts.2)

/-- The segments of a query string. -/
def segments (query : Text) : List Text :=
  query.splitOn '&'

/-- The fields of a query string. -/
def parse (query : Text) : Fields :=
  FieldMap.ofList ((segments query).filterMap entryOf)

/-- The segment that stands for an entry. -/
def segmentOf (e : Entry) : Text :=
  e.1 ++ '=' :: Percent.encode e.2

/-- The query string of fields. -/
def render (fields : Fields) : Text :=
  ['&'].intercalate (fields.toList.map segmentOf)

end HttpWire.Query
