import HttpWire.Head.Request
import HttpWire.Head.Response
import HttpWire.Proofs.Source.FirstLine

/-!
# The start line of a head

A head begins with the first line of its source.  If that line is too long or
lacking, the head is in one of two errors that no start line itself can have
(`readHead_unread_iff`); otherwise the start line, or its error, is what the
parser of start lines makes of the line's text.

A parser *follows* a grammar if it gives what the grammar accepts, refuses
what the grammar rejects for the reason that the grammar names, and the
grammar says one or the other of every line.  Then the heads that are read are
precisely those whose first line is accepted (`Follows.readHead_iff`).
-/

namespace HttpWire

/-- The request line of a request. -/
def Request.line [Hasher] (r : Request) : RequestLine :=
  ⟨r.method, r.path, r.query, r.version⟩

/-- The status line of a response. -/
def Response.line [Hasher] (r : Response) : StatusLine :=
  ⟨r.version, r.status⟩

/-- A parser of start lines follows a grammar. -/
structure Follows {α : Type} (parse : Text → Except HeadError α) (Accepts : Text → α → Prop)
    (Rejects : Text → HeadError → Prop) : Prop where
  /-- An accepted line is parsed as it is accepted. -/
  accepted : ∀ {line : Text} {start : α}, Accepts line start → parse line = .ok start
  /-- A rejected line is refused with its fault. -/
  rejected : ∀ {line : Text} {e : HeadError}, Rejects line e → parse line = .error e
  /-- Every line is accepted or rejected. -/
  total : ∀ line, (∃ start, Accepts line start) ∨ ∃ e, Rejects line e

namespace Source

variable [Hasher] {α : Type} {parse : Text → Except HeadError α} {limits : Limits} {s : Source}

/-- A first line past its bound is refused for that. -/
theorem readHead_of_long (hlong : limits.lineSize.toNat < s.firstLine.length)
    (hmax : limits.lineSize.toNat < UInt64.size - 1) :
    (s.readHead parse limits).1 = .error .startLineTooLong := by
  obtain ⟨rest, hread⟩ := readLine_of_long hlong hmax
  rw [readHead, hread]

/-- Where the first line is lacking there is no start line. -/
theorem readHead_of_lacking (hlacks : s.LacksLine)
    (hfits : s.firstLine.length ≤ limits.lineSize.toNat)
    (hmax : s.firstLine.length < UInt64.size - 1) :
    (s.readHead parse limits).1 = .error .noStartLine := by
  obtain ⟨rest, hread⟩ := readLine_of_lacking hlacks hfits hmax
  rw [readHead, hread]

/-- **The start line is what the parser makes of the first line**, and so is
the error if there is one. -/
theorem readHead_of_whole (hwhole : ¬ s.LacksLine)
    (hfits : s.firstLine.length ≤ limits.lineSize.toNat) :
    (s.readHead parse limits).1.map (·.1) = parse (Line.textOf s.firstLine) := by
  obtain ⟨rest, hread⟩ := readLine_of_whole hwhole hfits
  rw [readHead, hread]
  cases hparse : parse (Line.textOf s.firstLine) <;> simp [hparse, Except.map]

/-- **The two errors of a line that cannot be read.**  A parser that has
neither of them leaves each to its one cause. -/
theorem readHead_unread_iff
    (hparse : ∀ line, parse line ≠ .error .startLineTooLong ∧ parse line ≠ .error .noStartLine)
    (hmax : s.firstLine.length < UInt64.size - 1) :
    ((s.readHead parse limits).1 = .error .startLineTooLong ↔
        limits.lineSize.toNat < s.firstLine.length) ∧
      ((s.readHead parse limits).1 = .error .noStartLine ↔
        s.firstLine.length ≤ limits.lineSize.toNat ∧ s.LacksLine) := by
  rcases Nat.lt_or_ge limits.lineSize.toNat s.firstLine.length with hlong | hfits
  · have hread : (s.readHead parse limits).1 = _ := readHead_of_long hlong (by omega)
    refine ⟨iff_of_true hread hlong, iff_of_false ?_ ?_⟩
    · simp [hread]
    · intro h
      omega
  · have hshort : ¬ limits.lineSize.toNat < s.firstLine.length := Nat.not_lt.mpr hfits
    by_cases hlacks : s.LacksLine
    · have hread : (s.readHead parse limits).1 = _ := readHead_of_lacking hlacks hfits hmax
      refine ⟨iff_of_false ?_ hshort, iff_of_true hread ⟨hfits, hlacks⟩⟩
      simp [hread]
    · have hread : (s.readHead parse limits).1.map (·.1) = _ := readHead_of_whole hlacks hfits
      obtain ⟨hlong, hnone⟩ := hparse (Line.textOf s.firstLine)
      rw [← hread, ne_eq, HeadError.map_eq_error_iff] at hlong hnone
      exact ⟨iff_of_false hlong hshort, iff_of_false hnone fun h => hlacks h.2⟩

/-- The request line of a request that was read. -/
theorem line_readRequest (limits : Limits) (s : Source) :
    (s.readRequest limits).1.map Request.line =
      (s.readHead RequestLine.parse limits).1.map (·.1) := by
  rw [readRequest]
  cases (s.readHead RequestLine.parse limits).1 <;> rfl

/-- The status line of a response that was read. -/
theorem line_readResponse (limits : Limits) (s : Source) :
    (s.readResponse limits).1.map Response.line =
      (s.readHead StatusLine.parse limits).1.map (·.1) := by
  rw [readResponse]
  cases (s.readHead StatusLine.parse limits).1 <;> rfl

end Source

namespace Follows

variable {α : Type} {parse : Text → Except HeadError α} {Accepts : Text → α → Prop}
  {Rejects : Text → HeadError → Prop} {line : Text}

/-- **A line is parsed exactly if it is accepted.** -/
theorem eq_ok_iff (h : Follows parse Accepts Rejects) {start : α} :
    parse line = .ok start ↔ Accepts line start := by
  refine ⟨?_, h.accepted⟩
  intro hparse
  rcases h.total line with ⟨start', haccepts⟩ | ⟨e, hrejects⟩
  · have hsame := h.accepted haccepts
    rw [hparse, Except.ok.injEq] at hsame
    rwa [hsame]
  · have hother := h.rejected hrejects
    rw [hparse] at hother
    exact absurd hother (by simp)

/-- **A line is refused exactly for its fault.** -/
theorem eq_error_iff (h : Follows parse Accepts Rejects) {e : HeadError} :
    parse line = .error e ↔ Rejects line e := by
  refine ⟨?_, h.rejected⟩
  intro hparse
  rcases h.total line with ⟨start, haccepts⟩ | ⟨e', hrejects⟩
  · have hother := h.accepted haccepts
    rw [hparse] at hother
    exact absurd hother (by simp)
  · have hsame := h.rejected hrejects
    rw [hparse, Except.error.injEq] at hsame
    rwa [hsame]

/-- **A head is read exactly if its first line is accepted**, and refused
exactly for the fault of that line. -/
theorem readHead_iff [Hasher] (h : Follows parse Accepts Rejects) {limits : Limits} {s : Source}
    (hwhole : ¬ s.LacksLine) (hfits : s.firstLine.length ≤ limits.lineSize.toNat) :
    (∀ start, (s.readHead parse limits).1.map (·.1) = .ok start ↔
        Accepts (Line.textOf s.firstLine) start) ∧
      ∀ e, (s.readHead parse limits).1 = .error e ↔ Rejects (Line.textOf s.firstLine) e := by
  have hread : (s.readHead parse limits).1.map (·.1) = _ :=
    Source.readHead_of_whole hwhole hfits
  refine ⟨?_, ?_⟩
  · intro start
    rw [hread]
    exact h.eq_ok_iff
  · intro e
    rw [← h.eq_error_iff, ← hread, HeadError.map_eq_error_iff]

end Follows
end HttpWire
