import HttpWire.Proofs.Head.StartLine

/-!
# Which lines are status lines

A line is a status line if its first space stands at least five octets behind
its beginning and the fifth octet ends a character.  Both conditions count
octets, while the parts of the line are text, so a line can be long enough and
still be refused: the offset falls inside a character, perhaps one that stands
for octets that were no UTF-8.

Cutting at octet offsets is not safe in itself.  `parseSliced` reads the line
as a row of slices and gives nothing at all where a slice is out of range or
ends inside a character, unless it was asked beforehand; it always gives what
the parser gives (`parseSliced_eq`).
-/

namespace HttpWire

namespace StatusLine

/-- A line is a given status line, behind five octets of protocol. -/
def Accepts (line : Text) (r : StatusLine) : Prop :=
  ∃ protocol, line = (protocol ++ r.version) ++ ' ' :: r.status ∧
    (Utf8.encode protocol).length = protocolSize ∧ ' ' ∉ protocol ∧ ' ' ∉ r.version

/-- The fault of a line that is no status line. -/
inductive Rejects (line : Text) : HeadError → Prop
  /-- It has no space. -/
  | noSpace (h : ' ' ∉ line) : Rejects line .noSpaceAfterVersion
  /-- Its first space comes before five octets. -/
  | early {before after : Text} (h : line = before ++ ' ' :: after) (hspace : ' ' ∉ before)
      (hshort : (Utf8.encode before).length < protocolSize) : Rejects line .versionTooShort
  /-- Its first space comes later, and five octets end inside a character. -/
  | inside {before after : Text} (h : line = before ++ ' ' :: after) (hspace : ' ' ∉ before)
      (hlong : protocolSize ≤ (Utf8.encode before).length)
      (hinside : Text.InsideChar protocolSize line) : Rejects line .wrongProtocol

/-- A line read by octet offsets: the version is the slice from five octets on
up to the first space, the status the slice behind that space.  Whether the
first slice can be taken is asked; the second is taken unasked, and where that
is impossible there is no result. -/
def parseSliced (line : Text) : Option (Except HeadError StatusLine) :=
  match line.cutAt ' ' with
  | none => some (.error .noSpaceAfterVersion)
  | some (before, _) =>
    let space := (Utf8.encode before).length
    if space < protocolSize then some (.error .versionTooShort)
    else
      match line.slice? ⟨protocolSize, space⟩ with
      | none => some (.error .wrongProtocol)
      | some version =>
        (line.slice? ⟨space + 1, (Utf8.encode line).length⟩).map fun status =>
          .ok ⟨version, status⟩

variable {line before after : Text} {r : StatusLine} {e : HeadError}

/-! ## Accepted and rejected lines -/

/-- **An accepted line is parsed as it is accepted.** -/
theorem parse_of_accepts (h : Accepts line r) : parse line = .ok r := by
  obtain ⟨protocol, rfl, hsize, hprotocol, hversion⟩ := h
  have hspace : ' ' ∉ protocol ++ r.version := by simp [hprotocol, hversion]
  have hlong : ¬ (Utf8.encode (protocol ++ r.version)).length < protocolSize := by
    rw [Utf8.encode_append, List.length_append, hsize]
    omega
  have hcut : (protocol ++ r.version).splitOctets? protocolSize = some (protocol, r.version) :=
    Text.splitOctets?_eq_some_iff.mpr ⟨rfl, hsize⟩
  rw [parse, Text.cutAt_append hspace]
  simp only [if_neg hlong, hcut]

/-- **A faulty line is refused with its fault.** -/
theorem parse_of_rejects (h : Rejects line e) : parse line = .error e := by
  cases h with
  | noSpace h => rw [parse, Text.cutAt_eq_none_iff.mpr h]
  | early h hspace hshort =>
      rw [parse, h, Text.cutAt_append hspace]
      simp only [if_pos hshort]
  | @inside before after h hspace hlong hinside =>
      have hcut : before.splitOctets? protocolSize = none := by
        cases hsplit : before.splitOctets? protocolSize with
        | none => rfl
        | some parts =>
            obtain ⟨hbefore, hsize⟩ := Text.splitOctets?_eq_some_iff.mp hsplit
            have hwhole : line.splitOctets? protocolSize =
                some (parts.1, parts.2 ++ ' ' :: after) :=
              Text.splitOctets?_eq_some_iff.mpr ⟨by rw [h, hbefore, List.append_assoc], hsize⟩
            rw [Text.splitOctets?_eq_none_iff.mpr (Or.inr hinside)] at hwhole
            exact absurd hwhole (by simp)
      rw [parse, h, Text.cutAt_append hspace]
      simp only [if_neg (Nat.not_lt.mpr hlong), hcut]

/-- **Every line is accepted or has a fault.** -/
theorem accepts_or_rejects (line : Text) : (∃ r, Accepts line r) ∨ ∃ e, Rejects line e := by
  cases hfirst : line.cutAt ' ' with
  | none => exact Or.inr ⟨_, .noSpace (Text.cutAt_eq_none_iff.mp hfirst)⟩
  | some parts =>
      obtain ⟨before, after⟩ := parts
      obtain ⟨rfl, hspace⟩ := Text.cutAt_eq_some_iff.mp hfirst
      rcases Nat.lt_or_ge (Utf8.encode before).length protocolSize with hshort | hlong
      · exact Or.inr ⟨_, .early rfl hspace hshort⟩
      · cases hsplit : Text.splitOctets? protocolSize before with
        | none =>
            rcases Text.splitOctets?_eq_none_iff.mp hsplit with hshort | hinside
            · omega
            · obtain ⟨b, c, a, rfl, hlow, hhigh⟩ := hinside
              refine Or.inr ⟨_, .inside rfl hspace hlong ⟨b, c, a ++ ' ' :: after, ?_, hlow, hhigh⟩⟩
              rw [List.append_assoc, List.cons_append]
        | some parts =>
            obtain ⟨protocol, version⟩ := parts
            obtain ⟨rfl, hsize⟩ := Text.splitOctets?_eq_some_iff.mp hsplit
            obtain ⟨hprotocol, hversion⟩ := not_or.mp (fun h => hspace (List.mem_append.mpr h))
            exact Or.inl ⟨⟨version, after⟩, protocol, rfl, hsize, hprotocol, hversion⟩

/-- The parser of status lines follows their grammar. -/
theorem follows : Follows parse Accepts Rejects :=
  ⟨parse_of_accepts, parse_of_rejects, accepts_or_rejects⟩

/-- No fault of a line is one of those that lines have which cannot be read. -/
theorem parse_ne_unread (line : Text) :
    parse line ≠ .error .startLineTooLong ∧ parse line ≠ .error .noStartLine := by
  rw [ne_eq, ne_eq, follows.eq_error_iff, follows.eq_error_iff]
  exact ⟨nofun, nofun⟩

/-! ## Slices -/

/-- The slice behind a space can always be taken. -/
theorem slice?_behind (before after : Text) :
    Text.slice? (before ++ ' ' :: after)
        ⟨(Utf8.encode before).length + 1, (Utf8.encode (before ++ ' ' :: after)).length⟩ =
      some after := by
  have hline : before ++ ' ' :: after = (before ++ [' ']) ++ after := List.append_cons _ _ _
  have hspace : (Utf8.encode (before ++ [' '])).length = (Utf8.encode before).length + 1 := by
    rw [Utf8.encode_append, List.length_append]
    rfl
  refine Text.slice?_eq_some_iff.mpr ⟨before ++ [' '], [], by simp, hspace, ?_⟩
  rw [hline, Utf8.encode_append (before ++ [' ']), List.length_append]

/-- **No slice is out of range or ends inside a character.**  Read by slices,
a line has a result, and it is the one that the parser has. -/
theorem parseSliced_eq (line : Text) : parseSliced line = some (parse line) := by
  cases hfirst : line.cutAt ' ' with
  | none => rw [parseSliced, parse, hfirst]
  | some parts =>
      obtain ⟨before, after⟩ := parts
      obtain ⟨rfl, -⟩ := Text.cutAt_eq_some_iff.mp hfirst
      rw [parseSliced, parse, hfirst]
      by_cases hshort : (Utf8.encode before).length < protocolSize
      · simp only [if_pos hshort]
      · simp only [if_neg hshort, Text.slice?_append, slice?_behind]
        cases Text.splitOctets? protocolSize before <;> rfl

end StatusLine

namespace Source

/-- **Responses are read exactly off lines of the grammar, and every refusal
has its one reason.**  A first line that can be read, and is within the bound,
is accepted as one status line or refused for one fault, and no slice that is
taken of it is out of range or ends inside a character. -/
theorem readResponse_classified [Hasher] (limits : Limits) (s : Source) (hwhole : ¬ s.LacksLine)
    (hfits : s.firstLine.length ≤ limits.lineSize.toNat) :
    (∀ r, (s.readResponse limits).1.map Response.line = .ok r ↔
        StatusLine.Accepts (Line.textOf s.firstLine) r) ∧
      (∀ e, (s.readResponse limits).1 = .error e ↔
        StatusLine.Rejects (Line.textOf s.firstLine) e) ∧
      StatusLine.parseSliced (Line.textOf s.firstLine) =
        some ((s.readResponse limits).1.map Response.line) := by
  obtain ⟨haccepts, hrejects⟩ := StatusLine.follows.readHead_iff hwhole hfits
  refine ⟨?_, ?_, ?_⟩
  · intro r
    rw [line_readResponse]
    exact haccepts r
  · intro e
    rw [← hrejects e]
    exact HeadError.map_eq_error_iff
  · rw [line_readResponse, readHead_of_whole hwhole hfits]
    exact StatusLine.parseSliced_eq _

/-- An octet that is no UTF-8 is shown as a character of three, and five octets
end inside it. -/
theorem readResponse_classified_inside_replacement :
    let s : Source := [.data [72, 84, 84, 255, 47], .data [49, 32, 50, 48, 48, 13, 10]]
    ¬ s.LacksLine ∧ s.firstLine.length ≤ 12 ∧
      (s.readResponse ⟨0, 12⟩).1 = .error .wrongProtocol := by
  intro s
  have hwhole : ¬ s.LacksLine := by decide
  have hfits : s.firstLine.length ≤ 12 := by decide
  obtain ⟨-, hrejects, -⟩ := readResponse_classified ⟨0, 12⟩ s hwhole hfits
  refine ⟨hwhole, hfits, (hrejects _).mpr ?_⟩
  have hinside : Text.InsideChar StatusLine.protocolSize (Line.textOf s.firstLine) :=
    ⟨['H', 'T', 'T'], Utf8.replacement, ['/', '1', ' ', '2', '0', '0'], by decide, by decide,
      by decide⟩
  have hline : Line.textOf s.firstLine =
      ['H', 'T', 'T', Utf8.replacement, '/', '1'] ++ ' ' :: ['2', '0', '0'] := by decide
  exact .inside hline (by decide) (by decide) hinside

end Source
end HttpWire
