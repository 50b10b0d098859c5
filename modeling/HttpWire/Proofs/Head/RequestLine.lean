import HttpWire.Proofs.Head.StartLine

/-!
# Which lines are request lines

The grammar of a request line stands here without a parser, and so do the
faults that a line can have.  `Parts` cuts a line at its first two spaces,
`Target` cuts a target at its first `?`; a line is accepted if the rest behind
the second space is `HTTP/` and a version, and there is one fault for each way
in which this can fail.

Every line is accepted as one request line or has one fault, and the parser
says which (`follows`).  It never asks what stands behind the first space, `?`
or `/` that ends a part, so these marks may occur again later on.
-/

namespace HttpWire

namespace RequestLine

/-- A line cut at its first two spaces. -/
structure Parts (line method target behind : Text) : Prop where
  line_eq : line = method ++ ' ' :: (target ++ ' ' :: behind)
  method : ' ' ∉ method
  target : ' ' ∉ target

/-- A target with its path and its query. -/
inductive Target : Text → Text → Text → Prop
  /-- A path alone. -/
  | bare {path : Text} (h : '?' ∉ path) : Target path path []
  /-- A path and a query, the first `?` between them. -/
  | queried {path query : Text} (h : '?' ∉ path) : Target (path ++ '?' :: query) path query

/-- A line is a given request line. -/
def Accepts (line : Text) (r : RequestLine) : Prop :=
  ∃ target, Parts line r.method target (protocol ++ '/' :: r.version) ∧
    Target target r.path r.query ∧ r.version ≠ []

/-- The fault of a line that is no request line. -/
inductive Rejects (line : Text) : HeadError → Prop
  /-- It has no space. -/
  | noSpace (h : ' ' ∉ line) : Rejects line .noSpaceAfterMethod
  /-- It has one space. -/
  | oneSpace (h : line.count ' ' = 1) : Rejects line .noSpaceAfterTarget
  /-- Behind the second space there is no `/`. -/
  | noSlash {method target behind : Text} (h : Parts line method target behind)
      (hslash : '/' ∉ behind) : Rejects line .noSlashInProtocol
  /-- Behind the second space, something else than the protocol stands before
  the first `/`. -/
  | otherName {method target name version : Text}
      (h : Parts line method target (name ++ '/' :: version)) (hslash : '/' ∉ name)
      (hname : name ≠ protocol) : Rejects line .wrongProtocol
  /-- Behind the second space, nothing follows the `/` of the protocol. -/
  | noVersion {method target : Text} (h : Parts line method target (protocol ++ ['/'])) :
      Rejects line .emptyVersion

variable {line method target behind path query : Text} {r : RequestLine} {e : HeadError}

/-! ## Cuts -/

/-- A target is split into its path and its query. -/
theorem splitTarget_of_target (h : Target target path query) :
    splitTarget target = (path, query) := by
  cases h with
  | bare hpath => rw [splitTarget, Text.cutAt_eq_none_iff.mpr hpath, Option.getD_none]
  | queried hpath => rw [splitTarget, Text.cutAt_append hpath, Option.getD_some]

/-- Every target has its path and its query. -/
theorem exists_target (target : Text) : ∃ path query, Target target path query := by
  cases hcut : target.cutAt '?' with
  | none => exact ⟨target, [], .bare (Text.cutAt_eq_none_iff.mp hcut)⟩
  | some parts =>
      obtain ⟨rfl, hpath⟩ := Text.cutAt_eq_some_iff.mp hcut
      exact ⟨parts.1, parts.2, .queried hpath⟩

/-- What the parser does with a line that has two spaces. -/
theorem parse_of_parts (h : Parts line method target behind) :
    parse line = (versionOf behind).map fun version =>
      ⟨method, (splitTarget target).1, (splitTarget target).2, version⟩ := by
  rw [parse, h.line_eq, Text.cutAt_append h.method]
  simp only [Text.cutAt_append h.target]

/-- **A line has no space, one space, or two spaces that cut it.** -/
theorem space_cases (line : Text) :
    ' ' ∉ line ∨ line.count ' ' = 1 ∨ ∃ method target behind, Parts line method target behind := by
  cases hfirst : line.cutAt ' ' with
  | none => exact Or.inl (Text.cutAt_eq_none_iff.mp hfirst)
  | some parts =>
      obtain ⟨method, rest⟩ := parts
      obtain ⟨rfl, hmethod⟩ := Text.cutAt_eq_some_iff.mp hfirst
      cases hsecond : Text.cutAt ' ' rest with
      | none =>
          have hrest := Text.cutAt_eq_none_iff.mp hsecond
          refine Or.inr (Or.inl ?_)
          simp [List.count_eq_zero_of_not_mem hmethod, List.count_eq_zero_of_not_mem hrest]
      | some parts =>
          obtain ⟨target, behind⟩ := parts
          obtain ⟨rfl, htarget⟩ := Text.cutAt_eq_some_iff.mp hsecond
          exact Or.inr (Or.inr ⟨method, target, behind, rfl, hmethod, htarget⟩)

/-! ## Accepted and rejected lines -/

theorem slash_not_mem_protocol : '/' ∉ protocol := by decide

/-- **An accepted line is parsed as it is accepted.** -/
theorem parse_of_accepts (h : Accepts line r) : parse line = .ok r := by
  obtain ⟨target, hparts, htarget, hversion⟩ := h
  have hbehind : versionOf (protocol ++ '/' :: r.version) = .ok r.version := by
    rw [versionOf, Text.cutAt_append slash_not_mem_protocol]
    simp [hversion]
  rw [parse_of_parts hparts, splitTarget_of_target htarget, hbehind]
  rfl

/-- **A faulty line is refused with its fault.** -/
theorem parse_of_rejects (h : Rejects line e) : parse line = .error e := by
  cases h with
  | noSpace h => rw [parse, Text.cutAt_eq_none_iff.mpr h]
  | oneSpace h =>
      obtain ⟨method, rest, rfl, hmethod⟩ :=
        List.eq_append_cons_of_mem (List.count_pos_iff.mp (by omega : 0 < line.count ' '))
      have hrest : ' ' ∉ rest := by
        rw [List.count_append, List.count_cons_self, List.count_eq_zero_of_not_mem hmethod] at h
        exact List.count_eq_zero.mp (by omega)
      rw [parse, Text.cutAt_append hmethod]
      simp only [Text.cutAt_eq_none_iff.mpr hrest]
  | noSlash h hslash =>
      rw [parse_of_parts h, versionOf, Text.cutAt_eq_none_iff.mpr hslash]
      rfl
  | otherName h hslash hname =>
      rw [parse_of_parts h, versionOf, Text.cutAt_append hslash]
      simp only [if_pos hname]
      rfl
  | noVersion h =>
      rw [parse_of_parts h, versionOf, Text.cutAt_append slash_not_mem_protocol]
      rfl

/-- **Every line is accepted or has a fault.** -/
theorem accepts_or_rejects (line : Text) : (∃ r, Accepts line r) ∨ ∃ e, Rejects line e := by
  rcases space_cases line with hnone | hone | ⟨method, target, behind, hparts⟩
  · exact Or.inr ⟨_, .noSpace hnone⟩
  · exact Or.inr ⟨_, .oneSpace hone⟩
  · cases hcut : behind.cutAt '/' with
    | none => exact Or.inr ⟨_, .noSlash hparts (Text.cutAt_eq_none_iff.mp hcut)⟩
    | some parts =>
        obtain ⟨name, version⟩ := parts
        obtain ⟨rfl, hname⟩ := Text.cutAt_eq_some_iff.mp hcut
        by_cases hprotocol : name = protocol
        · subst hprotocol
          by_cases hversion : version = []
          · subst hversion
            exact Or.inr ⟨_, .noVersion hparts⟩
          · obtain ⟨path, query, htarget⟩ := exists_target target
            exact Or.inl ⟨⟨method, path, query, version⟩, target, hparts, htarget, hversion⟩
        · exact Or.inr ⟨_, .otherName hparts hname hprotocol⟩

/-- The parser of request lines follows their grammar. -/
theorem follows : Follows parse Accepts Rejects :=
  ⟨parse_of_accepts, parse_of_rejects, accepts_or_rejects⟩

/-- No fault of a line is one of those that lines have which cannot be read. -/
theorem parse_ne_unread (line : Text) :
    parse line ≠ .error .startLineTooLong ∧ parse line ≠ .error .noStartLine := by
  rw [ne_eq, ne_eq, follows.eq_error_iff, follows.eq_error_iff]
  exact ⟨nofun, nofun⟩

end RequestLine

namespace Source

/-- **Requests are read exactly off lines of the grammar, and every refusal has
its one reason.**  A first line that can be read, and is within the bound, is
accepted as one request line or refused for one fault; a line past the bound
is too long, and where a line is lacking there is no start line. -/
theorem readRequest_classified [Hasher] (limits : Limits) (s : Source)
    (hmax : s.firstLine.length < UInt64.size - 1) :
    (¬ s.LacksLine → s.firstLine.length ≤ limits.lineSize.toNat →
        (∀ r, (s.readRequest limits).1.map Request.line = .ok r ↔
          RequestLine.Accepts (Line.textOf s.firstLine) r) ∧
        ∀ e, (s.readRequest limits).1 = .error e ↔
          RequestLine.Rejects (Line.textOf s.firstLine) e) ∧
      ((s.readRequest limits).1 = .error .noStartLine ↔
        s.firstLine.length ≤ limits.lineSize.toNat ∧ s.LacksLine) ∧
      ((s.readRequest limits).1 = .error .startLineTooLong ↔
        limits.lineSize.toNat < s.firstLine.length) := by
  obtain ⟨hlong, hnone⟩ : ((s.readHead RequestLine.parse limits).1 = _ ↔ _) ∧ (_ ↔ _) :=
    readHead_unread_iff RequestLine.parse_ne_unread hmax
  refine ⟨?_, ?_, ?_⟩
  · intro hwhole hfits
    obtain ⟨haccepts, hrejects⟩ := RequestLine.follows.readHead_iff hwhole hfits
    refine ⟨?_, ?_⟩
    · intro r
      rw [line_readRequest]
      exact haccepts r
    · intro e
      rw [← hrejects e]
      exact HeadError.map_eq_error_iff
  · rw [← hnone]
    exact HeadError.map_eq_error_iff
  · rw [← hlong]
    exact HeadError.map_eq_error_iff

/-- A line that just fits, with marks that occur again behind the parts they
end. -/
theorem readRequest_classified_marks_again :
    let s : Source := [.data [71, 32, 47, 63, 120, 63], .interrupted,
      .data [32, 72, 84, 84, 80, 47, 49, 32, 47, 13], .data [10, 65]]
    s.firstLine.length < UInt64.size - 1 ∧
      (s.readRequest ⟨0, 17⟩).1.map Request.line = .ok ⟨['G'], ['/'], ['x', '?'], ['1', ' ', '/']⟩ ∧
      (s.readRequest ⟨0, 16⟩).1 = .error .startLineTooLong := by
  intro s
  have hmax : s.firstLine.length < UInt64.size - 1 := by decide
  obtain ⟨hread, -, -⟩ := readRequest_classified ⟨0, 17⟩ s hmax
  obtain ⟨-, -, hlong⟩ := readRequest_classified ⟨0, 16⟩ s hmax
  refine ⟨hmax, ?_, hlong.mpr (by decide)⟩
  refine ((hread (by decide) (by decide)).1 _).mpr ?_
  have htarget : RequestLine.Target ['/', '?', 'x', '?'] ['/'] ['x', '?'] :=
    .queried (show '?' ∉ ['/'] by decide)
  exact ⟨_, ⟨by decide, by decide, by decide⟩, htarget, by decide⟩

end Source
end HttpWire
