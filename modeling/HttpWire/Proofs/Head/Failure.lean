import HttpWire.Proofs.Head.FieldLines
import HttpWire.Proofs.Head.StartLine
import HttpWire.Proofs.Source.Unfinished

/-!
# A failure in the middle of a head

A read may fail behind any octet.  What a reader has got by then are the lines
that have ended (`Line.finished`) and a line that has not (`Line.unfinished`).
Two things can happen.

Either the octets before the failure are enough to end the head: a line stops
the block, or a start line is refused, or a line has gone past its bound.  Then
the reader is *done within* them.  It never looks at what stands behind, so a
failure there stays where it is and makes no difference.

Or they leave the head open.  Then the failure is met, and it costs the line
that has not ended and nothing else: the fields are those of the lines that
have, no field is made of a part of a line, and what stands behind the failure
is left.  Where already the start line is broken off there is no head.

`Line.LeavesOpen` and `LeavesHeadOpen` say which of the two it is, and the main
statement, `Source.reading_of_failure`, what follows, for blocks of fields and
for heads of both kinds.
-/

namespace HttpWire

namespace Line

/-- Octets that do not end a block which has taken so many fields before them.
It goes through all lines that have ended, since none is too long, none is
without `:`, and those with a value are no more than fields may be taken; and
the line that has not ended is within its bound. -/
structure LeavesOpen (limits : Limits) (taken : Nat) (octets : Octets) : Prop where
  fits : ∀ line ∈ finished octets, line.length ≤ limits.lineSize.toNat
  colon : ∀ line ∈ finished octets, ':' ∈ textOf line
  room : taken + (finished octets).countP hasValue ≤ limits.fieldCount.toNat
  unfinished : (unfinished octets).length ≤ limits.lineSize.toNat

variable {limits : Limits} {taken : Nat} {octets line rest : Octets}

instance : Decidable (LeavesOpen limits taken octets) :=
  decidable_of_iff
    ((∀ line ∈ finished octets, line.length ≤ limits.lineSize.toNat) ∧
      (∀ line ∈ finished octets, ':' ∈ textOf line) ∧
      taken + (finished octets).countP hasValue ≤ limits.fieldCount.toNat ∧
      (Line.unfinished octets).length ≤ limits.lineSize.toNat)
    ⟨fun ⟨hfits, hcolon, hroom, hlength⟩ => ⟨hfits, hcolon, hroom, hlength⟩,
      fun ⟨hfits, hcolon, hroom, hlength⟩ => ⟨hfits, hcolon, hroom, hlength⟩⟩

/-- Octets that do not end a line leave a block open if they fit in one, and there
are not too many fields already. -/
theorem leavesOpen_of_isOpen (hoctets : IsOpen octets) :
    LeavesOpen limits taken octets ↔
      taken ≤ limits.fieldCount.toNat ∧ octets.length ≤ limits.lineSize.toNat := by
  have hfinished := finished_of_isOpen hoctets
  have hunfinished := unfinished_of_isOpen hoctets
  constructor
  · rintro ⟨-, -, hroom, hlength⟩
    rw [hfinished] at hroom
    rw [hunfinished] at hlength
    exact ⟨hroom, hlength⟩
  · rintro ⟨hroom, hlength⟩
    refine ⟨?_, ?_, ?_, ?_⟩
    · simp [hfinished]
    · simp [hfinished]
    · rw [hfinished]
      exact hroom
    · rw [hunfinished]
      exact hlength

/-- **A line leaves a block open** if it does not stop it, and what stands
behind the line leaves it open too. -/
theorem leavesOpen_append (hline : IsEnded line) :
    LeavesOpen limits taken (line ++ rest) ↔
      (line.length ≤ limits.lineSize.toNat ∧
        ¬ (':' ∉ textOf line ∨ hasValue line = true ∧ limits.fieldCount.toNat ≤ taken)) ∧
      LeavesOpen limits (taken + if hasValue line then 1 else 0) rest := by
  have hfinished : finished (line ++ rest) = line :: finished rest := finished_append hline
  have hunfinished : Line.unfinished (line ++ rest) = Line.unfinished rest :=
    unfinished_append hline
  have hcount : taken + (finished (line ++ rest)).countP hasValue =
      taken + (if hasValue line then 1 else 0) + (finished rest).countP hasValue := by
    rw [hfinished, List.countP_cons]
    omega
  constructor
  · rintro ⟨hfits, hcolon, hroom, hlength⟩
    rw [hcount] at hroom
    rw [hfinished, List.forall_mem_cons] at hfits hcolon
    rw [hunfinished] at hlength
    refine ⟨⟨hfits.1, ?_⟩, hfits.2, hcolon.2, hroom, hlength⟩
    rintro (hnone | ⟨hvalue, hfull⟩)
    · exact hnone hcolon.1
    · rw [if_pos hvalue] at hroom
      omega
  · rintro ⟨⟨hfit, hpass⟩, hfits, hcolon, hroom, hlength⟩
    have hhere : ':' ∈ textOf line := Decidable.not_not.mp fun hnone => hpass (Or.inl hnone)
    refine ⟨?_, ?_, ?_, ?_⟩
    · rw [hfinished, List.forall_mem_cons]
      exact ⟨hfit, hfits⟩
    · rw [hfinished, List.forall_mem_cons]
      exact ⟨hhere, hcolon⟩
    · rw [hcount]
      exact hroom
    · rw [hunfinished]
      exact hlength

end Line

/-- Octets that do not end a head: they do not end its start line, or they end
it as one that is parsed, and do not end the block behind it. -/
def LeavesHeadOpen {α : Type} (parse : Text → Except HeadError α) (limits : Limits)
    (octets : Octets) : Prop :=
  match Line.finished octets with
  | [] => octets.length ≤ limits.lineSize.toNat
  | line :: _ =>
    line.length ≤ limits.lineSize.toNat ∧ (parse (Line.textOf line)).isOk = true ∧
      Line.LeavesOpen limits 0 (octets.drop line.length)

section

variable {α : Type} {parse : Text → Except HeadError α} {limits : Limits}
  {octets line rest : Octets}

instance : Decidable (LeavesHeadOpen parse limits octets) :=
  match h : Line.finished octets with
  | [] => decidable_of_iff (octets.length ≤ limits.lineSize.toNat) (by simp [LeavesHeadOpen, h])
  | line :: _ =>
    decidable_of_iff (line.length ≤ limits.lineSize.toNat ∧
        (parse (Line.textOf line)).isOk = true ∧
          Line.LeavesOpen limits 0 (octets.drop line.length))
      (by simp [LeavesHeadOpen, h])

/-- Octets that do not end a line leave a head open if they fit in one. -/
theorem leavesHeadOpen_of_isOpen (hoctets : Line.IsOpen octets) :
    LeavesHeadOpen parse limits octets ↔ octets.length ≤ limits.lineSize.toNat := by
  rw [LeavesHeadOpen, Line.finished_of_isOpen hoctets]

/-- Behind its first line a head is open if that line fits and is parsed and the
block is open. -/
theorem leavesHeadOpen_append (hline : Line.IsEnded line) :
    LeavesHeadOpen parse limits (line ++ rest) ↔
      line.length ≤ limits.lineSize.toNat ∧ (parse (Line.textOf line)).isOk = true ∧
        Line.LeavesOpen limits 0 rest := by
  simp only [LeavesHeadOpen, Line.finished_append hline, List.drop_left]

end

/-- A reader is done within the first octets of a source: whatever follows
them, a failure or more octets or nothing, it has the same result, and leaves
what follows as it is. -/
def DoneWithin {β : Type} (read : Source → β × Source) (octets : Octets) : Prop :=
  ∃ (result : β) (left : Octets), ∀ (s : Source) (tail : List Signal),
    s.signals = octets.map .octet ++ tail →
      (read s).1 = result ∧ (read s).2.signals = left.map .octet ++ tail

namespace DoneWithin

variable {β γ : Type} {read next : Source → β × Source} {result : β} {size : UInt64}
  {line octets rest : Octets}

/-- What is made of its result does not change where a reader is done. -/
theorem map (f : β → γ) (h : DoneWithin read octets) :
    DoneWithin (fun s => (f (read s).1, (read s).2)) octets := by
  obtain ⟨result, left, hread⟩ := h
  refine ⟨f result, left, ?_⟩
  intro s tail hs
  obtain ⟨hresult, hleft⟩ := hread s tail hs
  exact ⟨congrArg f hresult, hleft⟩

/-- A reader that reads no more is done. -/
theorem of_result (result : β) (octets : Octets) : DoneWithin (fun s => (result, s)) octets :=
  ⟨result, octets, fun _ _ hs => ⟨rfl, hs⟩⟩

/-- A reader that goes on behind a line is done where it is done behind it. -/
theorem of_line (hline : Line.IsEnded line) (hfits : line.length ≤ size.toNat)
    (hread : ∀ s left, s.readLine size = (.text (Line.textOf line), left) → read s = next left)
    (hnext : DoneWithin next rest) : DoneWithin read (line ++ rest) := by
  obtain ⟨result, left, hdone⟩ := hnext
  refine ⟨result, left, ?_⟩
  intro s tail hs
  rw [List.map_append, List.append_assoc] at hs
  obtain ⟨behind, hread', hbehind⟩ := Source.readLine_of_isEnded hline hfits hs
  rw [hread s behind hread']
  exact hdone behind tail hbehind

/-- A reader that stops at a line past its bound is done within the line. -/
theorem of_long (hoctets : Line.IsOpen octets ∨ Line.IsEnded octets)
    (hlong : size.toNat < octets.length)
    (hread : ∀ s left, s.readLine size = (.tooLong, left) → read s = (result, left)) :
    DoneWithin read (octets ++ rest) := by
  refine ⟨result, (octets ++ rest).drop (size.toNat + 1), ?_⟩
  intro s tail hs
  obtain ⟨left, hread', hleft⟩ := Source.readLine_of_past hoctets hlong hs
  rw [hread s left hread']
  exact ⟨rfl, hleft⟩

end DoneWithin

namespace Source

open Line

variable {limits : Limits} {s : Source} {octets line rest : Octets} {tail : List Signal}

theorem signals_append (s t : Source) : (s ++ t : List Event).signals = s.signals ++ t.signals := by
  induction s with
  | nil => rfl
  | cons e rest ih => cases e <;> simp [signals, ih]

/-- A source that fails between two others. -/
def failingBetween (front back : Source) : Source :=
  front ++ .failed :: back

/-- The first source has given all its octets when the failure comes. -/
theorem signals_failingBetween {front : Source} (hfront : Event.failed ∉ front) (back : Source) :
    (front.failingBetween back).signals =
      front.remaining.map .octet ++ .failure :: back.signals := by
  rw [failingBetween, signals_append, signals_of_intact hfront, signals]

section

variable [Hasher]

/-! ## Blocks -/

/-- **A block that is left open loses the line that has not ended, and nothing
else.**  The induction is on the lines, with the fields taken so far. -/
theorem readFieldsAfter_of_failure (fields : Fields)
    (hopen : LeavesOpen limits fields.size octets)
    (h : s.signals = octets.map .octet ++ .failure :: tail) :
    (s.readFieldsAfter limits fields).1.toList = fields.toList ++ fieldsOf (finished octets) ∧
      (s.readFieldsAfter limits fields).2.signals = tail := by
  induction octets using lines_induction generalizing s fields with
  | last octets hoctets =>
      obtain ⟨-, hfits⟩ := (leavesOpen_of_isOpen hoctets).mp hopen
      obtain ⟨rest, hread, hrest⟩ := readLine_of_isOpen_failure hoctets hfits h
      rw [readFieldsAfter_eq, hread, finished_of_isOpen hoctets]
      exact ⟨(List.append_nil _).symm, hrest⟩
  | line line rest hline ih =>
      obtain ⟨⟨hfits, hpass⟩, hopen⟩ := (leavesOpen_append hline).mp hopen
      rw [List.map_append, List.append_assoc] at h
      obtain ⟨behind, hread, hbehind⟩ := readLine_of_isEnded hline hfits h
      rw [← size_pass] at hopen
      obtain ⟨hfields, hleft⟩ := ih _ hopen hbehind
      rw [readFieldsAfter_of_text_pass hread hpass, hfields, finished_append hline, fieldsOf_cons]
      refine ⟨?_, hleft⟩
      by_cases hvalue : hasValue line = true
      · simp [hvalue, FieldMap.toList_insert]
      · simp [hvalue]

/-- **A block that is not left open is done**, at the first line that stops it
or at the line that is past its bound though it has not ended. -/
theorem doneWithin_readFieldsAfter (fields : Fields) (hroom : fields.size ≤ limits.fieldCount.toNat)
    (hclosed : ¬ LeavesOpen limits fields.size octets) :
    DoneWithin (·.readFieldsAfter limits fields) octets := by
  -- A line past its bound ends the block with the fields taken so far.
  have htooLong : ∀ (fields : Fields) (s left : Source),
      s.readLine limits.lineSize = (.tooLong, left) →
        s.readFieldsAfter limits fields = (fields, left) := by
    intro fields s left hread
    rw [readFieldsAfter_eq, hread]
  induction octets using lines_induction generalizing fields with
  | last octets hoctets =>
      have hlong : limits.lineSize.toNat < octets.length := Nat.lt_of_not_le fun hfits =>
        hclosed ((leavesOpen_of_isOpen hoctets).mpr ⟨hroom, hfits⟩)
      rw [← List.append_nil octets]
      exact .of_long (Or.inl hoctets) hlong (htooLong fields)
  | line line rest hline ih =>
      rcases Nat.lt_or_ge limits.lineSize.toNat line.length with hlong | hfits
      · exact .of_long (Or.inr hline) hlong (htooLong fields)
      by_cases hstop : ':' ∉ textOf line ∨
          hasValue line = true ∧ limits.fieldCount.toNat ≤ fields.size
      · exact .of_line hline hfits
          (fun s left hread => readFieldsAfter_of_text_stop hread hstop) (.of_result fields rest)
      · refine .of_line hline hfits
          (fun s left hread => readFieldsAfter_of_text_pass hread hstop) (ih _ ?_ ?_)
        · rw [size_pass]
          by_cases hvalue : hasValue line = true
          · have hbelow : ¬ limits.fieldCount.toNat ≤ fields.size :=
              fun hfull => hstop (Or.inr ⟨hvalue, hfull⟩)
            rw [if_pos hvalue]
            omega
          · rw [if_neg hvalue]
            exact hroom
        · rw [size_pass]
          exact fun hopen => hclosed ((leavesOpen_append hline).mpr ⟨⟨hfits, hstop⟩, hopen⟩)

/-! ## Heads -/

variable {α : Type} {parse : Text → Except HeadError α}

/-- **A start line that is broken off is none.** -/
theorem readHead_of_failure_start (parse : Text → Except HeadError α) (hoctets : IsOpen octets)
    (hfits : octets.length ≤ limits.lineSize.toNat)
    (h : s.signals = octets.map .octet ++ .failure :: tail) :
    (s.readHead parse limits).1 = .error .noStartLine ∧
      (s.readHead parse limits).2.signals = tail := by
  obtain ⟨rest, hread, hrest⟩ := readLine_of_isOpen_failure hoctets hfits h
  rw [readHead, hread]
  exact ⟨rfl, hrest⟩

/-- **A head that is broken off behind its start line is read with the fields
of the lines that have ended.** -/
theorem readHead_of_failure_block {start : α} (hline : IsEnded line)
    (hfits : line.length ≤ limits.lineSize.toNat) (hparse : parse (textOf line) = .ok start)
    (hopen : LeavesOpen limits 0 rest)
    (h : s.signals = (line ++ rest).map .octet ++ .failure :: tail) :
    ∃ fields : Fields, (s.readHead parse limits).1 = .ok (start, fields) ∧
      fields.toList = fieldsOf (finished rest) ∧ (s.readHead parse limits).2.signals = tail := by
  rw [List.map_append, List.append_assoc] at h
  obtain ⟨behind, hread, hbehind⟩ := readLine_of_isEnded hline hfits h
  have hhead : s.readHead parse limits =
      (.ok (start, (behind.readFields limits).1), (behind.readFields limits).2) := by
    rw [readHead, hread]
    simp only [hparse]
  obtain ⟨hfields, hleft⟩ := readFieldsAfter_of_failure FieldMap.empty hopen hbehind
  rw [hhead]
  exact ⟨(behind.readFields limits).1, rfl, hfields, hleft⟩

/-- **A head that is not left open is done**, at a start line that is refused
or past its bound, or within the block. -/
theorem doneWithin_readHead (hclosed : ¬ LeavesHeadOpen parse limits octets) :
    DoneWithin (·.readHead parse limits) octets := by
  have htooLong : ∀ s left : Source, s.readLine limits.lineSize = (.tooLong, left) →
      s.readHead parse limits = (.error .startLineTooLong, left) := by
    intro s left hread
    rw [readHead, hread]
  rcases isOpen_or_isEnded octets with hopen | ⟨line, rest, hline, rfl⟩
  · have hlong : limits.lineSize.toNat < octets.length := Nat.lt_of_not_le fun hfits =>
      hclosed ((leavesHeadOpen_of_isOpen hopen).mpr hfits)
    rw [← List.append_nil octets]
    exact .of_long (Or.inl hopen) hlong htooLong
  rcases Nat.lt_or_ge limits.lineSize.toNat line.length with hlong | hfits
  · exact .of_long (Or.inr hline) hlong htooLong
  cases hparse : parse (textOf line) with
  | error e =>
      refine .of_line hline hfits ?_ (.of_result (.error e) rest)
      intro s left hread
      rw [readHead, hread]
      simp only [hparse]
  | ok start =>
      have hblock : DoneWithin (·.readFields limits) rest :=
        doneWithin_readFieldsAfter FieldMap.empty (Nat.zero_le _) fun hopen =>
          hclosed ((leavesHeadOpen_append hline).mpr ⟨hfits, by rw [hparse]; rfl, hopen⟩)
      refine .of_line hline hfits ?_ (hblock.map fun fields => .ok (start, fields))
      intro s left hread
      rw [readHead, hread]
      simp only [hparse]

/-! ## Every failure -/

/-- What a failure does to a block of fields. -/
structure FailingBlock (limits : Limits) (front back : Source) : Prop where
  /-- A block that is left open has the fields on the lines that have ended,
  and what stands behind the failure is left. -/
  met : LeavesOpen limits 0 front.remaining →
    ((front.failingBetween back).readFields limits).1.toList =
        fieldsOf (finished front.remaining) ∧
      ((front.failingBetween back).readFields limits).2.signals = back.signals
  /-- Any other block is done before the failure. -/
  unreached : ¬ LeavesOpen limits 0 front.remaining →
    DoneWithin (·.readFields limits) front.remaining

/-- What a failure does to a head, which is made of its start line and its
fields. -/
structure FailingHead {β : Type} (parse : Text → Except HeadError α) (make : α → Fields → β)
    (read : Source → Except HeadError β × Source) (limits : Limits) (front back : Source) :
    Prop where
  /-- Without a start line there is no head, and what stands behind the failure
  is left. -/
  start : LeavesHeadOpen parse limits front.remaining → finished front.remaining = [] →
    (read (front.failingBetween back)).1 = .error .noStartLine ∧
      (read (front.failingBetween back)).2.signals = back.signals
  /-- Behind a start line there are the fields on the lines that have ended. -/
  block : LeavesHeadOpen parse limits front.remaining → ∀ line later,
    finished front.remaining = line :: later → ∃ (start : α) (fields : Fields),
      parse (textOf line) = .ok start ∧ fields.toList = fieldsOf later ∧
        (read (front.failingBetween back)).1 = .ok (make start fields) ∧
        (read (front.failingBetween back)).2.signals = back.signals
  /-- Any other head is done before the failure. -/
  unreached : ¬ LeavesHeadOpen parse limits front.remaining → DoneWithin read front.remaining

/-- A head is made of what the reader of heads returns. -/
theorem failingHead {β : Type} (parse : Text → Except HeadError α) (make : α → Fields → β)
    (limits : Limits) {front : Source} (hfront : Event.failed ∉ front) (back : Source) :
    FailingHead parse make
      (fun s => ((s.readHead parse limits).1.map fun head => make head.1 head.2,
        (s.readHead parse limits).2)) limits front back where
  start := by
    intro hopen hnone
    rcases isOpen_or_isEnded front.remaining with hoctets | ⟨line, rest, hline, hdata⟩
    · obtain ⟨hread, hleft⟩ := readHead_of_failure_start parse hoctets
        ((leavesHeadOpen_of_isOpen hoctets).mp hopen) (signals_failingBetween hfront back)
      exact ⟨by rw [hread]; rfl, hleft⟩
    · rw [hdata, finished_append hline] at hnone
      exact absurd hnone (List.cons_ne_nil _ _)
  block := by
    intro hopen line later hlines
    rcases isOpen_or_isEnded front.remaining with hoctets | ⟨line, rest, hline, hdata⟩
    · rw [finished_of_isOpen hoctets] at hlines
      exact absurd hlines.symm (List.cons_ne_nil _ _)
    · rw [hdata, finished_append hline] at hlines
      obtain ⟨rfl, rfl⟩ := List.cons.inj hlines
      rw [hdata, leavesHeadOpen_append hline] at hopen
      obtain ⟨hfits, hok, hopen⟩ := hopen
      have hsignals := signals_failingBetween hfront back
      rw [hdata] at hsignals
      cases hparse : parse (textOf line) with
      | error e =>
          rw [hparse] at hok
          exact absurd hok Bool.false_ne_true
      | ok start =>
          obtain ⟨fields, hread, hfields, hleft⟩ :=
            readHead_of_failure_block hline hfits hparse hopen hsignals
          exact ⟨start, fields, rfl, hfields, by rw [hread]; rfl, hleft⟩
  unreached := fun hclosed => (doneWithin_readHead hclosed).map _

/-- **A failure never cuts a field.**  Whatever is read when a source fails for
the first time, either the octets before the failure leave it open, and then
just the line that has not ended is lost and what stands behind the failure is
left; or it is done within these octets, and the failure has not been
reached. -/
theorem reading_of_failure (limits : Limits) (front back : Source)
    (hfront : Event.failed ∉ front) :
    FailingBlock limits front back ∧
      FailingHead RequestLine.parse Request.ofLine (·.readRequest limits) limits front back ∧
      FailingHead StatusLine.parse Response.ofLine (·.readResponse limits) limits front back := by
  refine ⟨⟨?_, ?_⟩, failingHead _ _ limits hfront back, failingHead _ _ limits hfront back⟩
  · intro hopen
    exact readFieldsAfter_of_failure FieldMap.empty hopen
      (signals_failingBetween hfront back)
  · exact doneWithin_readFieldsAfter FieldMap.empty (Nat.zero_le _)

end

/-- The read fails in the second field: the first field is there, and what
stands behind the failure is left.  Under a bound one octet smaller the request
line is too long, and the failure is not reached. -/
theorem reading_of_failure_second_field :
    let front : Source := [.data [65, 32, 47, 32, 72, 84, 84, 80, 47], .data [49, 10, 66, 58, 50],
      .interrupted, .data [13, 10, 67, 58]]
    let back : Source := [.data [51, 10]]
    Event.failed ∉ front ∧
      (∃ fields : Fields, fields.toList = [(['B'], ['2'])] ∧
        ((front.failingBetween back).readRequest ⟨9, 11⟩).1 =
          .ok (Request.ofLine ⟨['A'], ['/'], [], ['1']⟩ fields) ∧
        ((front.failingBetween back).readRequest ⟨9, 11⟩).2.signals = back.signals) ∧
      DoneWithin (·.readRequest ⟨9, 10⟩) front.remaining := by
  intro front back
  have hfront : Event.failed ∉ front := by decide
  obtain ⟨-, hopen, -⟩ := reading_of_failure ⟨9, 11⟩ front back hfront
  obtain ⟨-, hclosed, -⟩ := reading_of_failure ⟨9, 10⟩ front back hfront
  obtain ⟨start, fields, hparse, hfields, hread⟩ := hopen.block (by decide +kernel)
    [65, 32, 47, 32, 72, 84, 84, 80, 47, 49, 10] [[66, 58, 50, 13, 10]] (by decide)
  have hline : RequestLine.parse (textOf [65, 32, 47, 32, 72, 84, 84, 80, 47, 49, 10]) =
      .ok ⟨['A'], ['/'], [], ['1']⟩ := rfl
  obtain rfl := Except.ok.inj (hparse.symm.trans hline)
  exact ⟨hfront, ⟨fields, hfields, hread⟩, hclosed.unreached (by decide +kernel)⟩

end Source
end HttpWire
