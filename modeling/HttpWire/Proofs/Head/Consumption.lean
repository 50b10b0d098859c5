import HttpWire.Head.Block
import HttpWire.Proofs.Source.FirstLine
import HttpWire.Proofs.Source.Lines

/-!
# How much of a source a block of fields uses up

The limits bound each line and the number of fields, and it seems that they
bound what is read of a source as well: of each line at most one octet more
than its bound, and one line beyond the greatest number of fields.  But the
number of fields is looked at only where a line has a value.  A line without
value is passed over, even when no further field would be taken.

So the lines that count are few, and the lines without value are as many as the
source holds.  What a block uses up is given here by its trace, the octets
taken for one line after the other (`exists_lineTrace`).  Any row of lines
without value is passed over (`readFieldsAfter_of_valueless`), so there is no
bound on what is used up as soon as such a line fits with its LF, that is, in
two octets (`readFields_consumption`).
-/

namespace HttpWire

/-- A line without value, which a block passes over. -/
def Line.Valueless (line : Octets) : Prop :=
  FieldLine.ofText (Line.textOf line) = .blank

instance : DecidablePred Line.Valueless :=
  fun _ => inferInstanceAs (Decidable (_ = _))

namespace Source

/-- The number of octets that a block of fields uses up. -/
def consumed [Hasher] (limits : Limits) (s : Source) : Nat :=
  s.remaining.length - (s.readFields limits).2.remaining.length

/-- Lines read one after the other off a source, each with the octets that
were taken for it, and the source that they leave. -/
inductive LineTrace (size : UInt64) : Source → List Octets → Source → Prop
  | nil (s : Source) : LineTrace size s [] s
  | cons {s rest t : Source} {line : Octets} {failed : Bool} {lines : List Octets}
      (hline : s.takeThrough (· == Line.lf) (Line.reach size) = ⟨line, rest, failed⟩)
      (tail : LineTrace size rest lines t) : LineTrace size s (line :: lines) t

variable {size : UInt64} {limits : Limits} {s t rest : Source} {line : Octets}
  {lines : List Octets} {tail : List Signal}

/-! ## Traces -/

/-- A trace loses no octet. -/
theorem LineTrace.flatten_append (h : LineTrace size s lines t) :
    lines.flatten ++ t.remaining = s.remaining := by
  induction h with
  | nil s => rfl
  | @cons s rest t line failed lines hline tail ih =>
      have hkept := takeThrough_append_remaining (· == Line.lf) (Line.reach size) s
      rw [hline, ← ih] at hkept
      rw [List.flatten_cons, List.append_assoc]
      exact hkept

/-- Of no line is more taken than one octet past its bound. -/
theorem LineTrace.length_le (h : LineTrace size s lines t) :
    ∀ line ∈ lines, line.length ≤ size.toNat + 1 := by
  induction h with
  | nil s => exact fun _ hmem => absurd hmem List.not_mem_nil
  | @cons s rest t line failed lines hline tail ih =>
      have htaken := takeThrough_length_le (· == Line.lf) (Line.reach size) s
      have hreach : Line.reach size ≤ size.toNat + 1 := Nat.min_le_left _ _
      rw [hline] at htaken
      intro other hother
      rcases List.mem_cons.mp hother with rfl | hlater
      · exact Nat.le_trans htaken hreach
      · exact ih other hlater

/-- One line read in front of a trace. -/
theorem LineTrace.cons_of_readLine {found : Line} (hread : s.readLine size = (found, rest))
    (tail : LineTrace size rest lines t) :
    ∃ line, LineTrace size s (line :: lines) t ∧
      ∀ text, found = .text text → text = Line.textOf line := by
  rw [readLine, Prod.mk.injEq] at hread
  obtain ⟨hfound, hrest⟩ := hread
  refine ⟨_, .cons rfl (hrest ▸ tail), ?_⟩
  intro text htext
  rw [htext, Line.ofTaken] at hfound
  split at hfound
  · exact absurd hfound (by simp)
  · split at hfound
    · exact absurd hfound (by simp)
    · exact (Line.text.inj hfound).symm

/-! ## Lines that count -/

/-- The last line that is read counts at most once. -/
theorem exists_lineTrace_of_last {found : Line} (hread : s.readLine size = (found, rest))
    (room : Nat) :
    ∃ lines, LineTrace size s lines rest ∧ lines.countP (¬ Line.Valueless ·) ≤ room + 1 := by
  obtain ⟨line, htrace, -⟩ := LineTrace.cons_of_readLine hread (.nil rest)
  have hone : [line].countP (¬ Line.Valueless ·) ≤ 1 := List.countP_le_length
  exact ⟨[line], htrace, by omega⟩

/-- The octets of lines, counted apart for those without value. -/
theorem length_flatten_le {n : Nat} (h : ∀ line ∈ lines, line.length ≤ n) :
    lines.flatten.length ≤ lines.countP (¬ Line.Valueless ·) * n +
      (lines.filter (Line.Valueless ·)).flatten.length := by
  induction lines with
  | nil => simp
  | cons line lines ih =>
      have hline := h line List.mem_cons_self
      have hlater := ih fun other hother => h other (List.mem_cons_of_mem _ hother)
      rw [List.flatten_cons, List.length_append]
      by_cases hvalueless : Line.Valueless line
      · rw [List.countP_cons_of_neg (by simpa using hvalueless),
          List.filter_cons_of_pos (by simpa using hvalueless), List.flatten_cons,
          List.length_append]
        omega
      · rw [List.countP_cons_of_pos (by simpa using hvalueless),
          List.filter_cons_of_neg (by simpa using hvalueless), Nat.succ_mul]
        omega

section

variable [Hasher] {fields : Fields}

/-- **Of the lines that a block uses up, few have a value**: no more than
fields are still to be taken, and one line behind them.  The induction follows
the reader; a line without value leaves the count as it is. -/
theorem exists_lineTrace (limits : Limits) (fields : Fields) (s : Source) :
    ∃ lines, LineTrace limits.lineSize s lines (s.readFieldsAfter limits fields).2 ∧
      lines.countP (¬ Line.Valueless ·) ≤ limits.fieldCount.toNat - fields.size + 1 := by
  fun_induction readFieldsAfter limits fields s with
  | case1 fields s rest hread => exact exists_lineTrace_of_last hread _
  | case2 fields s rest hread => exact exists_lineTrace_of_last hread _
  | case3 fields s text rest hread hkind => exact exists_lineTrace_of_last hread _
  | case4 fields s text rest hread hkind ih =>
      obtain ⟨lines, hlines, hcount⟩ := ih
      obtain ⟨line, htrace, htext⟩ := hlines.cons_of_readLine hread
      have hvalueless : Line.Valueless line := by
        rw [Line.Valueless, ← htext text rfl]
        exact hkind
      refine ⟨line :: lines, htrace, ?_⟩
      rw [List.countP_cons_of_neg (by simpa using hvalueless)]
      exact hcount
  | case5 fields s text rest hread name value hkind hfull => exact exists_lineTrace_of_last hread _
  | case6 fields s text rest hread name value hkind hroom ih =>
      obtain ⟨lines, hlines, hcount⟩ := ih
      obtain ⟨line, htrace, -⟩ := hlines.cons_of_readLine hread
      have hgrown := fields.size_insert name value
      have hstep : (line :: lines).countP (¬ Line.Valueless ·) ≤
          lines.countP (¬ Line.Valueless ·) + 1 := by
        rw [List.countP_cons]
        split <;> omega
      exact ⟨line :: lines, htrace, by omega⟩

/-- **What a block uses up beyond its bounds are lines without value.** -/
theorem consumed_le (limits : Limits) (s : Source) :
    ∃ lines, LineTrace limits.lineSize s lines (s.readFields limits).2 ∧
      lines.countP (¬ Line.Valueless ·) ≤ limits.fieldCount.toNat + 1 ∧
      s.consumed limits ≤ (limits.fieldCount.toNat + 1) * (limits.lineSize.toNat + 1) +
        (lines.filter (Line.Valueless ·)).flatten.length := by
  obtain ⟨lines, htrace, hcount⟩ := exists_lineTrace limits FieldMap.empty s
  refine ⟨lines, htrace, hcount, ?_⟩
  have hconsumed : s.consumed limits = lines.flatten.length := by
    rw [consumed, ← htrace.flatten_append, List.length_append]
    exact Nat.add_sub_cancel _ _
  calc s.consumed limits
      = lines.flatten.length := hconsumed
    _ ≤ lines.countP (¬ Line.Valueless ·) * (limits.lineSize.toNat + 1) +
          (lines.filter (Line.Valueless ·)).flatten.length := length_flatten_le htrace.length_le
    _ ≤ _ := Nat.add_le_add_right (Nat.mul_le_mul_right _ hcount) _

/-! ## Lines without value -/

/-- **Lines without value are passed over**, whatever fields there are
already. -/
theorem readFieldsAfter_of_valueless {bodies : List Octets}
    (hbodies : ∀ body ∈ bodies, Line.lf ∉ body ∧ body.length < limits.lineSize.toNat ∧
      Line.Valueless (body ++ [Line.lf]))
    (h : s.signals = (bodies.flatMap (· ++ [Line.lf])).map .octet ++ tail) :
    ∃ rest : Source, rest.signals = tail ∧
      s.readFieldsAfter limits fields = rest.readFieldsAfter limits fields := by
  induction bodies generalizing s with
  | nil => exact ⟨s, h, rfl⟩
  | cons body bodies ih =>
      obtain ⟨hlf, hsize, hvalueless⟩ := hbodies body List.mem_cons_self
      have hsignals : s.signals = body.map .octet ++
          .octet Line.lf :: ((bodies.flatMap (· ++ [Line.lf])).map .octet ++ tail) := by
        rw [h]
        simp
      obtain ⟨next, hread, hnext⟩ := readLine_of_lf hlf hsize hsignals
      obtain ⟨rest, hrest, hfields⟩ :=
        ih (fun other hother => hbodies other (List.mem_cons_of_mem _ hother)) hnext
      refine ⟨rest, hrest, ?_⟩
      rw [readFieldsAfter_eq, hread]
      simp only [show FieldLine.ofText _ = .blank from hvalueless]
      exact hfields

/-- At the end of the data nothing is left. -/
theorem remaining_readFieldsAfter_of_ended (h : s.signals = []) :
    (s.readFieldsAfter limits fields).2.remaining = [] := by
  obtain ⟨lines, htrace, -⟩ := exists_lineTrace limits fields s
  have hkept := htrace.flatten_append
  rw [show s.remaining = [] from remaining_of_signals h, List.append_eq_nil_iff] at hkept
  exact hkept.2

/-- **A source of lines without value is used up whole.** -/
theorem consumed_of_valueless {bodies : List Octets}
    (hbodies : ∀ body ∈ bodies, Line.lf ∉ body ∧ body.length < limits.lineSize.toNat ∧
      Line.Valueless (body ++ [Line.lf]))
    (h : s.signals = (bodies.flatMap (· ++ [Line.lf])).map .octet) :
    s.consumed limits = s.remaining.length := by
  obtain ⟨rest, hrest, hread⟩ : ∃ rest : Source, rest.signals = [] ∧
      s.readFieldsAfter limits FieldMap.empty = rest.readFieldsAfter limits FieldMap.empty :=
    readFieldsAfter_of_valueless hbodies (by rw [h, List.append_nil])
  rw [consumed, readFields, hread, remaining_readFieldsAfter_of_ended hrest, List.length_nil,
    Nat.sub_zero]

/-- **Where two octets fit in a line there is no bound**: lines that are a `:`
and no more are used up however many there are. -/
theorem exists_consumed_gt (hsize : 2 ≤ limits.lineSize.toNat) (bound : Nat) :
    ∃ s : Source, bound < s.consumed limits := by
  have hbodies : ∀ body ∈ List.replicate (bound + 1) ([58] : Octets), Line.lf ∉ body ∧
      body.length < limits.lineSize.toNat ∧ Line.Valueless (body ++ [Line.lf]) := by
    intro body hbody
    obtain rfl := List.eq_of_mem_replicate hbody
    exact ⟨by decide, hsize, by decide⟩
  let octets : Octets := (List.replicate (bound + 1) [58]).flatMap (· ++ [Line.lf])
  have hsignals : Source.signals [.data octets] = octets.map .octet := by simp [signals]
  refine ⟨[.data octets], ?_⟩
  rw [consumed_of_valueless hbodies hsignals, remaining_of_signals hsignals]
  simp [octets, List.flatMap_replicate]
  omega

/-! ## Narrow lines -/

/-- Where no line without value fits with its LF, a block uses up its first
line only: behind a line that does not end the block the data end. -/
theorem remaining_readFieldsAfter_of_narrow (hsize : limits.lineSize.toNat < 2)
    (fields : Fields) (s : Source) :
    (s.readFieldsAfter limits fields).2.remaining = (s.readLine limits.lineSize).2.remaining := by
  have hmax : limits.lineSize.toNat < UInt64.size - 1 := Nat.lt_trans hsize (by decide)
  rcases Nat.lt_or_ge limits.lineSize.toNat s.firstLine.length with hlong | hfits
  · obtain ⟨rest, hread⟩ := readLine_of_long hlong hmax
    rw [readFieldsAfter_eq, hread]
  obtain ⟨body, tail, hbody, hsignals, hend⟩ := Signal.exists_end s.signals
  rw [firstLine, hsignals, Signal.firstLine_append hbody, List.length_append] at hfits
  have hshort : body.length ≤ limits.lineSize.toNat := by omega
  rcases hend with rfl | ⟨later, rfl⟩ | ⟨later, rfl⟩
  · rw [List.append_nil] at hsignals
    by_cases hempty : body = []
    · rw [hempty] at hsignals
      obtain ⟨rest, hread, -⟩ := readLine_of_nil limits.lineSize hsignals
      rw [readFieldsAfter_eq, hread]
    · obtain ⟨rest, hread, hrest⟩ := readLine_of_unended hbody hshort hempty hsignals
      have hnone : rest.remaining = [] := remaining_of_signals hrest
      rw [readFieldsAfter_eq, hread]
      simp only [hnone]
      cases FieldLine.ofText (Line.textOf body) with
      | outside => exact hnone
      | blank => exact remaining_readFieldsAfter_of_ended hrest
      | field name value =>
          by_cases hfull : limits.fieldCount.toNat ≤ fields.size
          · simp only [if_pos hfull, hnone]
          · simp only [if_neg hfull]
            exact remaining_readFieldsAfter_of_ended hrest
  · obtain ⟨rest, hread, -⟩ := readLine_of_failure hbody hshort (by omega) hsignals
    rw [readFieldsAfter_eq, hread]
  · simp only [Signal.firstLine, if_pos, List.length_singleton] at hfits
    have hended : body.length < limits.lineSize.toNat := hfits
    have hempty : body = [] := List.length_eq_zero_iff.mp (by omega)
    obtain ⟨rest, hread, -⟩ := readLine_of_lf hbody hended hsignals
    have houtside : FieldLine.ofText (Line.textOf (body ++ [Line.lf])) = .outside := by
      rw [hempty]
      decide
    rw [readFieldsAfter_eq, hread]
    simp only [houtside]

/-- **Narrow lines keep a block within its bounds.** -/
theorem consumed_of_narrow (hsize : limits.lineSize.toNat < 2) (s : Source) :
    s.consumed limits ≤ (limits.fieldCount.toNat + 1) * (limits.lineSize.toNat + 1) := by
  have htaken := takeThrough_length_le (· == Line.lf) (Line.reach limits.lineSize) s
  have hkept := takeThrough_append_remaining (· == Line.lf) (Line.reach limits.lineSize) s
  have hreach : Line.reach limits.lineSize ≤ limits.lineSize.toNat + 1 := Nat.min_le_left _ _
  have hline : s.consumed limits ≤ limits.lineSize.toNat + 1 := by
    rw [consumed, readFields, remaining_readFieldsAfter_of_narrow hsize, ← hkept,
      List.length_append]
    simp only [readLine]
    omega
  exact Nat.le_trans hline (Nat.le_mul_of_pos_left _ (Nat.succ_pos _))

/-- A bound on what is used up means that lines are narrow. -/
theorem narrow_of_consumed_le {bound : Nat} (h : ∀ s : Source, s.consumed limits ≤ bound) :
    limits.lineSize.toNat < 2 := by
  rcases Nat.lt_or_ge limits.lineSize.toNat 2 with hnarrow | hwide
  · exact hnarrow
  · obtain ⟨s, hs⟩ := exists_consumed_gt hwide bound
    exact absurd (h s) (Nat.not_le.mpr hs)

/-- **What a block uses up.**  Of the lines read for it, at most one more has a
value than fields may be taken; all that goes beyond the size of so many lines
are lines without value.  These are not bounded: what a block uses up keeps
within that size only where no such line fits, and otherwise has no bound at
all. -/
theorem readFields_consumption (limits : Limits) :
    (∀ s : Source, ∃ lines, LineTrace limits.lineSize s lines (s.readFields limits).2 ∧
        lines.countP (¬ Line.Valueless ·) ≤ limits.fieldCount.toNat + 1 ∧
        s.consumed limits ≤ (limits.fieldCount.toNat + 1) * (limits.lineSize.toNat + 1) +
          (lines.filter (Line.Valueless ·)).flatten.length) ∧
      ((∀ s : Source, s.consumed limits ≤
          (limits.fieldCount.toNat + 1) * (limits.lineSize.toNat + 1)) ↔
        limits.lineSize.toNat < 2) ∧
      ((∃ bound, ∀ s : Source, s.consumed limits ≤ bound) ↔ limits.lineSize.toNat < 2) := by
  refine ⟨consumed_le limits, ⟨narrow_of_consumed_le, consumed_of_narrow⟩, ?_⟩
  constructor
  · intro hbounded
    obtain ⟨bound, hbound⟩ := hbounded
    exact narrow_of_consumed_le hbound
  · intro hnarrow
    exact ⟨_, consumed_of_narrow hnarrow⟩

end

/-- A block that has its one field and reads on past both limits. -/
theorem consumed_past_limits :
    let limits : Limits := ⟨1, 4⟩
    let s : Source := [.data [65, 58, 49, 10, 66, 58, 10, 66, 58, 10, 66, 58, 10, 10]]
    (s.readFields limits).1.toList = [(['A'], ['1'])] ∧
      ¬ s.consumed limits ≤ (limits.fieldCount.toNat + 1) * (limits.lineSize.toNat + 1) := by
  decide +kernel

end Source
end HttpWire
