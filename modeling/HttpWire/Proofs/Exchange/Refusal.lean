import HttpWire.Proofs.Exchange.Delivery
import HttpWire.Proofs.Head.RequestLine
import HttpWire.Proofs.Head.StatusLine
import HttpWire.Proofs.Source.LineRead

/-!
# What a refused start line costs

A head that is refused leaves its source in a known place.  If the line itself
is at fault, exactly this line has been used up, and whatever is read next is
read as if the source began behind it; so one bad line does not spoil the
message that follows.  If the line was too long, one octet more than the bound
is gone, and the rest of the line is what the next reader sees.  If there was
no line, nothing was there to be used up, or a failure has broken it off.

All three follow from `Source.readsLine`: before the start line is parsed one
line is read, and after a fault nothing more (`readHead_of_error`).
-/

namespace HttpWire

/-- The line was read, and what is wrong is the line itself. -/
def HeadError.IsFault (e : HeadError) : Prop :=
  e ≠ .noStartLine ∧ e ≠ .startLineTooLong

instance (e : HeadError) : Decidable e.IsFault :=
  inferInstanceAs (Decidable (_ ∧ _))

namespace Source

/-- Just these octets have been used up: no failure stood among them, and
everything behind them is left. -/
def Spent (s : Source) (octets : Octets) (rest : Source) : Prop :=
  s.signals = octets.map .octet ++ rest.signals

instance (s : Source) (octets : Octets) (rest : Source) : Decidable (s.Spent octets rest) :=
  inferInstanceAs (Decidable (_ = _))

section

variable [Hasher]

/-- What a head that is refused has used up of its source, and what it has
left. -/
structure Refusal (limits : Limits) (s : Source) (e : HeadError) (rest : Source) : Prop where
  /-- A line at fault is used up with its LF, or to the end of the data if it
  has none, and nothing behind it is. -/
  fault : e.IsFault → Line.Measured limits.lineSize s.firstLine →
    s.Spent s.firstLine rest ∧ (s.firstLine.getLast? = some Line.lf ∨ rest.signals = [])
  /-- A line that cannot be measured is used up as far as the greatest bound
  goes. -/
  cut : e.IsFault → ¬ Line.Measured limits.lineSize s.firstLine →
    s.Spent (s.firstLine.take (UInt64.size - 1)) rest
  /-- Behind a line at fault everything is read as on a fresh source that
  begins with the next line. -/
  resumed : e.IsFault → Line.Measured limits.lineSize s.firstLine →
    ∀ fresh : Source, fresh.signals = s.signals.drop s.firstLine.length →
      ∀ step : Exchange.Step, (step.run rest).1 = (step.run fresh).1 ∧
        (step.run rest).2.signals = (step.run fresh).2.signals
  /-- Of a line past its bound one octet more than the bound is used up. -/
  long : e = .startLineTooLong →
    ∃ octets : Octets, octets.length = limits.lineSize.toNat + 1 ∧ s.Spent octets rest
  /-- Where there is no line, there was nothing, or a failure has broken the
  line off. -/
  lacking : e = .noStartLine →
    s.signals = [] ∧ rest.signals = [] ∨
      ∃ octets : Octets, s.signals = octets.map .octet ++ .failure :: rest.signals

variable {α : Type} {parse : Text → Except HeadError α} {limits : Limits} {s rest : Source}
  {e : HeadError}

/-- **A head is refused after one line**, which is missing, too long or not
parsed. -/
theorem readHead_of_error (h : (s.readHead parse limits).1 = .error e) :
    (s.readHead parse limits).2 = (s.readLine limits.lineSize).2 ∧
      ((s.readLine limits.lineSize).1 = .ended ∧ e = .noStartLine ∨
        (s.readLine limits.lineSize).1 = .tooLong ∧ e = .startLineTooLong ∨
        ∃ t, (s.readLine limits.lineSize).1 = .text t ∧ parse t = .error e) := by
  cases hread : s.readLine limits.lineSize with
  | mk line rest =>
      cases line with
      | ended =>
          simp only [readHead, hread, Except.error.injEq] at h ⊢
          exact ⟨trivial, Or.inl ⟨trivial, h.symm⟩⟩
      | tooLong =>
          simp only [readHead, hread, Except.error.injEq] at h ⊢
          exact ⟨trivial, Or.inr (Or.inl ⟨trivial, h.symm⟩)⟩
      | text t =>
          cases hparse : parse t with
          | error fault =>
              simp only [readHead, hread, hparse, Except.error.injEq] at h ⊢
              exact ⟨trivial, Or.inr (Or.inr ⟨t, rfl, by rw [hparse, h]⟩)⟩
          | ok start => simp [readHead, hread, hparse] at h

/-- **A refusal costs a line, and no more than that.** -/
theorem refusal_of_error
    (hparse : ∀ line, parse line ≠ .error .startLineTooLong ∧ parse line ≠ .error .noStartLine)
    (h : (s.readHead parse limits).1 = .error e) :
    Refusal limits s e (s.readHead parse limits).2 := by
  obtain ⟨hrest, hcause⟩ := readHead_of_error h
  have hline := readsLine limits.lineSize s
  rw [← hrest] at hline
  rcases hcause with ⟨hended, rfl⟩ | ⟨htooLong, rfl⟩ | ⟨t, htext, hrefused⟩
  · rw [hended] at hline
    have hnone : ¬ HeadError.IsFault .noStartLine := by decide
    refine ⟨(absurd · hnone), (absurd · hnone), (absurd · hnone), nofun, ?_⟩
    intro _
    exact hline.nothing_or_failure_of_ended
  · rw [htooLong] at hline
    have hlong : ¬ HeadError.IsFault .startLineTooLong := by decide
    refine ⟨(absurd · hlong), (absurd · hlong), (absurd · hlong), ?_, nofun⟩
    intro _
    exact hline.excess_of_tooLong
  · rw [htext] at hline
    have hspent := fun hmeasured => hline.firstLine_of_text hmeasured
    refine ⟨?_, ?_, ?_, ?_, ?_⟩
    · intro _ hmeasured
      obtain ⟨hsignals, -, hend⟩ := hspent hmeasured
      exact ⟨hsignals, hend⟩
    · intro _ _
      exact hline.firstLine_take_of_text
    · intro _ hmeasured fresh hfresh step
      obtain ⟨hsignals, -, -⟩ := hspent hmeasured
      have hsame : (s.readHead parse limits).2.signals = fresh.signals := by
        rw [hfresh, hsignals]
        exact (List.drop_left' (List.length_map _)).symm
      exact Exchange.Step.run_congr hsame step
    · intro hlong
      exact absurd (hlong ▸ hrefused) (hparse t).1
    · intro hnone
      exact absurd (hnone ▸ hrefused) (hparse t).2

/-- **A refused start line costs exactly that line.**  Requests and responses
that are refused for a fault of their first line use up this line and nothing
else, and are followed by whatever the next line begins; one past its bound
costs one octet more than the bound, and at the end of the data nothing is
used up. -/
theorem refusal_cost (limits : Limits) (s : Source) :
    (∀ e, (s.readRequest limits).1 = .error e →
        Refusal limits s e (s.readRequest limits).2) ∧
      ∀ e, (s.readResponse limits).1 = .error e →
        Refusal limits s e (s.readResponse limits).2 := by
  refine ⟨?_, ?_⟩
  · intro e h
    exact refusal_of_error RequestLine.parse_ne_unread (HeadError.map_eq_error_iff.mp h)
  · intro e h
    exact refusal_of_error StatusLine.parse_ne_unread (HeadError.map_eq_error_iff.mp h)

end

/-- A line at fault whose end comes in two chunks, and a field behind it;
under a bound one octet smaller the LF itself is the octet past the bound. -/
theorem refusal_cost_then_field :
    let s : Source := [.data [66, 65, 68, 13], .interrupted, .data [10, 65, 58], .data [49]]
    let fields : Exchange.Step := .fields ⟨9, 5⟩
    (s.readRequest ⟨9, 5⟩).1 = .error .noSpaceAfterMethod ∧
      s.Spent [66, 65, 68, 13, 10] (s.readRequest ⟨9, 5⟩).2 ∧
      (fields.run (s.readRequest ⟨9, 5⟩).2).1 = (fields.run [.data [65, 58, 49]]).1 ∧
      (s.readRequest ⟨9, 4⟩).1 = .error .startLineTooLong ∧
      ∃ octets : Octets, octets.length = 5 ∧ s.Spent octets (s.readRequest ⟨9, 4⟩).2 := by
  intro s fields
  have hline : (s.readHead RequestLine.parse ⟨9, 5⟩).1.map (·.1) =
      RequestLine.parse (Line.textOf s.firstLine) := readHead_of_whole (by decide) (by decide)
  have hfault : (s.readRequest ⟨9, 5⟩).1 = .error .noSpaceAfterMethod :=
    HeadError.map_eq_error_iff.mpr (HeadError.map_eq_error_iff.mp hline)
  have hlong : (s.readRequest ⟨9, 4⟩).1 = .error .startLineTooLong :=
    HeadError.map_eq_error_iff.mpr (readHead_of_long (by decide) (by decide))
  have hcost := (refusal_cost ⟨9, 5⟩ s).1 _ hfault
  obtain ⟨hspent, -⟩ := hcost.fault (by decide) (by decide)
  obtain ⟨hfield, -⟩ :=
    hcost.resumed (by decide) (by decide) [.data [65, 58, 49]] (by decide) fields
  exact ⟨hfault, hspent, hfield, hlong, ((refusal_cost ⟨9, 4⟩ s).1 _ hlong).long rfl⟩

end Source
end HttpWire
