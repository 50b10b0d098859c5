import HttpWire.Exchange
import HttpWire.Proofs.Head.Simulation
import HttpWire.Proofs.Source.Delivery
import Mathlib.Data.List.Forall2

/-!
# An exchange does not see how its data are delivered

Every reader is built from reads of single lines and of plain octets, and
those see the signals of a source only.  So sources with the same signals are
read side by side (`Source.KeptByLines`): blocks of fields, heads of both
kinds, one step of an exchange and, by induction on the steps, a whole
exchange.
-/

namespace HttpWire

/-- Reading a line sees signals only. -/
theorem Source.keptByLines_signals (size : UInt64) :
    KeptByLines size fun s t => s.signals = t.signals :=
  fun _ _ h => readLine_congr h size

namespace Exchange

variable {s t : Source}

/-- **One step does not see how its data are delivered.** -/
theorem Step.run_congr [Hasher] (h : s.signals = t.signals) (step : Step) :
    (Step.run s step).1 = (Step.run t step).1 ∧
      (Step.run s step).2.signals = (Step.run t step).2.signals := by
  cases step with
  | fields limits =>
      obtain ⟨hfields, hrest⟩ := (Source.keptByLines_signals limits.lineSize).readFields h
      exact ⟨congrArg Outcome.fields hfields, hrest⟩
  | request limits =>
      obtain ⟨hrequest, hrest⟩ := (Source.keptByLines_signals limits.lineSize).readRequest h
      exact ⟨congrArg Outcome.request hrequest, hrest⟩
  | response limits =>
      obtain ⟨hresponse, hrest⟩ := (Source.keptByLines_signals limits.lineSize).readResponse h
      exact ⟨congrArg Outcome.response hresponse, hrest⟩
  | octets count =>
      obtain ⟨hoctets, hfailed, hrest⟩ := Source.takeThrough_congr h (fun _ => false) count
      refine ⟨?_, hrest⟩
      simp only [Step.run, Source.takeOctets, hoctets, hfailed]

/-- **An exchange does not see how its data are delivered.**  On two sources
that settle alike every step has the same outcome and leaves the same data,
and the sources it leaves settle alike again. -/
theorem run_of_settled_eq [Hasher] (h : s.settled = t.settled) (steps : List Step) :
    List.Forall₂
      (fun a b => a.1 = b.1 ∧ a.2.remaining = b.2.remaining ∧ a.2.settled = b.2.settled)
      (run s steps) (run t steps) := by
  have hsignals : s.signals = t.signals := Source.settled_eq_iff.mp h
  clear h
  induction steps generalizing s t with
  | nil => exact List.Forall₂.nil
  | cons step later ih =>
      obtain ⟨houtcome, hrest⟩ := Step.run_congr hsignals step
      refine List.Forall₂.cons ⟨houtcome, ?_, ?_⟩ (ih hrest)
      · exact Source.remaining_eq_of_signals hrest
      · exact Source.settled_eq_iff.mpr hrest

/-- The same octets, once with a character, a line end and a line cut apart. -/
theorem run_of_settled_eq_cut_apart :
    let s : Source := [.data [88, 58, 195], .interrupted, .data [], .data [169, 13], .data [10],
      .failed, .data [89, 58, 49]]
    let t : Source := [.data [88, 58, 195, 169, 13, 10], .failed, .interrupted,
      .data [89, 58], .data [49]]
    let steps : List Step := [.fields Limits.standard, .request ⟨1, 2⟩, .octets 4]
    s.settled = t.settled ∧
      List.Forall₂
        (fun a b => a.1 = b.1 ∧ a.2.remaining = b.2.remaining ∧ a.2.settled = b.2.settled)
        (run s steps) (run t steps) := by
  intro s t steps
  have hsettled : s.settled = t.settled := by decide
  exact ⟨hsettled, run_of_settled_eq hsettled steps⟩

end Exchange
end HttpWire
