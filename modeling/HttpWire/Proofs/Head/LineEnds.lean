import HttpWire.Proofs.Head.Simulation
import HttpWire.Proofs.Source.Lines
import HttpWire.Proofs.Source.Reading

/-!
# How lines end does not matter

A line may end with LF or with CR and LF.  `Line.withCr` turns the first form
into the second throughout, and leaves everything else as it is: a CR inside a
line, several CRs at its end, a CR at the end of the data.

Both forms of a line have one text (`Line.textOf_crEnded`), because just one CR
is taken away with the LF.  So data and their converted form are read side by
side, line by line (`Source.keptByLines_withCr`), and what is left of the one
is again the converted form of what is left of the other: behind an LF no CR
can stand that belongs to the next line.
-/

namespace HttpWire

namespace Line

/-- Data with a CR put in front of each LF that does not follow one; `afterCr`
tells whether a CR stands right before the data. -/
def withCrFrom (afterCr : Bool) : Octets → Octets
  | [] => []
  | b :: rest =>
    if b = lf ∧ afterCr = false then cr :: lf :: withCrFrom false rest
    else b :: withCrFrom (b == cr) rest

/-- Data with a CR in front of each LF. -/
def withCr (octets : Octets) : Octets :=
  withCrFrom false octets

/-- What stands before the LF of a line, with a CR at its end. -/
def crEnded (body : Octets) : Octets :=
  if body.getLast? = some cr then body else body ++ [cr]

variable {body rest : Octets}

/-- Putting a CR at the end adds no LF. -/
theorem lf_not_mem_crEnded (hbody : lf ∉ body) : lf ∉ crEnded body := by
  have hne : lf ≠ cr := by decide
  unfold crEnded
  split <;> simp [hbody, hne]

/-- **A line has one text**, whether a CR stands before its LF or not. -/
theorem textOf_crEnded (body : Octets) : textOf (crEnded body ++ [lf]) = textOf (body ++ [lf]) := by
  rw [textOf, textOf, dropFinal_append, dropFinal_append, crEnded]
  split
  · rfl
  · rename_i hlast
    rw [dropFinal_append, dropFinal, if_neg hlast]

/-- Data without LF stay as they are. -/
theorem withCrFrom_of_not_mem (afterCr : Bool) (hbody : lf ∉ body) :
    withCrFrom afterCr body = body := by
  induction body generalizing afterCr with
  | nil => rfl
  | cons b body ih =>
      have hb : b ≠ lf := fun h => hbody (h ▸ List.mem_cons_self)
      have hrest := ih (b == cr) (fun h => hbody (List.mem_cons_of_mem _ h))
      simp [withCrFrom, hb, hrest]

/-- Whether a CR is put in front of the first LF is decided by the octet before
it. -/
theorem withCrFrom_append_lf (afterCr : Bool) (hbody : lf ∉ body) :
    withCrFrom afterCr (body ++ lf :: rest) =
      body ++ (if (body.getLast?.map (· == cr)).getD afterCr then [lf] else [cr, lf]) ++
        withCr rest := by
  induction body generalizing afterCr with
  | nil => cases afterCr <;> simp [withCrFrom, withCr, show (lf == cr) = false by decide]
  | cons b body ih =>
      have hb : b ≠ lf := fun h => hbody (h ▸ List.mem_cons_self)
      have hrest := ih (b == cr) (fun h => hbody (List.mem_cons_of_mem _ h))
      have hlast : ((b :: body).getLast?.map (· == cr)).getD afterCr =
          (body.getLast?.map (· == cr)).getD (b == cr) := by
        rw [List.getLast?_cons]
        cases body.getLast? <;> rfl
      rw [hlast, List.cons_append, withCrFrom, if_neg (fun h => hb h.1), hrest]
      rfl

/-- **The first line is converted by itself**, and so is what stands behind
it. -/
theorem withCr_append_lf (hbody : lf ∉ body) :
    withCr (body ++ lf :: rest) = crEnded body ++ lf :: withCr rest := by
  have hlast : (body.getLast?.map (· == cr)).getD false = true ↔ body.getLast? = some cr := by
    cases body.getLast? <;> simp
  rw [withCr, withCrFrom_append_lf false hbody, crEnded]
  by_cases h : body.getLast? = some cr
  · rw [if_pos h, if_pos (hlast.mpr h)]
    simp
  · rw [if_neg h, if_neg (fun h' => h (hlast.mp h'))]
    simp

end Line

namespace Source

open Line

/-- One source holds data, the other holds them with a CR in front of each LF;
neither fails. -/
def WithCr (s t : Source) : Prop :=
  ∃ octets : Octets, s.signals = octets.map .octet ∧ t.signals = (withCr octets).map .octet ∧
    (withCr octets).length < UInt64.size - 1

/-- **The same lines are found in both**, and what is left is again the same
but for the CRs. -/
theorem keptByLines_withCr : KeptByLines Limits.unlimited.lineSize WithCr := by
  intro s t hst
  obtain ⟨octets, hs, ht, hsize⟩ := hst
  have hgreatest : Limits.unlimited.lineSize.toNat = UInt64.size - 1 := rfl
  rcases split_cases octets with rfl | ⟨hlf, hne, -⟩ | ⟨body, rest, hbody, rfl, -⟩
  · obtain ⟨s', hreads, hs'⟩ := readLine_of_nil Limits.unlimited.lineSize hs
    obtain ⟨t', hreadt, ht'⟩ := readLine_of_nil Limits.unlimited.lineSize ht
    rw [hreads, hreadt]
    exact ⟨rfl, [], hs', ht', hsize⟩
  · have hsame : withCr octets = octets := withCrFrom_of_not_mem false hlf
    rw [hsame] at ht hsize
    have hfits : octets.length ≤ Limits.unlimited.lineSize.toNat := by omega
    obtain ⟨s', hreads, hs'⟩ := readLine_of_unended hlf hfits hne hs
    obtain ⟨t', hreadt, ht'⟩ := readLine_of_unended hlf hfits hne ht
    rw [hreads, hreadt]
    exact ⟨rfl, [], hs', ht', by decide⟩
  · rw [withCr_append_lf hbody] at ht hsize
    have hconverted := lf_not_mem_crEnded hbody
    have hgrown : body.length ≤ (crEnded body).length := by
      unfold crEnded
      split <;> simp
    simp only [List.length_append, List.length_cons] at hsize
    have hlengths : body.length < Limits.unlimited.lineSize.toNat := by omega
    have hlengtht : (crEnded body).length < Limits.unlimited.lineSize.toNat := by omega
    rw [List.map_append, List.map_cons] at hs ht
    obtain ⟨s', hreads, hs'⟩ := readLine_of_lf hbody hlengths hs
    obtain ⟨t', hreadt, ht'⟩ := readLine_of_lf hconverted hlengtht ht
    rw [hreads, hreadt, textOf_crEnded]
    exact ⟨rfl, rest, hs', ht', by omega⟩

/-- The data of one source are those of the other with a CR in front of each LF. -/
theorem WithCr.remaining {s t : Source} (h : WithCr s t) : t.remaining = withCr s.remaining := by
  obtain ⟨octets, hs, ht, -⟩ := h
  rw [remaining_of_signals hs, remaining_of_signals ht]

/-- **How lines end does not matter.**  Data that end some lines with LF alone
are read like the same data with CR and LF throughout: the same fields, the
same head or the same error, and what is left differs in the CRs only. -/
theorem reading_withCr [Hasher] (s t : Source) (hs : Event.failed ∉ s) (ht : Event.failed ∉ t)
    (hdata : t.remaining = withCr s.remaining) (hsize : t.remaining.length < UInt64.size - 1) :
    ((s.readFields Limits.unlimited).1 = (t.readFields Limits.unlimited).1 ∧
        (t.readFields Limits.unlimited).2.remaining =
          withCr (s.readFields Limits.unlimited).2.remaining) ∧
      ((s.readRequest Limits.unlimited).1 = (t.readRequest Limits.unlimited).1 ∧
        (t.readRequest Limits.unlimited).2.remaining =
          withCr (s.readRequest Limits.unlimited).2.remaining) ∧
      (s.readResponse Limits.unlimited).1 = (t.readResponse Limits.unlimited).1 ∧
        (t.readResponse Limits.unlimited).2.remaining =
          withCr (s.readResponse Limits.unlimited).2.remaining := by
  have hst : WithCr s t :=
    ⟨s.remaining, signals_of_intact hs, by rw [signals_of_intact ht, hdata], by rwa [← hdata]⟩
  obtain ⟨hfields, hafter⟩ := keptByLines_withCr.readFields hst
  obtain ⟨hrequest, hbehind⟩ := keptByLines_withCr.readRequest hst
  obtain ⟨hresponse, hbelow⟩ := keptByLines_withCr.readResponse hst
  exact ⟨⟨hfields, hafter.remaining⟩, ⟨hrequest, hbehind.remaining⟩, hresponse, hbelow.remaining⟩

/-- A head whose lines end in three ways, with a second CR at the end of a
value, and a line of the body behind it. -/
theorem reading_withCr_mixed_ends :
    let s : Source := [.data [71, 32, 47, 32, 72, 84, 84, 80, 47, 49, 10, 65], .interrupted,
      .data [58, 49, 13, 13, 10, 66, 58, 50, 13, 10, 10, 88, 10]]
    let t : Source := [.data [71, 32, 47, 32, 72, 84, 84, 80, 47, 49, 13, 10, 65, 58, 49, 13],
      .data [13, 10, 66, 58, 50, 13, 10, 13, 10, 88, 13, 10]]
    (Event.failed ∉ s ∧ Event.failed ∉ t ∧ t.remaining = withCr s.remaining ∧
        t.remaining.length < UInt64.size - 1) ∧
      (s.readRequest Limits.unlimited).1 = (t.readRequest Limits.unlimited).1 ∧
        (s.readRequest Limits.unlimited).2.remaining = [88, 10] ∧
        (t.readRequest Limits.unlimited).2.remaining = [88, 13, 10] := by
  intro s t
  have hs : Event.failed ∉ s := by decide
  have ht : Event.failed ∉ t := by decide
  have hdata : t.remaining = withCr s.remaining := by decide
  have hsize : t.remaining.length < UInt64.size - 1 := by decide
  obtain ⟨-, ⟨hrequest, hrest⟩, -⟩ := reading_withCr s t hs ht hdata hsize
  have hleft : (s.readRequest Limits.unlimited).2.remaining = [88, 10] := by decide +kernel
  rw [hleft] at hrest
  exact ⟨⟨hs, ht, hdata, hsize⟩, hrequest, hleft, hrest⟩

end Source
end HttpWire
