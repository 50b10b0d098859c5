import HttpWire.Proofs.Source.FirstLine

/-!
# All that reading a line can do

`ReadsLine` lists every way in which a line can be read off a row of signals,
each with what is found, what is used up and what is left.  Whatever the
source and the bound, reading is one of them (`Source.readsLine`), so a
statement about a single line is proved by cases on `ReadsLine` and nothing
else.

One way is there for completeness only.  Under the greatest bound of all,
2^64-1 octets count as a line even if nothing ends them, for no octet more is
asked for.  A line that is `Line.Measured` is not read in this way.
-/

namespace HttpWire

/-- The octets of a line can be measured against its bound: they are fewer
than the greatest bound, or the bound is smaller than that. -/
def Line.Measured (size : UInt64) (octets : Octets) : Prop :=
  size.toNat < UInt64.size - 1 ∨ octets.length < UInt64.size - 1

instance (size : UInt64) (octets : Octets) : Decidable (Line.Measured size octets) :=
  inferInstanceAs (Decidable (_ ∨ _))

/-- What is found when a line is read, and which signals are left. -/
inductive ReadsLine (size : UInt64) : List Signal → Line → List Signal → Prop
  /-- A line is read through its LF. -/
  | whole {body : Octets} {tail : List Signal} (hbody : Line.lf ∉ body)
      (hsize : body.length < size.toNat) :
      ReadsLine size (body.map .octet ++ .octet Line.lf :: tail)
        (.text (Line.textOf (body ++ [Line.lf]))) tail
  /-- A last line without LF is read to the end of the data. -/
  | last {body : Octets} (hbody : Line.lf ∉ body) (hne : body ≠ [])
      (hsize : body.length ≤ size.toNat) :
      ReadsLine size (body.map .octet) (.text (Line.textOf body)) []
  /-- As many octets as the greatest bound admits are read and no more. -/
  | full {body : Octets} {tail : List Signal} (hbody : Line.lf ∉ body)
      (hlength : body.length = UInt64.size - 1) (hsize : size.toNat = UInt64.size - 1) :
      ReadsLine size (body.map .octet ++ tail) (.text (Line.textOf body)) tail
  /-- Of a line past the bound one octet more than the bound is taken. -/
  | long {body : Octets} {b : UInt8} {tail : List Signal} (hbody : Line.lf ∉ body)
      (hlength : body.length = size.toNat) (hsize : size.toNat < UInt64.size - 1) :
      ReadsLine size (body.map .octet ++ .octet b :: tail) .tooLong tail
  /-- A failure ends the line before its end and is used up. -/
  | broken {body : Octets} {tail : List Signal} (hbody : Line.lf ∉ body)
      (hsize : body.length ≤ size.toNat) :
      ReadsLine size (body.map .octet ++ .failure :: tail) .ended tail
  /-- At the end of the data there is no line. -/
  | none : ReadsLine size [] .ended []

namespace ReadsLine

variable {size : UInt64} {signals tail : List Signal} {t : Text}

/-- **A line whose text is read is used up, and nothing behind it.**  It ends
with its LF or with the data. -/
theorem firstLine_of_text (h : ReadsLine size signals (.text t) tail)
    (hmeasured : Line.Measured size (Signal.firstLine signals)) :
    signals = (Signal.firstLine signals).map .octet ++ tail ∧
      t = Line.textOf (Signal.firstLine signals) ∧
      ((Signal.firstLine signals).getLast? = some Line.lf ∨ tail = []) := by
  cases h with
  | whole hbody hsize => simp [Signal.firstLine_append_lf hbody]
  | last hbody hne hsize => simp [Signal.firstLine_of_octets hbody]
  | full hbody hlength hsize =>
      rw [Signal.firstLine_append hbody, Line.Measured, List.length_append] at hmeasured
      omega

/-- **Whatever its size, no more than 2^64-1 octets of a line are used up.** -/
theorem firstLine_take_of_text (h : ReadsLine size signals (.text t) tail) :
    signals = ((Signal.firstLine signals).take (UInt64.size - 1)).map .octet ++ tail := by
  have hgreatest : size.toNat ≤ UInt64.size - 1 := Nat.le_sub_one_of_lt size.toNat_lt
  cases h with
  | @whole body tail hbody hsize =>
      have hfits : (body ++ [Line.lf]).length ≤ UInt64.size - 1 := by
        rw [List.length_append, List.length_singleton]
        omega
      rw [Signal.firstLine_append_lf hbody, List.take_of_length_le hfits]
      simp
  | last hbody hne hsize =>
      rw [Signal.firstLine_of_octets hbody, List.take_of_length_le (by omega), List.append_nil]
  | full hbody hlength hsize =>
      rw [Signal.firstLine_append hbody, List.take_left' hlength]

/-- Of a line that is too long one octet more than the bound is taken. -/
theorem excess_of_tooLong (h : ReadsLine size signals .tooLong tail) :
    ∃ octets : Octets, octets.length = size.toNat + 1 ∧ signals = octets.map .octet ++ tail := by
  cases h with
  | @long body b tail hbody hlength hsize =>
      exact ⟨body ++ [b], by rw [List.length_append, hlength, List.length_singleton], by simp⟩

/-- Where no line is found, there is nothing, or a failure comes before its end. -/
theorem nothing_or_failure_of_ended (h : ReadsLine size signals .ended tail) :
    signals = [] ∧ tail = [] ∨
      ∃ octets : Octets, signals = octets.map .octet ++ .failure :: tail := by
  cases h with
  | @broken body tail hbody hsize => exact Or.inr ⟨body, rfl⟩
  | none => exact Or.inl ⟨rfl, rfl⟩

end ReadsLine

namespace Source

variable {size : UInt64} {s : Source} {body : Octets} {tail : List Signal}

/-- **Under the greatest bound 2^64-1 octets are a line**, whatever follows. -/
theorem readLine_of_full (hbody : Line.lf ∉ body) (hlength : body.length = UInt64.size - 1)
    (hsize : size.toNat = UInt64.size - 1) (h : s.signals = body.map .octet ++ tail) :
    ∃ rest, s.readLine size = (.text (Line.textOf body), rest) ∧ rest.signals = tail := by
  have hreach : Line.reach size = body.length := by
    unfold Line.reach
    omega
  have htake := Signal.takeThrough_append (not_lf hbody) (Nat.le_refl body.length) tail
  rw [Nat.sub_self, ← h, ← hreach, Signal.takeThrough, List.append_nil] at htake
  obtain ⟨rest, hread, hrest⟩ := readLine_eq_of_signals htake
  refine ⟨rest, ?_, hrest⟩
  have hne : body ≠ [] := by
    intro hempty
    rw [hempty, List.length_nil] at hlength
    exact absurd hlength (by decide)
  have hfits : ¬ size.toNat < body.length := by omega
  rw [hread]
  simp [Line.ofTaken, hne, hfits]

/-- What is found and left by one reading of a line. -/
theorem readsLine_of_eq {line : Line} {signals : List Signal} (hsignals : s.signals = signals)
    (hread : ∃ rest, s.readLine size = (line, rest) ∧ rest.signals = tail)
    (h : ReadsLine size signals line tail) :
    ReadsLine size s.signals (s.readLine size).1 (s.readLine size).2.signals := by
  obtain ⟨rest, heq, hrest⟩ := hread
  rw [heq, hsignals, hrest]
  exact h

/-- **Every reading of a line is one of those listed.**  Below the greatest
bound a line past the bound shows by its length; under the greatest bound the
first octets decide. -/
theorem readsLine (size : UInt64) (s : Source) :
    ReadsLine size s.signals (s.readLine size).1 (s.readLine size).2.signals := by
  have hgreatest : size.toNat ≤ UInt64.size - 1 := Nat.le_sub_one_of_lt size.toNat_lt
  by_cases hlong : size.toNat < UInt64.size - 1 ∧ size.toNat < s.firstLine.length
  · obtain ⟨hsize, hlong⟩ := hlong
    obtain ⟨body, b, tail, hbody, hlength, hsignals⟩ := Signal.exists_excess hlong
    exact readsLine_of_eq hsignals (readLine_of_excess hbody hlength hsize hsignals)
      (.long hbody hlength hsize)
  obtain ⟨body, tail, hbody, hsignals, hend⟩ := Signal.exists_end s.signals
  by_cases hfull : UInt64.size - 1 ≤ body.length
  · have hline : s.firstLine = body ++ Signal.firstLine tail := by
      rw [firstLine, hsignals, Signal.firstLine_append hbody]
    have hsize : size.toNat = UInt64.size - 1 := by
      rw [hline, List.length_append] at hlong
      omega
    have htaken : Line.lf ∉ body.take (UInt64.size - 1) :=
      fun hmem => hbody (List.mem_of_mem_take hmem)
    have hlength : (body.take (UInt64.size - 1)).length = UInt64.size - 1 :=
      List.length_take_of_le hfull
    have hcut : s.signals = (body.take (UInt64.size - 1)).map .octet ++
        ((body.drop (UInt64.size - 1)).map .octet ++ tail) := by
      rw [← List.append_assoc, ← List.map_append, List.take_append_drop, hsignals]
    exact readsLine_of_eq hcut (readLine_of_full htaken hlength hsize hcut)
      (.full htaken hlength hsize)
  · have hfits : body.length + (Signal.firstLine tail).length ≤ size.toNat ∨
        size.toNat = UInt64.size - 1 := by
      have hline : s.firstLine = body ++ Signal.firstLine tail := by
        rw [firstLine, hsignals, Signal.firstLine_append hbody]
      rw [hline, List.length_append] at hlong
      omega
    rcases hend with rfl | ⟨rest, rfl⟩ | ⟨rest, rfl⟩
    · by_cases hempty : body = []
      · subst hempty
        exact readsLine_of_eq hsignals (readLine_of_nil size hsignals) .none
      · rw [List.append_nil] at hsignals
        have hsize : body.length ≤ size.toNat := by omega
        exact readsLine_of_eq hsignals (readLine_of_unended hbody hsize hempty hsignals)
          (.last hbody hempty hsize)
    · have hsize : body.length ≤ size.toNat := by omega
      exact readsLine_of_eq hsignals
        (readLine_of_failure hbody hsize (Nat.lt_of_not_le hfull) hsignals) (.broken hbody hsize)
    · have hsize : body.length < size.toNat := by
        simp only [Signal.firstLine, if_pos, List.length_singleton] at hfits
        omega
      exact readsLine_of_eq hsignals (readLine_of_lf hbody hsize hsignals) (.whole hbody hsize)

end Source
end HttpWire
