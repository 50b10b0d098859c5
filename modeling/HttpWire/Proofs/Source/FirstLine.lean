import HttpWire.Proofs.Source.Reading

/-!
# The first line of a source

The first line is described here without a reader: it is the octets through
the first LF, or all octets up to a failure or to the end of the data.  Of a
line that a failure breaks off, and of a line without octets, nothing can be
read; such a source *lacks* a line.

Whatever the chunks, the reader says of the first line what the description
says: that it is too long (`readLine_of_long`), that there is none
(`readLine_of_lacking`), or what its text is (`readLine_of_whole`).
-/

namespace HttpWire

namespace Signal

variable {body : Octets} {tail : List Signal}

/-- The octets of the first line, with its LF if it has one. -/
def firstLine : List Signal → Octets
  | [] => []
  | .failure :: _ => []
  | .octet b :: rest => if b = Line.lf then [b] else b :: firstLine rest

/-- Whether a failure breaks the first line off. -/
def breaksOff : List Signal → Bool
  | [] => false
  | .failure :: _ => true
  | .octet b :: rest => if b = Line.lf then false else breaksOff rest

/-- Octets without LF belong to the first line. -/
theorem firstLine_append (hbody : Line.lf ∉ body) :
    firstLine (body.map .octet ++ tail) = body ++ firstLine tail := by
  induction body with
  | nil => rfl
  | cons b body ih =>
      have hb : b ≠ Line.lf := fun h => hbody (h ▸ List.mem_cons_self)
      have hrest := ih (fun h => hbody (List.mem_cons_of_mem _ h))
      simp [firstLine, hb, hrest]

/-- The first line ends with the first LF. -/
theorem firstLine_append_lf (hbody : Line.lf ∉ body) :
    firstLine (body.map .octet ++ .octet Line.lf :: tail) = body ++ [Line.lf] := by
  rw [firstLine_append hbody]
  simp [firstLine]

theorem firstLine_of_octets (hbody : Line.lf ∉ body) : firstLine (body.map .octet) = body := by
  have hline : firstLine (body.map .octet ++ []) = body ++ [] := firstLine_append hbody
  rwa [List.append_nil, List.append_nil] at hline

/-- Octets without LF in front make no difference to whether the line is broken
off. -/
theorem breaksOff_append (hbody : Line.lf ∉ body) :
    breaksOff (body.map .octet ++ tail) = breaksOff tail := by
  induction body with
  | nil => rfl
  | cons b body ih =>
      have hb : b ≠ Line.lf := fun h => hbody (h ▸ List.mem_cons_self)
      have hrest := ih (fun h => hbody (List.mem_cons_of_mem _ h))
      simp [breaksOff, hb, hrest]

/-- **How a line ends**: with its LF, with the end of the data, or with a
failure. -/
theorem exists_end (signals : List Signal) :
    ∃ (body : Octets) (tail : List Signal), Line.lf ∉ body ∧ signals = body.map .octet ++ tail ∧
      (tail = [] ∨ (∃ rest, tail = .failure :: rest) ∨
        ∃ rest, tail = .octet Line.lf :: rest) := by
  induction signals with
  | nil => exact ⟨[], [], by simp, rfl, Or.inl rfl⟩
  | cons signal rest ih =>
      cases signal with
      | failure => exact ⟨[], _, by simp, rfl, Or.inr (Or.inl ⟨rest, rfl⟩)⟩
      | octet b =>
          by_cases hb : b = Line.lf
          · subst hb
            exact ⟨[], _, by simp, rfl, Or.inr (Or.inr ⟨rest, rfl⟩)⟩
          · obtain ⟨body, tail, hbody, rfl, htail⟩ := ih
            have hlonger := List.not_mem_cons_of_ne_of_not_mem (Ne.symm hb) hbody
            exact ⟨b :: body, tail, hlonger, rfl, htail⟩

/-- A line of more than `n` octets has `n` octets without LF and one more. -/
theorem exists_excess {signals : List Signal} {n : Nat} (h : n < (firstLine signals).length) :
    ∃ (body : Octets) (b : UInt8) (tail : List Signal), Line.lf ∉ body ∧ body.length = n ∧
      signals = body.map .octet ++ .octet b :: tail := by
  induction signals generalizing n with
  | nil => exact absurd h (Nat.not_lt_zero n)
  | cons signal rest ih =>
      cases signal with
      | failure => exact absurd h (Nat.not_lt_zero n)
      | octet b =>
          cases n with
          | zero => exact ⟨[], b, rest, by simp, rfl, rfl⟩
          | succ n =>
              by_cases hb : b = Line.lf
              · simp [firstLine, hb] at h
              · simp only [firstLine, if_neg hb, List.length_cons, Nat.add_lt_add_iff_right] at h
                obtain ⟨body, c, tail, hbody, rfl, rfl⟩ := ih h
                have hlonger := List.not_mem_cons_of_ne_of_not_mem (Ne.symm hb) hbody
                exact ⟨b :: body, c, tail, hlonger, rfl, rfl⟩

end Signal

namespace Source

/-- The octets of the first line that a source holds. -/
def firstLine (s : Source) : Octets :=
  Signal.firstLine s.signals

/-- A source lacks a line if it ends at once, or fails before the line ends. -/
def LacksLine (s : Source) : Prop :=
  s.firstLine = [] ∨ Signal.breaksOff s.signals = true

instance (s : Source) : Decidable s.LacksLine :=
  inferInstanceAs (Decidable (_ ∨ _))

variable {s : Source} {size : UInt64}

/-- **A first line within the bound is read.** -/
theorem readLine_of_whole (hwhole : ¬ s.LacksLine) (hfits : s.firstLine.length ≤ size.toNat) :
    ∃ rest, s.readLine size = (.text (Line.textOf s.firstLine), rest) := by
  obtain ⟨hne, hunbroken⟩ := not_or.mp hwhole
  obtain ⟨body, tail, hbody, hsignals, hend⟩ := Signal.exists_end s.signals
  have hline : s.firstLine = body ++ Signal.firstLine tail := by
    rw [firstLine, hsignals, Signal.firstLine_append hbody]
  rw [hsignals, Signal.breaksOff_append hbody] at hunbroken
  rcases hend with rfl | ⟨rest, rfl⟩ | ⟨rest, rfl⟩
  · have hbare : s.firstLine = body := by rw [hline, Signal.firstLine, List.append_nil]
    rw [hbare] at hfits hne ⊢
    rw [List.append_nil] at hsignals
    obtain ⟨rest, hread, -⟩ := readLine_of_unended hbody hfits hne hsignals
    exact ⟨rest, hread⟩
  · exact absurd rfl hunbroken
  · have hended : s.firstLine = body ++ [Line.lf] := by rw [hline]; rfl
    rw [hended, List.length_append, List.length_singleton] at hfits
    obtain ⟨rest, hread, -⟩ := readLine_of_lf hbody hfits hsignals
    exact ⟨rest, by rw [hread, hended]⟩

/-- **A first line past the bound is too long**, be it broken off or not. -/
theorem readLine_of_long (hlong : size.toNat < s.firstLine.length)
    (hmax : size.toNat < UInt64.size - 1) : ∃ rest, s.readLine size = (.tooLong, rest) := by
  obtain ⟨body, b, tail, hbody, hsize, hsignals⟩ := Signal.exists_excess hlong
  obtain ⟨rest, hread, -⟩ := readLine_of_excess hbody hsize hmax hsignals
  exact ⟨rest, hread⟩

/-- **Where a line is lacking none is read.** -/
theorem readLine_of_lacking (hlacks : s.LacksLine) (hfits : s.firstLine.length ≤ size.toNat)
    (hmax : s.firstLine.length < UInt64.size - 1) : ∃ rest, s.readLine size = (.ended, rest) := by
  obtain ⟨body, tail, hbody, hsignals, hend⟩ := Signal.exists_end s.signals
  have hline : s.firstLine = body ++ Signal.firstLine tail := by
    rw [firstLine, hsignals, Signal.firstLine_append hbody]
  rw [LacksLine, hline, hsignals, Signal.breaksOff_append hbody] at hlacks
  rw [hline] at hfits hmax
  rcases hend with rfl | ⟨rest, rfl⟩ | ⟨rest, rfl⟩
  · have hempty : body = [] := by simpa [Signal.firstLine, Signal.breaksOff] using hlacks
    subst hempty
    obtain ⟨rest, hread, -⟩ := readLine_of_nil size hsignals
    exact ⟨rest, hread⟩
  · simp only [Signal.firstLine, List.append_nil] at hfits hmax
    obtain ⟨rest', hread, -⟩ := readLine_of_failure hbody hfits hmax hsignals
    exact ⟨rest', hread⟩
  · simp [Signal.firstLine, Signal.breaksOff] at hlacks

end Source
end HttpWire
