import HttpWire.Head.Request
import HttpWire.Head.Response

/-!
# Reading two sources side by side

Blocks and heads are read line by line, and from a line only what was found
counts.  So if two sources stand in a relation, and reading a line finds the
same in both and leaves sources that stand in the relation again, then both
are read alike: the same fields, the same head or the same error, and what is
left stands in the relation.
-/

namespace HttpWire.Source

variable {R : Source → Source → Prop} {s t : Source}

/-- A relation between sources is kept by reading a line, and the same is found
in both. -/
def KeptByLines (size : UInt64) (R : Source → Source → Prop) : Prop :=
  ∀ s t, R s t → (s.readLine size).1 = (t.readLine size).1 ∧
    R (s.readLine size).2 (t.readLine size).2

namespace KeptByLines

/-- One line read in two sources. -/
theorem readLine {size : UInt64} (h : KeptByLines size R) (hst : R s t) {line : Line}
    {rest : Source} (hread : s.readLine size = (line, rest)) :
    ∃ rest', t.readLine size = (line, rest') ∧ R rest rest' := by
  obtain ⟨hline, hrest⟩ := h s t hst
  rw [hread] at hline hrest
  exact ⟨(t.readLine size).2, Prod.ext hline.symm rfl, hrest⟩

variable [Hasher] {limits : Limits} (h : KeptByLines limits.lineSize R)
include h

/-- **Blocks of fields are read alike.**  The induction is on the run over `s`;
every line of it is a line of `t` too. -/
theorem readFieldsAfter (hst : R s t) (fields : Fields) :
    (s.readFieldsAfter limits fields).1 = (t.readFieldsAfter limits fields).1 ∧
      R (s.readFieldsAfter limits fields).2 (t.readFieldsAfter limits fields).2 := by
  fun_induction Source.readFieldsAfter limits fields s generalizing t with
  | case1 fields s rest hread =>
      obtain ⟨rest', hread', hrest⟩ := h.readLine hst hread
      rw [readFieldsAfter_eq limits fields t, hread']
      exact ⟨rfl, hrest⟩
  | case2 fields s rest hread =>
      obtain ⟨rest', hread', hrest⟩ := h.readLine hst hread
      rw [readFieldsAfter_eq limits fields t, hread']
      exact ⟨rfl, hrest⟩
  | case3 fields s line rest hread hkind =>
      obtain ⟨rest', hread', hrest⟩ := h.readLine hst hread
      rw [readFieldsAfter_eq limits fields t, hread']
      simp only [hkind]
      exact ⟨trivial, hrest⟩
  | case4 fields s line rest hread hkind ih =>
      obtain ⟨rest', hread', hrest⟩ := h.readLine hst hread
      rw [readFieldsAfter_eq limits fields t, hread']
      simp only [hkind]
      exact ih hrest
  | case5 fields s line rest hread name value hkind hfull =>
      obtain ⟨rest', hread', hrest⟩ := h.readLine hst hread
      rw [readFieldsAfter_eq limits fields t, hread']
      simp only [hkind, if_pos hfull]
      exact ⟨trivial, hrest⟩
  | case6 fields s line rest hread name value hkind hfull ih =>
      obtain ⟨rest', hread', hrest⟩ := h.readLine hst hread
      rw [readFieldsAfter_eq limits fields t, hread']
      simp only [hkind, if_neg hfull]
      exact ih hrest

/-- Blocks of fields are read alike from their beginning. -/
theorem readFields (hst : R s t) :
    (s.readFields limits).1 = (t.readFields limits).1 ∧
      R (s.readFields limits).2 (t.readFields limits).2 :=
  h.readFieldsAfter hst FieldMap.empty

/-- **Heads are read alike**, whatever their start line is. -/
theorem readHead {α : Type} (parse : Text → Except HeadError α) (hst : R s t) :
    (s.readHead parse limits).1 = (t.readHead parse limits).1 ∧
      R (s.readHead parse limits).2 (t.readHead parse limits).2 := by
  cases hread : s.readLine limits.lineSize with
  | mk line rest =>
      obtain ⟨rest', hread', hrest⟩ := h.readLine hst hread
      unfold Source.readHead
      rw [hread, hread']
      cases line with
      | ended => exact ⟨rfl, hrest⟩
      | tooLong => exact ⟨rfl, hrest⟩
      | text line =>
          cases hstart : parse line with
          | error e =>
              simp only [hstart]
              exact ⟨trivial, hrest⟩
          | ok start =>
              obtain ⟨hfields, hleft⟩ := h.readFields hrest
              simp only [hstart]
              exact ⟨by rw [hfields], hleft⟩

/-- Requests are read alike. -/
theorem readRequest (hst : R s t) :
    (s.readRequest limits).1 = (t.readRequest limits).1 ∧
      R (s.readRequest limits).2 (t.readRequest limits).2 := by
  obtain ⟨hhead, hrest⟩ := h.readHead RequestLine.parse hst
  refine ⟨?_, hrest⟩
  simp only [Source.readRequest, hhead]

/-- Responses are read alike. -/
theorem readResponse (hst : R s t) :
    (s.readResponse limits).1 = (t.readResponse limits).1 ∧
      R (s.readResponse limits).2 (t.readResponse limits).2 := by
  obtain ⟨hhead, hrest⟩ := h.readHead StatusLine.parse hst
  refine ⟨?_, hrest⟩
  simp only [Source.readResponse, hhead]

end KeptByLines
end HttpWire.Source
