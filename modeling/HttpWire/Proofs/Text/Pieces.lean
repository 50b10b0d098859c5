import HttpWire.Text.Basic

/-!
# Pieces between marks

A text that is split at a mark falls into pieces.  Each of them stands between
two marks, if the text is thought to have one at either end, and holds no mark
itself (`IsPiece`); and every part of the text that stands so is one of them
(`mem_splitOn_iff`).  So of two texts with a mark between them the pieces are
those of both (`isPiece_append_mark_iff`).
-/

namespace HttpWire.Text

variable {mark : Char} {piece t first later : Text}

/-- A text without a mark that stands between two marks of another, where a mark
is put at either end of that. -/
def IsPiece (mark : Char) (piece t : Text) : Prop :=
  mark ∉ piece ∧
    ∃ before after, mark :: (t ++ [mark]) = before ++ mark :: (piece ++ mark :: after)

/-- A mark that follows a text without marks is the first one: any other comes
later. -/
theorem exists_between {before rest rest' : Text} (h : mark ∉ first)
    (heq : first ++ mark :: rest = before ++ mark :: rest') :
    ∃ between, before = first ++ between ∧ mark :: rest = between ++ mark :: rest' := by
  rcases List.append_eq_append_iff.mp heq with ⟨between, hbefore, hrest⟩ | ⟨c, hfirst, hrest⟩
  · exact ⟨between, hbefore, hrest⟩
  · cases c with
    | nil => exact ⟨[], by simpa using hfirst.symm, by simpa using hrest.symm⟩
    | cons d c =>
        obtain ⟨rfl, -⟩ := List.cons.inj hrest
        exact absurd (hfirst ▸ List.mem_append_right before List.mem_cons_self) h

/-- Two texts cut at their first mark have the same first part. -/
theorem eq_of_append_mark {rest rest' : Text} (h : mark ∉ first) (hpiece : mark ∉ piece)
    (heq : first ++ mark :: rest = piece ++ mark :: rest') : piece = first := by
  obtain ⟨between, rfl, hrest⟩ := exists_between h heq
  cases between with
  | nil => exact List.append_nil first
  | cons d between =>
      obtain ⟨rfl, -⟩ := List.cons.inj hrest
      exact absurd (List.mem_append_right first List.mem_cons_self) hpiece

/-! ## One mark after the other -/

/-- A text without marks is its only piece. -/
theorem isPiece_of_not_mem (h : mark ∉ t) : IsPiece mark piece t ↔ piece = t := by
  constructor
  · rintro ⟨hpiece, before, after, heq⟩
    cases before with
    | nil => exact eq_of_append_mark h hpiece (List.cons.inj heq).2
    | cons b before =>
        obtain ⟨between, -, hend⟩ := exists_between h (List.cons.inj heq).2
        have hlength := congrArg List.length hend
        simp only [List.length_append, List.length_cons, List.length_nil] at hlength
        omega
  · rintro rfl
    exact ⟨h, [], [], rfl⟩

/-- What stands before the first mark is a piece, and the others are those of
what stands behind it. -/
theorem isPiece_first_iff (h : mark ∉ first) :
    IsPiece mark piece (first ++ mark :: later) ↔ piece = first ∨ IsPiece mark piece later := by
  have hwhole : mark :: ((first ++ mark :: later) ++ [mark]) =
      mark :: (first ++ mark :: (later ++ [mark])) := by simp
  constructor
  · rintro ⟨hpiece, before, after, heq⟩
    rw [hwhole] at heq
    cases before with
    | nil => exact Or.inl (eq_of_append_mark h hpiece (List.cons.inj heq).2)
    | cons b before =>
        obtain ⟨between, -, hlater⟩ := exists_between h (List.cons.inj heq).2
        exact Or.inr ⟨hpiece, between, after, hlater⟩
  · rintro (rfl | ⟨hpiece, before, after, heq⟩)
    · exact ⟨h, [], later ++ [mark], hwhole⟩
    · refine ⟨hpiece, mark :: (first ++ before), after, ?_⟩
      rw [hwhole, heq]
      simp

/-- **Splitting gives the pieces.**  The induction is on the length of the text,
which is cut at its first mark if it has any. -/
theorem mem_splitOn_iff : piece ∈ t.splitOn mark ↔ IsPiece mark piece t := by
  induction hlength : t.length using Nat.strongRecOn generalizing t with
  | ind n ih =>
      by_cases hmark : mark ∈ t
      · obtain ⟨first, later, rfl, hfirst⟩ := List.eq_append_cons_of_mem hmark
        rw [List.length_append, List.length_cons] at hlength
        rw [List.splitOn_append_cons_self, List.splitOn_eq_singleton hfirst, List.mem_append,
          List.mem_singleton, ih later.length (by omega) rfl, isPiece_first_iff hfirst]
      · rw [List.splitOn_eq_singleton hmark, List.mem_singleton, isPiece_of_not_mem hmark]

/-- **The pieces of two texts with a mark between them** are those of both. -/
theorem isPiece_append_mark_iff (a b : Text) :
    IsPiece mark piece (a ++ mark :: b) ↔ IsPiece mark piece a ∨ IsPiece mark piece b := by
  rw [← mem_splitOn_iff, List.splitOn_append_cons_self, List.mem_append, mem_splitOn_iff,
    mem_splitOn_iff]

end HttpWire.Text
