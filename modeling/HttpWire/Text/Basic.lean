/-!
# Text and octets

Everything that travels is a list of octets, everything that has been read is
a list of Unicode characters.  This file fixes the two carriers and the one
cut on which most of the grammar rests: the text before and after the first
occurrence of a mark.

The two facts `cutAt_eq_some_iff` and `cutAt_eq_none_iff` say all there is to
know about a cut, so nothing later unfolds it.
-/

namespace HttpWire

/-- An octet string, as it arrives or leaves. -/
abbrev Octets := List UInt8

/-- Decoded text, one Unicode character per element. -/
abbrev Text := List Char

namespace Text

variable {mark : Char} {t before after : Text}

/-- The text before and the text after the first `mark`, or `none` if there is
no `mark`. -/
def cutAt (mark : Char) : Text → Option (Text × Text)
  | [] => none
  | c :: rest =>
    if c = mark then some ([], rest)
    else (cutAt mark rest).map fun parts => (c :: parts.1, parts.2)

/-- **A cut loses nothing and cuts at the first mark.** -/
theorem cutAt_eq_some_iff :
    cutAt mark t = some (before, after) ↔
      t = before ++ mark :: after ∧ mark ∉ before := by
  induction t generalizing before with
  | nil => simp [cutAt]
  | cons c rest ih =>
    by_cases hc : c = mark
    · subst hc
      cases before with
      | nil => simp [cutAt]
      | cons d tail => simp +contextual [cutAt]
    · cases before with
      | nil => simp [cutAt, hc]
      | cons d tail =>
        simp only [cutAt, hc, if_false, Option.map_eq_some_iff, Prod.mk.injEq,
          List.cons.injEq, Prod.exists, List.cons_append, List.mem_cons, not_or]
        constructor
        · rintro ⟨a, b, hcut, ⟨rfl, rfl⟩, rfl⟩
          obtain ⟨rfl, hmem⟩ := ih.mp hcut
          exact ⟨⟨rfl, rfl⟩, fun h => hc h.symm, hmem⟩
        · rintro ⟨⟨rfl, rfl⟩, _, hmem⟩
          exact ⟨tail, after, ih.mpr ⟨rfl, hmem⟩, ⟨rfl, rfl⟩, rfl⟩

/-- A cut fails exactly when the mark does not occur. -/
theorem cutAt_eq_none_iff : cutAt mark t = none ↔ mark ∉ t := by
  induction t with
  | nil => simp [cutAt]
  | cons c rest ih =>
    by_cases hc : c = mark
    · simp [cutAt, hc]
    · simp [cutAt, hc, ih, Ne.symm hc]

/-- A cut at the mark between two texts, the first of them without the mark. -/
theorem cutAt_append (h : mark ∉ before) :
    cutAt mark (before ++ mark :: after) = some (before, after) :=
  cutAt_eq_some_iff.mpr ⟨rfl, h⟩

end Text
end HttpWire
