import HttpWire.Text.Basic

/-!
# Blank characters

The characters of the Unicode property `White_Space`, and the trimming of a
text at both ends.  The table has 25 characters in 10 ranges.

A trimmed text is what stands between the blanks at the two ends
(`trim_eq_iff`), so nothing later unfolds `trim`.
-/

namespace HttpWire.Text

/-- The ranges of `White_Space`, first and last code point. -/
def blankRanges : List (Nat × Nat) :=
  [(0x09, 0x0D), (0x20, 0x20), (0x85, 0x85), (0xA0, 0xA0), (0x1680, 0x1680),
   (0x2000, 0x200A), (0x2028, 0x2029), (0x202F, 0x202F), (0x205F, 0x205F),
   (0x3000, 0x3000)]

/-- Whether a character has the property `White_Space`. -/
def isBlank (c : Char) : Bool :=
  blankRanges.any fun r => r.1 ≤ c.toNat && c.toNat ≤ r.2

/-- A text without the blanks at its two ends. -/
def trim (t : Text) : Text :=
  ((t.dropWhile isBlank).reverse.dropWhile isBlank).reverse

/-- A text neither begins nor ends with a blank. -/
def IsTrimmed (t : Text) : Prop :=
  (∀ c, t.head? = some c → isBlank c = false) ∧ ∀ c, t.getLast? = some c → isBlank c = false

variable {t core left right : Text}

/-- Nothing is dropped of a text that begins with no blank. -/
theorem dropWhile_of_head? (h : ∀ c, t.head? = some c → isBlank c = false) :
    t.dropWhile isBlank = t := by
  cases t with
  | nil => rfl
  | cons c rest => simp [h c rfl]

/-- What is left begins with no blank. -/
theorem head?_dropWhile {c : Char} (h : (t.dropWhile isBlank).head? = some c) :
    isBlank c = false := by
  have hhead := List.head?_dropWhile_not isBlank t
  rw [h] at hhead
  exact hhead

/-- Blanks on both sides of a trimmed text are trimmed. -/
theorem trim_append (hleft : ∀ c ∈ left, isBlank c = true) (hright : ∀ c ∈ right, isBlank c = true)
    (hcore : IsTrimmed core) : trim (left ++ core ++ right) = core := by
  have hfront : (left ++ core ++ right).dropWhile isBlank = core ++ right ∨ core = [] := by
    rw [List.append_assoc, List.dropWhile_append_of_pos hleft]
    cases core with
    | nil => exact Or.inr rfl
    | cons c rest => exact Or.inl (dropWhile_of_head? fun d hd => hcore.1 d hd)
  rcases hfront with hfront | rfl
  · have hback : ∀ c ∈ right.reverse, isBlank c = true := fun c hc =>
      hright c (List.mem_reverse.mp hc)
    have hlast : core.reverse.dropWhile isBlank = core.reverse := by
      apply dropWhile_of_head?
      intro c hc
      exact hcore.2 c (by rwa [List.head?_reverse] at hc)
    rw [trim, hfront, List.reverse_append, List.dropWhile_append_of_pos hback, hlast,
      List.reverse_reverse]
  · have hall : ∀ c ∈ left ++ right, isBlank c = true :=
      List.forall_mem_append.mpr ⟨hleft, hright⟩
    have hnone : (left ++ right ++ []).dropWhile isBlank = [] :=
      List.dropWhile_append_of_pos hall
    rw [List.append_nil] at hnone
    rw [trim, List.append_nil, hnone]
    rfl

/-- **A trimmed text stands between blanks, and has none at its ends.** -/
theorem trim_eq_iff : trim t = core ↔ IsTrimmed core ∧
    ∃ left right, t = left ++ core ++ right ∧ (∀ c ∈ left, isBlank c = true) ∧
      ∀ c ∈ right, isBlank c = true := by
  constructor
  · rintro rfl
    have hfront : t = t.takeWhile isBlank ++ t.dropWhile isBlank :=
      List.takeWhile_append_dropWhile.symm
    have hback : t.dropWhile isBlank =
        trim t ++ ((t.dropWhile isBlank).reverse.takeWhile isBlank).reverse := by
      rw [trim, ← List.reverse_append, List.takeWhile_append_dropWhile, List.reverse_reverse]
    refine ⟨⟨?_, ?_⟩, t.takeWhile isBlank,
      ((t.dropWhile isBlank).reverse.takeWhile isBlank).reverse, ?_, ?_, ?_⟩
    · intro c hc
      apply head?_dropWhile (t := t)
      rw [hback, List.head?_append, hc, Option.some_or]
    · intro c hc
      rw [trim, List.getLast?_reverse] at hc
      exact head?_dropWhile hc
    · rw [List.append_assoc, ← hback]
      exact hfront
    · intro c hc
      exact List.all_eq_true.mp List.all_takeWhile c hc
    · intro c hc
      exact List.all_eq_true.mp List.all_takeWhile c (List.mem_reverse.mp hc)
  · rintro ⟨hcore, left, right, rfl, hleft, hright⟩
    exact trim_append hleft hright hcore

end HttpWire.Text
