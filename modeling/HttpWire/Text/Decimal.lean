import HttpWire.Text.Basic

/-!
# Numbers in decimal

A text writes a number if it is a row of decimal digits, after at most one
`+`.  Reading goes digit by digit, and gives up as soon as the number is no
longer below a limit, so a row of digits may be of any length.

It gives up only where it must (`number?_eq_some_iff`): digits never make a
number smaller, so once it has reached the limit it stays there.
-/

namespace HttpWire.Text

variable {limit n m : Nat} {d : Char} {t digits : Text}

/-- A number, if it is below a limit. -/
def below? (limit n : Nat) : Option Nat :=
  if n < limit then some n else none

/-- A number with one more digit behind it.  Neither the tenfold nor the sum
may reach the limit. -/
def appendDigit? (limit n : Nat) (d : Char) : Option Nat :=
  if d.isDigit then (below? limit (10 * n)).bind fun tens => below? limit (tens + (d.toNat - 48))
  else none

/-- A text without a `+` that it begins with. -/
def dropPlus : Text → Text
  | '+' :: rest => rest
  | t => t

/-- The number that a text writes, if it is below a limit. -/
def number? (limit : Nat) (t : Text) : Option Nat :=
  match dropPlus t with
  | [] => none
  | d :: later => (d :: later).foldlM (appendDigit? limit) 0

/-- The number that digits make of another one behind which they are put. -/
def decimalFrom (n : Nat) (digits : Text) : Nat :=
  digits.foldl (fun n d => 10 * n + (d.toNat - 48)) n

/-- The value of a text of decimal digits. -/
def decimal (digits : Text) : Nat :=
  decimalFrom 0 digits

theorem isDigit_iff : d.isDigit = true ↔ 48 ≤ d.toNat ∧ d.toNat ≤ 57 :=
  Char.isDigit_iff_toNat

/-- A number is kept exactly if it is below the limit. -/
theorem below?_eq_some_iff : below? limit n = some m ↔ n < limit ∧ n = m := by
  simp [below?]

/-- A digit is refused where the number with it reaches the limit. -/
theorem appendDigit?_eq_some_iff : appendDigit? limit n d = some m ↔
    d.isDigit = true ∧ 10 * n + (d.toNat - 48) = m ∧ m < limit := by
  unfold appendDigit?
  split
  · rename_i hdigit
    simp only [Option.bind_eq_some_iff, below?_eq_some_iff, hdigit, true_and]
    constructor
    · rintro ⟨tens, ⟨-, rfl⟩, hlt, rfl⟩
      exact ⟨rfl, hlt⟩
    · rintro ⟨rfl, hlt⟩
      exact ⟨10 * n, ⟨by omega, rfl⟩, hlt, rfl⟩
  · rename_i hdigit
    simp [hdigit]

/-- More digits make no smaller number. -/
theorem le_decimalFrom (n : Nat) (digits : Text) : n ≤ decimalFrom n digits := by
  induction digits generalizing n with
  | nil => exact Nat.le_refl n
  | cons d later ih =>
      have hlater := ih (10 * n + (d.toNat - 48))
      rw [decimalFrom, List.foldl_cons]
      rw [decimalFrom] at hlater
      omega

/-- **Reading digits behind a number** gives the number with all of them, if
that is below the limit.  The induction is on the digits: what is below the
limit at the end was so behind every digit. -/
theorem foldlM_appendDigit?_eq_some_iff (hne : digits ≠ []) :
    digits.foldlM (appendDigit? limit) n = some m ↔
      (∀ d ∈ digits, d.isDigit = true) ∧ decimalFrom n digits = m ∧ m < limit := by
  induction digits generalizing n with
  | nil => exact absurd rfl hne
  | cons d later ih =>
      simp only [List.foldlM_cons, Option.bind_eq_bind, Option.bind_eq_some_iff,
        appendDigit?_eq_some_iff, List.forall_mem_cons]
      by_cases hlast : later = []
      · subst hlast
        constructor
        · intro ⟨next, hnext, hrun⟩
          obtain rfl : next = m := Option.some.inj hrun
          exact ⟨⟨hnext.1, nofun⟩, hnext.2⟩
        · intro ⟨hdigits, hvalue⟩
          exact ⟨m, ⟨hdigits.1, hvalue⟩, rfl⟩
      · constructor
        · rintro ⟨next, ⟨hdigit, rfl, -⟩, hrun⟩
          obtain ⟨hdigits, hvalue⟩ := (ih hlast).mp hrun
          exact ⟨⟨hdigit, hdigits⟩, hvalue⟩
        · rintro ⟨⟨hdigit, hdigits⟩, hvalue, hlt⟩
          have hle : 10 * n + (d.toNat - 48) ≤ m := hvalue ▸ le_decimalFrom _ later
          exact ⟨_, ⟨hdigit, rfl, by omega⟩, (ih hlast).mpr ⟨hdigits, hvalue, hlt⟩⟩

/-- At most one `+` is taken away. -/
theorem eq_or_eq_plus_dropPlus (t : Text) : t = dropPlus t ∨ t = '+' :: dropPlus t := by
  unfold dropPlus
  split
  · exact Or.inr rfl
  · exact Or.inl rfl

/-- Digits are left when their sign is taken away. -/
theorem dropPlus_of_digits (hne : digits ≠ []) (hdigits : ∀ d ∈ digits, d.isDigit = true)
    (ht : t = digits ∨ t = '+' :: digits) : dropPlus t = digits := by
  rcases ht with rfl | rfl
  · unfold dropPlus
    split
    · exact absurd (hdigits '+' List.mem_cons_self) (by decide)
    · rfl
  · rfl

/-- A number is written by the digits that stand behind its sign, and is below the
limit. -/
theorem number?_iff_of_dropPlus (ht : dropPlus t = digits) : number? limit t = some n ↔
    digits ≠ [] ∧ (∀ d ∈ digits, d.isDigit = true) ∧ decimal digits = n ∧ n < limit := by
  unfold number?
  rw [ht]
  cases digits with
  | nil => simp
  | cons d later =>
      have hne : d :: later ≠ [] := List.cons_ne_nil d later
      simp only [foldlM_appendDigit?_eq_some_iff hne, ne_eq, hne, not_false_eq_true, true_and]
      rfl

/-- **Which texts write numbers below a limit.** -/
theorem number?_eq_some_iff : number? limit t = some n ↔
    ∃ digits, (t = digits ∨ t = '+' :: digits) ∧ digits ≠ [] ∧
      (∀ d ∈ digits, d.isDigit = true) ∧ decimal digits = n ∧ n < limit := by
  constructor
  · intro h
    exact ⟨dropPlus t, eq_or_eq_plus_dropPlus t, (number?_iff_of_dropPlus rfl).mp h⟩
  · rintro ⟨digits, ht, hne, hdigits, hvalue⟩
    exact (number?_iff_of_dropPlus (dropPlus_of_digits hne hdigits ht)).mpr
      ⟨hne, hdigits, hvalue⟩

end HttpWire.Text
