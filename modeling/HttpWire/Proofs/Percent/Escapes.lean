import HttpWire.Percent
import HttpWire.Text.Utf8.Lemmas

/-!
# Resolving escapes

Decoding looks at octets and up to two octets ahead.  An escape takes exactly
its own two digits, `+` takes nothing, and the octets of a character outside
ASCII are neither `%` nor `+`, so they stand for themselves.

Octets that are `%` and digits are characters `%` and digits of the text, so
what decoding does can be said of the text itself, without octets.  It comes to
two equations.  Where an escape begins, its octet is given and the text behind
it is decoded (`decodeOctets_escape`).  Everywhere else the first character is
given by itself, however much what follows it looks like part of an escape
(`decodeOctets_cons`).  A text is used up by these two, which is the induction
`reading_induction`.
-/

namespace HttpWire.Percent

variable {b high low h l : UInt8} {c d : Char} {n : Nat} {e t rest : Text}

/-! ## Octets -/

/-- An octet that opens no escape is resolved by itself. -/
theorem unescape_cons_of_ne (hb : b ≠ 37) (rest : Octets) :
    unescape (b :: rest) = literal b :: unescape rest := by
  rcases rest with _ | ⟨x, _ | ⟨y, rest⟩⟩
  · rfl
  · rfl
  · have hnone : escaped? b x y = none := if_neg hb
    rw [unescape, hnone]

/-- An escape takes its two digits and no more. -/
theorem unescape_escape (hhigh : hexValue? high = some h) (hlow : hexValue? low = some l)
    (rest : Octets) : unescape (37 :: high :: low :: rest) = (16 * h + l) :: unescape rest := by
  have hsome : escaped? 37 high low = some (16 * h + l) := by
    simp [escaped?, hhigh, hlow]
  rw [unescape, hsome]

/-- Octets that are neither `%` nor `+` are passed on as they are. -/
theorem unescape_append_of_plain {plain : Octets} (hplain : ∀ b ∈ plain, b ≠ 37 ∧ b ≠ 43)
    (rest : Octets) : unescape (plain ++ rest) = plain ++ unescape rest := by
  induction plain with
  | nil => rfl
  | cons b plain ih =>
      obtain ⟨hmark, hplus⟩ := hplain b List.mem_cons_self
      have hself : literal b = b := if_neg hplus
      have htail := ih fun d hd => hplain d (List.mem_cons_of_mem _ hd)
      rw [List.cons_append, unescape_cons_of_ne hmark, hself, htail, List.cons_append]

/-- **A character other than `%` and `+` stands for itself**, be it one octet
or four. -/
theorem unescape_char (hmark : c ≠ '%') (hplus : c ≠ '+') (rest : Octets) :
    unescape (String.utf8EncodeChar c ++ rest) = String.utf8EncodeChar c ++ unescape rest := by
  have honly : ∀ d : Char, d.val.toNat < 128 → d ≠ c →
      ∀ b ∈ String.utf8EncodeChar c, b ≠ UInt8.ofNat d.val.toNat := by
    intro d hd hne
    rw [← Utf8.encode_singleton]
    exact Utf8.ne_of_mem_encode hd (by simpa using hne)
  apply unescape_append_of_plain
  intro b hb
  exact ⟨honly '%' (by decide) hmark.symm b hb, honly '+' (by decide) hplus.symm b hb⟩

/-- A `%` is resolved by itself unless two digits follow. -/
theorem unescape_mark {octets : Octets}
    (hnone : ∀ high low tail, octets = high :: low :: tail → escaped? 37 high low = none) :
    unescape (37 :: octets) = 37 :: unescape octets := by
  rcases octets with _ | ⟨high, _ | ⟨low, tail⟩⟩
  · rfl
  · rfl
  · rw [unescape, hnone high low tail rfl]
    rfl

/-! ## Hexadecimal digits -/

/-- The upper-case hexadecimal digits in the order of their values. -/
def upperDigits : List Char :=
  ['0', '1', '2', '3', '4', '5', '6', '7', '8', '9', 'A', 'B', 'C', 'D', 'E', 'F']

/-- The lower-case hexadecimal digits in the order of their values. -/
def lowerDigits : List Char :=
  ['0', '1', '2', '3', '4', '5', '6', '7', '8', '9', 'a', 'b', 'c', 'd', 'e', 'f']

/-- A hexadecimal digit of either case, with its value. -/
def Digit (d : Char) (n : Nat) : Prop :=
  upperDigits[n]? = some d ∨ lowerDigits[n]? = some d

instance (d : Char) (n : Nat) : Decidable (Digit d n) :=
  inferInstanceAs (Decidable (_ ∨ _))

/-- The upper-case digits stand in the order of their values. -/
theorem upperDigits_getElem? (hn : n < 16) : upperDigits[n]? = some (hexDigit n) := by
  have hall : ∀ n : Fin 16, upperDigits[n.val]? = some (hexDigit n) := by decide
  exact hall ⟨n, hn⟩

theorem lowerDigits_getElem? (hn : n < 16) : lowerDigits[n]? = some (hexDigit n).toLower := by
  have hall : ∀ n : Fin 16, lowerDigits[n.val]? = some (hexDigit n).toLower := by decide
  exact hall ⟨n, hn⟩

theorem digit_hexDigit (hn : n < 16) : Digit (hexDigit n) n :=
  Or.inl (upperDigits_getElem? hn)

theorem Digit.lt (hd : Digit d n) : n < 16 := by
  rcases hd with hupper | hlower
  · exact (List.getElem?_eq_some_iff.mp hupper).1
  · exact (List.getElem?_eq_some_iff.mp hlower).1

/-- A digit is one octet, and it is read with its value. -/
theorem Digit.octet (hd : Digit d n) :
    d.val.toNat < 128 ∧ hexValue? (UInt8.ofNat d.val.toNat) = some (UInt8.ofNat n) := by
  have hn := hd.lt
  rcases hd with hupper | hlower
  · have hall : ∀ n : Fin 16, (hexDigit n).val.toNat < 128 ∧
        hexValue? (UInt8.ofNat (hexDigit n).val.toNat) = some (UInt8.ofNat n) := by decide
    rw [upperDigits_getElem? hn, Option.some.injEq] at hupper
    exact hupper ▸ hall ⟨n, hn⟩
  · have hall : ∀ n : Fin 16, (hexDigit n).toLower.val.toNat < 128 ∧
        hexValue? (UInt8.ofNat (hexDigit n).toLower.val.toNat) = some (UInt8.ofNat n) := by decide
    rw [lowerDigits_getElem? hn, Option.some.injEq] at hlower
    exact hlower ▸ hall ⟨n, hn⟩

/-- An octet with a value as a digit is ASCII. -/
theorem lt_of_hexValue? {v : UInt8} (hv : hexValue? b = some v) : b.toNat < 128 := by
  unfold hexValue? at hv
  simp only [UInt8.le_iff_toNat_le] at hv
  grind

/-- What is read as a digit is one. -/
theorem digit_of_hexValue? {v : UInt8} (hd : d.val.toNat < 128)
    (hv : hexValue? (UInt8.ofNat d.val.toNat) = some v) : Digit d v.toNat := by
  have hall : ∀ n : Fin 128, (hexValue? (UInt8.ofNat n.val)).all
      (fun v => decide (Digit (Char.ofNat n.val) v.toNat)) = true := by decide
  have hdigit : (hexValue? (UInt8.ofNat d.val.toNat)).all
      (fun v => decide (Digit (Char.ofNat d.val.toNat) v.toNat)) = true := hall ⟨_, hd⟩
  have hchar : Char.ofNat d.val.toNat = d := Char.ofNat_toNat d
  rw [hv, hchar] at hdigit
  exact of_decide_eq_true hdigit

/-- A character without a value is no digit. -/
theorem Digit.ne_of_hexValue?_eq_none (hd : Digit d n)
    (hc : hexValue? (UInt8.ofNat c.val.toNat) = none) : d ≠ c := by
  rintro rfl
  exact Option.some_ne_none _ (hd.octet.2.symm.trans hc)

theorem Digit.ne_mark (hd : Digit d n) : d ≠ '%' :=
  hd.ne_of_hexValue?_eq_none (by decide)

theorem Digit.ne_plus (hd : Digit d n) : d ≠ '+' :=
  hd.ne_of_hexValue?_eq_none (by decide)

/-! ## Escapes -/

/-- `%` and two digits that spell an octet. -/
inductive Escape (b : UInt8) : Text → Prop where
  | spell {high low : Char} {h l : Nat} (hhigh : Digit high h) (hlow : Digit low l)
      (hvalue : b.toNat = 16 * h + l) : Escape b ['%', high, low]

/-- An escape stands at the head of the text. -/
def BeginsEscape (t : Text) : Prop :=
  ∃ b e, Escape b e ∧ e <+: t

/-- What a character outside an escape stands for. -/
def literalChar (c : Char) : Octets :=
  if c = '+' then [32] else String.utf8EncodeChar c

/-- An escape has three characters. -/
theorem Escape.length_eq (he : Escape b e) : e.length = 3 := by
  cases he
  rfl

/-- **An escape gives its octet**, whatever follows. -/
theorem decodeOctets_escape (he : Escape b e) (rest : Text) :
    decodeOctets (e ++ rest) = b :: decodeOctets rest := by
  cases he with
  | @spell high low h l hhigh hlow hvalue =>
      obtain ⟨hhighSmall, hhighValue⟩ := hhigh.octet
      obtain ⟨hlowSmall, hlowValue⟩ := hlow.octet
      have hoctets : Utf8.encode (['%', high, low] ++ rest) =
          37 :: UInt8.ofNat high.val.toNat :: UInt8.ofNat low.val.toNat :: Utf8.encode rest := by
        simp only [List.cons_append, List.nil_append, Utf8.encode_cons,
          Utf8.encodeChar_of_lt hhighSmall, Utf8.encodeChar_of_lt hlowSmall]
        rfl
      have hspelt : 16 * UInt8.ofNat h + UInt8.ofNat l = b := by
        have hh := hhigh.lt
        have hl := hlow.lt
        apply UInt8.toNat_inj.mp
        simp only [UInt8.toNat_add, UInt8.toNat_mul, UInt8.toNat_ofNat, UInt8.toNat_ofNat']
        omega
      rw [decodeOctets, hoctets, unescape_escape hhighValue hlowValue, hspelt]
      rfl

/-- Octets that would be an escape are one in the text. -/
theorem beginsEscape_of_escaped? {tail : Octets} (ht : Utf8.encode t = high :: low :: tail)
    (hsome : escaped? 37 high low = some b) : BeginsEscape ('%' :: t) := by
  obtain ⟨h, hhigh, l, hlow, hvalue⟩ :
      ∃ h, hexValue? high = some h ∧ ∃ l, hexValue? low = some l ∧ 16 * h + l = b := by
    simpa [escaped?, Option.bind_eq_some_iff] using hsome
  obtain ⟨c, s, rfl, hc, rfl, htail⟩ :=
    Utf8.encode_eq_cons_of_lt (lt_of_hexValue? hhigh) ht
  obtain ⟨d, s, rfl, hd, rfl, -⟩ :=
    Utf8.encode_eq_cons_of_lt (lt_of_hexValue? hlow) htail.symm
  have hhighDigit := digit_of_hexValue? hc hhigh
  have hlowDigit := digit_of_hexValue? hd hlow
  refine ⟨b, _, .spell hhighDigit hlowDigit ?_, s, rfl⟩
  have hh := hhighDigit.lt
  have hl := hlowDigit.lt
  rw [← hvalue, UInt8.toNat_add, UInt8.toNat_mul]
  simp only [UInt8.toNat_ofNat]
  omega

/-- **Outside an escape a character is given by itself.** -/
theorem decodeOctets_cons (hno : ¬ BeginsEscape (c :: rest)) :
    decodeOctets (c :: rest) = literalChar c ++ decodeOctets rest := by
  by_cases hmark : c = '%'
  · subst hmark
    apply unescape_mark
    intro high low tail hrest
    cases hsome : escaped? 37 high low with
    | none => rfl
    | some b => exact absurd (beginsEscape_of_escaped? hrest hsome) hno
  · by_cases hplus : c = '+'
    · subst hplus
      exact unescape_cons_of_ne (by decide) _
    · rw [decodeOctets, Utf8.encode_cons, unescape_char hmark hplus, literalChar, if_neg hplus]
      rfl

/-- No escape begins with another character than `%`. -/
theorem not_beginsEscape_of_ne (hmark : c ≠ '%') : ¬ BeginsEscape (c :: rest) := by
  rintro ⟨b, e, he, hprefix⟩
  cases he
  obtain ⟨rfl, -⟩ := List.cons_prefix_cons.mp hprefix
  exact hmark rfl

/-- **A text is read from the left**, an escape at a time where there is one and
else a character at a time. -/
theorem reading_induction {motive : Text → Prop} (nil : motive [])
    (escape : ∀ b e rest, Escape b e → motive rest → motive (e ++ rest))
    (char : ∀ c rest, ¬ BeginsEscape (c :: rest) → motive rest → motive (c :: rest))
    (t : Text) : motive t := by
  induction hlength : t.length using Nat.strongRecOn generalizing t with
  | ind k ih =>
      by_cases hbegins : BeginsEscape t
      · obtain ⟨b, e, he, rest, rfl⟩ := hbegins
        apply escape b e rest he
        apply ih rest.length _ rest rfl
        rw [← hlength, List.length_append, he.length_eq]
        omega
      · cases t with
        | nil => exact nil
        | cons c rest =>
            apply char c rest hbegins
            apply ih rest.length _ rest rfl
            rw [← hlength, List.length_cons]
            omega

end HttpWire.Percent
