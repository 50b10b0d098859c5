import HttpWire.Head.Response
import Mathlib.Data.List.Basic

/-!
# Status codes and their classes

The code of a status is read by octets: the first three of them, if they can be
cut off, and the one behind them.  A status is any text, so whether this comes
to characters is not plain: octets of longer characters might look like digits
or like a space, and the cut might go through a character.

They never do.  Octets that are digits are characters that are digits, each of
one octet (`all_isDigitOctet_encode`), and an octet that is a space is a space
(`endsCode_encode_iff`).  So a status has a code exactly if it begins with three
digits and a space or nothing follows (`codeOf_eq_some_iff`), and the first of
these digits says what class the code belongs to (`holds_iff`).
-/

namespace HttpWire

namespace StatusClass

/-- The digit with which the codes of a class begin. -/
def digit : StatusClass → Char
  | .informational => '1'
  | .success => '2'
  | .redirect => '3'
  | .clientError => '4'
  | .serverError => '5'

end StatusClass

namespace Response

variable {status code : Text} {n : Nat} {c : Char}

/-- A status begins with a code: three digits that write it, and then nothing
or a space. -/
def BeginsWithCode (status : Text) (n : Nat) : Prop :=
  ∃ a b c rest, status = a :: b :: c :: rest ∧
    (a.isDigit = true ∧ b.isDigit = true ∧ c.isDigit = true) ∧
    (rest = [] ∨ ∃ later, rest = ' ' :: later) ∧
    n = 100 * (a.toNat - 48) + 10 * (b.toNat - 48) + (c.toNat - 48)

/-! ## Octets and characters -/

/-- The octets of a character are digits exactly if it is one. -/
theorem all_isDigitOctet_encodeChar (c : Char) :
    (String.utf8EncodeChar c).all isDigitOctet = c.isDigit := by
  rcases Nat.lt_or_ge c.val.toNat 128 with hsmall | hlarge
  · have hascii : ∀ v : Fin 128,
        (String.utf8EncodeChar (Char.ofNat v)).all isDigitOctet = (Char.ofNat v).isDigit := by
      decide +kernel
    have h := hascii ⟨c.val.toNat, hsmall⟩
    simpa only [show Char.ofNat c.val.toNat = c from Char.ofNat_toNat c] using h
  · have hother : c.isDigit = false := by
      rw [← Bool.not_eq_true, Text.isDigit_iff]
      have hval : c.toNat = c.val.toNat := rfl
      omega
    obtain ⟨b, tail, hoctets, -⟩ := Utf8.encodeChar_eq_cons c
    have hb : 128 ≤ b.toNat := by
      apply Utf8.le_toNat_of_mem_encodeChar hlarge
      rw [hoctets]
      exact List.mem_cons_self
    have hno : isDigitOctet b = false := by
      have h57 : (57 : UInt8).toNat = 57 := rfl
      simp only [isDigitOctet, Bool.and_eq_false_iff, decide_eq_false_iff_not, UInt8.le_iff_toNat_le]
      omega
    rw [hoctets, hother, List.all_cons, hno, Bool.false_and]

/-- **The octets of a text are digits exactly if its characters are.** -/
theorem all_isDigitOctet_encode (t : Text) :
    (Utf8.encode t).all isDigitOctet = t.all Char.isDigit := by
  rw [Utf8.encode, List.all_flatMap]
  simp only [all_isDigitOctet_encodeChar]

/-- A digit is one octet. -/
theorem length_encode_of_digits {t : Text} (h : t.all Char.isDigit = true) :
    (Utf8.encode t).length = t.length := by
  induction t with
  | nil => rfl
  | cons c later ih =>
      rw [List.all_cons, Bool.and_eq_true] at h
      have hrange := Text.isDigit_iff.mp h.1
      have hval : c.toNat = c.val.toNat := rfl
      rw [Utf8.encode_cons, List.length_append, ih h.2, Utf8.encodeChar_of_lt (by omega)]
      simp [Nat.add_comm]

/-- **A code may end before a text** if that is empty or begins with a space. -/
theorem endsCode_encode_iff {rest : Text} :
    endsCode (Utf8.encode rest).head? = true ↔ rest = [] ∨ ∃ later, rest = ' ' :: later := by
  constructor
  · intro hends
    cases hoctets : Utf8.encode rest with
    | nil =>
        left
        cases rest with
        | nil => rfl
        | cons c later =>
            obtain ⟨b, tail, hchar, -⟩ := Utf8.encodeChar_eq_cons c
            rw [Utf8.encode_cons, hchar] at hoctets
            exact absurd hoctets (by simp)
    | cons b tail =>
        rw [hoctets, List.head?_cons] at hends
        obtain rfl : b = 32 := beq_iff_eq.mp hends
        obtain ⟨c, later, rfl, hc, hspace, -⟩ := Utf8.encode_eq_cons_of_lt (by decide) hoctets
        right
        refine ⟨later, congrArg (· :: later) (Char.ext (UInt32.toNat_inj.mp ?_))⟩
        have hnat := congrArg UInt8.toNat hspace
        rw [UInt8.toNat_ofNat', Nat.mod_eq_of_lt (by omega)] at hnat
        exact hnat.symm
  · intro hrest
    rcases hrest with rfl | ⟨later, rfl⟩
    · rfl
    · rfl

/-! ## The code -/

/-- **The first three octets are digits**, and can be cut off, exactly if three
characters are. -/
theorem slice?_digits_iff :
    status.slice? ⟨0, codeSize⟩ = some code ∧ (Utf8.encode code).all isDigitOctet = true ↔
      ∃ a b c rest, status = a :: b :: c :: rest ∧ code = [a, b, c] ∧
        (a.isDigit = true ∧ b.isDigit = true ∧ c.isDigit = true) := by
  rw [Text.slice?_eq_some_iff, all_isDigitOctet_encode]
  constructor
  · rintro ⟨⟨before, rest, rfl, hstart, hstop⟩, hdigits⟩
    have hbefore : before = [] := by
      cases before with
      | nil => rfl
      | cons c later =>
          have hpos := c.utf8Size_pos
          rw [Utf8.encode_cons, List.length_append, String.length_utf8EncodeChar] at hstart
          have hnone : c.utf8Size + (Utf8.encode later).length = 0 := hstart
          omega
    subst hbefore
    have hlength : code.length = 3 := by
      rw [← length_encode_of_digits hdigits]
      exact (Nat.zero_add _).symm.trans hstop
    obtain ⟨a, b, c, rfl⟩ := List.length_eq_three.mp hlength
    refine ⟨a, b, c, rest, rfl, rfl, ?_⟩
    simpa using hdigits
  · rintro ⟨a, b, c, rest, rfl, rfl, ha, hb, hc⟩
    have hdigits : [a, b, c].all Char.isDigit = true := by simp [ha, hb, hc]
    refine ⟨⟨[], rest, rfl, rfl, ?_⟩, hdigits⟩
    rw [length_encode_of_digits hdigits]
    rfl

/-- Three digits write a number below 1000. -/
theorem number?_three {a b c : Char} (ha : a.isDigit = true) (hb : b.isDigit = true)
    (hc : c.isDigit = true) : Text.number? UInt16.size [a, b, c] =
      some (100 * (a.toNat - 48) + 10 * (b.toNat - 48) + (c.toNat - 48)) := by
  have hvalue : Text.decimal [a, b, c] =
      100 * (a.toNat - 48) + 10 * (b.toNat - 48) + (c.toNat - 48) := by
    simp only [Text.decimal, Text.decimalFrom, List.foldl_cons, List.foldl_nil]
    omega
  have hsize : UInt16.size = 65536 := rfl
  have ha' := Text.isDigit_iff.mp ha
  have hb' := Text.isDigit_iff.mp hb
  have hc' := Text.isDigit_iff.mp hc
  exact Text.number?_eq_some_iff.mpr
    ⟨[a, b, c], Or.inl rfl, List.cons_ne_nil _ _, by simp [ha, hb, hc], hvalue, by omega⟩

/-- The octet behind a code is the first of what follows. -/
theorem getElem?_behind {a b c : Char} (ha : a.isDigit = true) (hb : b.isDigit = true)
    (hc : c.isDigit = true) (rest : Text) :
    (Utf8.encode (a :: b :: c :: rest))[codeSize]? = (Utf8.encode rest).head? := by
  have hdigits : [a, b, c].all Char.isDigit = true := by simp [ha, hb, hc]
  have hlength : (Utf8.encode [a, b, c]).length = codeSize := length_encode_of_digits hdigits
  have hparts : Utf8.encode (a :: b :: c :: rest) = Utf8.encode [a, b, c] ++ Utf8.encode rest :=
    Utf8.encode_append [a, b, c] rest
  rw [hparts, ← hlength, List.getElem?_append_right (Nat.le_refl _), Nat.sub_self,
    List.head?_eq_getElem?]

/-- **Which texts have a code.** -/
theorem codeOf_eq_some_iff : codeOf status = some n ↔ BeginsWithCode status n := by
  constructor
  · intro h
    unfold codeOf at h
    split at h
    · exact absurd h (by simp)
    · rename_i code hslice
      split at h
      · rename_i hends
        rw [Bool.and_eq_true] at hends
        obtain ⟨a, b, c, rest, rfl, rfl, ha, hb, hc⟩ := slice?_digits_iff.mp ⟨hslice, hends.1⟩
        rw [getElem?_behind ha hb hc] at hends
        rw [number?_three ha hb hc, Option.some.injEq] at h
        exact ⟨a, b, c, rest, rfl, ⟨ha, hb, hc⟩, endsCode_encode_iff.mp hends.2, h.symm⟩
      · exact absurd h (by simp)
  · rintro ⟨a, b, c, rest, rfl, ⟨ha, hb, hc⟩, hrest, rfl⟩
    obtain ⟨hslice, hdigits⟩ := slice?_digits_iff.mpr ⟨a, b, c, rest, rfl, rfl, ha, hb, hc⟩
    have hends := endsCode_encode_iff.mpr hrest
    rw [← getElem?_behind ha hb hc] at hends
    simp only [codeOf, hslice, hdigits, hends, Bool.and_self, if_true]
    exact number?_three ha hb hc

/-- Where a status cannot be cut behind three octets it has no code. -/
theorem codeOf_of_not_isCut (hcut : ¬ Text.IsCut codeSize status) : codeOf status = none := by
  have hslice : status.slice? ⟨0, codeSize⟩ = none := by
    rw [← Option.not_isSome_iff_eq_none, Text.isSome_slice?_iff]
    intro hout
    exact hcut hout.stop_cut
  simp only [codeOf, hslice]

/-! ## The class -/

/-- **The first digit of a code tells its class**, if it has one. -/
theorem holds_iff (hcode : BeginsWithCode status n) (k : StatusClass) :
    k.holds n = true ↔ status.head? = some k.digit := by
  obtain ⟨a, b, c, rest, rfl, ⟨ha, hb, hc⟩, -, rfl⟩ := hcode
  have ha' := Text.isDigit_iff.mp ha
  have hb' := Text.isDigit_iff.mp hb
  have hc' := Text.isDigit_iff.mp hc
  have hbase : k.base = 100 * (k.digit.toNat - 48) ∧ 48 ≤ k.digit.toNat := by
    cases k <;> decide
  have hsame : a.toNat = k.digit.toNat ↔ a = k.digit := Char.toNat_inj
  rw [List.head?_cons, Option.some.injEq, ← hsame]
  simp only [StatusClass.holds, Bool.and_eq_true, decide_eq_true_eq]
  omega

/-- Codes from 100 to 599 begin with the digit of some class. -/
theorem exists_digit (hcode : BeginsWithCode status n) (hlow : 100 ≤ n) (hhigh : n ≤ 599) :
    ∃ k : StatusClass, status.head? = some k.digit := by
  obtain ⟨a, b, c, rest, rfl, ⟨ha, hb, hc⟩, -, rfl⟩ := hcode
  have ha' := Text.isDigit_iff.mp ha
  have hb' := Text.isDigit_iff.mp hb
  have hc' := Text.isDigit_iff.mp hc
  have hfirst : a.toNat = 49 ∨ a.toNat = 50 ∨ a.toNat = 51 ∨ a.toNat = 52 ∨ a.toNat = 53 := by
    omega
  have hdigit : ∀ k : StatusClass, a.toNat = k.digit.toNat →
      (a :: b :: c :: rest).head? = some k.digit := by
    intro k hk
    rw [List.head?_cons, Char.toNat_inj.mp hk]
  rcases hfirst with h | h | h | h | h
  · exact ⟨.informational, hdigit _ h⟩
  · exact ⟨.success, hdigit _ h⟩
  · exact ⟨.redirect, hdigit _ h⟩
  · exact ⟨.clientError, hdigit _ h⟩
  · exact ⟨.serverError, hdigit _ h⟩

/-- A response is in a class if it has a code and the class holds it. -/
theorem isIn_iff [Hasher] {r : Response} {k : StatusClass} :
    r.isIn k = true ↔ ∃ n, r.code? = some n ∧ k.holds n = true := by
  rw [isIn, Option.any_eq_true]

/-- **Codes and classes are exact for every status.**  A status may be any text.

* It has a code exactly if it begins with three digits and a space or nothing
  follows, and the code is the number that they write.
* Where three octets are not there or end inside a character it has none: the
  cut is not made.
* A code from 100 to 599 is in one class and no other, the one of its first
  digit.
* Without such a code a status is in no class. -/
theorem code_and_class_exact [Hasher] (r : Response) :
    (∀ n, r.code? = some n ↔ BeginsWithCode r.status n) ∧
      (¬ Text.IsCut codeSize r.status → r.code? = none) ∧
      (∀ n, r.code? = some n → 100 ≤ n → n ≤ 599 →
        ∃ k : StatusClass, r.status.head? = some k.digit ∧
          ∀ other, r.isIn other = true ↔ other = k) ∧
      ((∀ n, r.code? = some n → n < 100 ∨ 599 < n) → ∀ k, r.isIn k = false) := by
  have hcodes : ∀ n, r.code? = some n ↔ BeginsWithCode r.status n := fun _ => codeOf_eq_some_iff
  refine ⟨hcodes, codeOf_of_not_isCut, ?_, ?_⟩
  · intro n hcode hlow hhigh
    have hbegins := (hcodes n).mp hcode
    obtain ⟨k, hk⟩ := exists_digit hbegins hlow hhigh
    refine ⟨k, hk, ?_⟩
    intro other
    have hother : r.isIn other = true ↔ r.status.head? = some other.digit := by
      rw [isIn_iff, hcode]
      simp only [Option.some.injEq, exists_eq_left', holds_iff hbegins]
    rw [hother, hk, Option.some.injEq]
    cases k <;> cases other <;> decide
  · intro houtside k
    rw [← Bool.not_eq_true, isIn_iff]
    rintro ⟨n, hcode, hholds⟩
    have hrange := houtside n hcode
    simp only [StatusClass.holds, Bool.and_eq_true, decide_eq_true_eq] at hholds
    cases k <;> simp only [StatusClass.base] at hholds <;> omega

/-- A code with a reason outside ASCII, digits that go on into a character of
two octets, and a code above all classes. -/
theorem code_and_class_exact_beside_long_characters :
    let ofStatus : Text → Response := fun status => ⟨⟨['1', '.', '1'], FieldMap.empty⟩, status⟩
    let missing := ofStatus ['4', '0', '4', ' ', 'é']
    let torn := ofStatus ['2', '0', 'é']
    let above := ofStatus ['6', '0', '0']
    ((missing.code? = some 404 ∧ 100 ≤ 404 ∧ 404 ≤ 599) ∧
        ∀ other, missing.isIn other = true ↔ other = .clientError) ∧
      (¬ Text.IsCut codeSize torn.status ∧ torn.code? = none) ∧
      (∀ n, above.code? = some n → n < 100 ∨ 599 < n) ∧ ∀ k, above.isIn k = false := by
  intro ofStatus missing torn above
  have hcode : missing.code? = some 404 ∧ 100 ≤ 404 ∧ 404 ≤ 599 := by decide
  have htorn : ¬ Text.IsCut codeSize torn.status := by
    intro hcut
    exact hcut.2 ⟨['2', '0'], 'é', [], rfl, by decide, by decide⟩
  have habove : ∀ n, above.code? = some n → n < 100 ∨ 599 < n := by
    intro n hn
    have hvalue : above.code? = some 600 := by decide
    rw [hvalue, Option.some.injEq] at hn
    omega
  obtain ⟨k, hdigit, hclass⟩ :=
    (code_and_class_exact missing).2.2.1 404 hcode.1 hcode.2.1 hcode.2.2
  have hk : k = .clientError := by
    cases k <;> simp [missing, ofStatus, StatusClass.digit] at hdigit ⊢
  exact ⟨⟨hcode, hk ▸ hclass⟩, ⟨htorn, (code_and_class_exact torn).2.1 htorn⟩, habove,
    (code_and_class_exact above).2.2.2 habove⟩

end Response
end HttpWire
