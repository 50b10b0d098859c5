import HttpWire.Proofs.Percent.Escapes

/-!
# The ways to write a text

A text can be percent-encoded in many ways.  Every character may be written as
the escapes of its octets, each digit in either case; every character but `%`
and `+` may also stand as it is, and a space may be written `+`.  `Writes t e`
says that `e` writes `t` in one of these ways, chosen anew for each character.

Decoding gives the text back whatever was chosen (`Writes.decodeOctets_append`).
The choices do not disturb one another because each form is decoded by itself,
whatever stands behind it (`Form.decodeOctets_append`): an escape takes its two
digits even where raw digits follow, and a raw character takes nothing.

Encoding makes one of these choices (`writes_encode`), so decoding undoes it.
-/

namespace HttpWire.Percent

/-- The escapes of octets, one behind the other. -/
inductive Escapes : Octets → Text → Prop where
  | nil : Escapes [] []
  | cons {b : UInt8} {octets : Octets} {e t : Text} (head : Escape b e) (tail : Escapes octets t) :
      Escapes (b :: octets) (e ++ t)

/-- A way to write a character. -/
inductive Form : Char → Text → Prop where
  /-- As it is. -/
  | raw {c : Char} (hmark : c ≠ '%') (hplus : c ≠ '+') : Form c [c]
  /-- As the escapes of its octets. -/
  | escaped {c : Char} {e : Text} (hescapes : Escapes (String.utf8EncodeChar c) e) : Form c e
  /-- A space as `+`. -/
  | plus : Form ' ' ['+']

/-- A text is written character by character. -/
inductive Writes : Text → Text → Prop where
  | nil : Writes [] []
  | cons {c : Char} {t form e : Text} (head : Form c form) (tail : Writes t e) :
      Writes (c :: t) (form ++ e)

variable {c : Char} {octets : Octets} {t e form : Text}

/-- Escapes give the octets that they spell. -/
theorem Escapes.decodeOctets_append (h : Escapes octets e) (rest : Text) :
    decodeOctets (e ++ rest) = octets ++ decodeOctets rest := by
  induction h with
  | nil => rfl
  | cons head tail ih => rw [List.append_assoc, decodeOctets_escape head, ih, List.cons_append]

/-- **Each form is decoded by itself**, whatever stands behind it. -/
theorem Form.decodeOctets_append (h : Form c form) (rest : Text) :
    decodeOctets (form ++ rest) = String.utf8EncodeChar c ++ decodeOctets rest := by
  cases h with
  | raw hmark hplus =>
      have hliteral : literalChar c = String.utf8EncodeChar c := if_neg hplus
      rw [← hliteral]
      exact decodeOctets_cons (not_beginsEscape_of_ne hmark)
  | escaped hescapes => exact hescapes.decodeOctets_append rest
  | plus => exact decodeOctets_cons (not_beginsEscape_of_ne (by decide))

/-- **A text in whatever way it is written gives its octets**, and what stands
behind it is decoded as if it stood alone. -/
theorem Writes.decodeOctets_append (h : Writes t e) (rest : Text) :
    decodeOctets (e ++ rest) = Utf8.encode t ++ decodeOctets rest := by
  induction h with
  | nil => rfl
  | @cons c t form e head tail ih =>
      calc decodeOctets (form ++ e ++ rest)
          = decodeOctets (form ++ (e ++ rest)) := by rw [List.append_assoc]
        _ = String.utf8EncodeChar c ++ (Utf8.encode t ++ decodeOctets rest) := by
            rw [head.decodeOctets_append, ih]
        _ = Utf8.encode (c :: t) ++ decodeOctets rest := by
            rw [Utf8.encode_cons, List.append_assoc]

/-- **Whatever forms were chosen, the octets come back.** -/
theorem Writes.decodeOctets_eq (h : Writes t e) : decodeOctets e = Utf8.encode t := by
  have hwhole := h.decodeOctets_append []
  simpa [decodeOctets, Utf8.encode, unescape] using hwhole

/-- Hence the text comes back. -/
theorem Writes.decode_eq (h : Writes t e) : decode e = t := by
  rw [decode, h.decodeOctets_eq, Utf8.decode_encode]

/-- **Decoding accepts every way of writing a text**: it gives the text back,
and its octets are those of the text. -/
theorem decode_of_writes (h : Writes t e) : decode e = t ∧ decodeOctets e = Utf8.encode t :=
  ⟨h.decode_eq, h.decodeOctets_eq⟩

/-- Escapes with digits in both cases next to raw digits, a character of two
octets, and a space in each of its three forms. -/
theorem decode_of_writes_mixed_forms :
    let t : Text := ['4', 'é', '1', ' ', ' ', ' ', '%']
    let e : Text := ['4', '%', 'c', '3', '%', 'A', '9', '1', ' ', '+', '%', '2', '0', '%', '2', '5']
    Writes t e ∧ decode e = t ∧ decodeOctets e = Utf8.encode t := by
  intro t e
  have hlong : Form 'é' ['%', 'c', '3', '%', 'A', '9'] := by
    have hfirst : Escape 0xC3 ['%', 'c', '3'] :=
      Escape.spell (h := 12) (l := 3) (by decide) (by decide) rfl
    have hsecond : Escape 0xA9 ['%', 'A', '9'] :=
      Escape.spell (h := 10) (l := 9) (by decide) (by decide) rfl
    exact Form.escaped (Escapes.cons hfirst (Escapes.cons hsecond Escapes.nil))
  have hspace : Form ' ' ['%', '2', '0'] := by
    have hescape : Escape 32 ['%', '2', '0'] :=
      Escape.spell (h := 2) (l := 0) (by decide) (by decide) rfl
    exact Form.escaped (Escapes.cons hescape Escapes.nil)
  have hmark : Form '%' ['%', '2', '5'] := by
    have hescape : Escape 37 ['%', '2', '5'] :=
      Escape.spell (h := 2) (l := 5) (by decide) (by decide) rfl
    exact Form.escaped (Escapes.cons hescape Escapes.nil)
  have hwrites : Writes t e := by
    apply Writes.cons (Form.raw (c := '4') (by decide) (by decide))
    apply Writes.cons hlong
    apply Writes.cons (Form.raw (c := '1') (by decide) (by decide))
    apply Writes.cons (Form.raw (c := ' ') (by decide) (by decide))
    apply Writes.cons Form.plus
    apply Writes.cons hspace
    exact Writes.cons hmark Writes.nil
  exact ⟨hwrites, decode_of_writes hwrites⟩

/-! ## Encoding -/

theorem encode_cons (c : Char) (t : Text) : encode (c :: t) = encodeChar c ++ encode t := rfl

theorem encodeChar_of_mem (hc : c ∈ reserved) :
    encodeChar c = ['%', hexDigit (c.toNat / 16), hexDigit (c.toNat % 16)] := by
  have hspace : c ≠ ' ' := by
    intro h
    exact absurd (h ▸ hc) (by decide)
  rw [encodeChar, if_neg hspace, if_pos hc]

theorem encodeChar_of_plain (hspace : c ≠ ' ') (hc : c ∉ reserved) : encodeChar c = [c] := by
  rw [encodeChar, if_neg hspace, if_neg hc]

/-- Reserved characters are ASCII. -/
theorem toNat_lt_of_mem_reserved (hc : c ∈ reserved) : c.toNat < 128 := by
  have hall : (reserved.all fun d => d.toNat < 128) = true := by decide
  exact of_decide_eq_true (List.all_eq_true.mp hall c hc)

/-- The three ways in which a character is written. -/
theorem encodeChar_cases (c : Char) :
    (c = ' ' ∧ encodeChar c = ['+']) ∨
      (c ∈ reserved ∧ c.toNat < 128 ∧
        encodeChar c = ['%', hexDigit (c.toNat / 16), hexDigit (c.toNat % 16)]) ∨
      (c ≠ ' ' ∧ c ∉ reserved ∧ encodeChar c = [c]) := by
  by_cases hspace : c = ' '
  · exact Or.inl ⟨hspace, by rw [hspace]; rfl⟩
  · by_cases hc : c ∈ reserved
    · exact Or.inr (Or.inl ⟨hc, toNat_lt_of_mem_reserved hc, encodeChar_of_mem hc⟩)
    · exact Or.inr (Or.inr ⟨hspace, hc, encodeChar_of_plain hspace hc⟩)

/-- Encoding writes a character in one of the ways. -/
theorem form_encodeChar (c : Char) : Form c (encodeChar c) := by
  rcases encodeChar_cases c with ⟨rfl, hform⟩ | ⟨-, hsmall, hform⟩ | ⟨-, hplain, hform⟩
  · rw [hform]
    exact Form.plus
  · have hone : String.utf8EncodeChar c = [UInt8.ofNat c.toNat] := Utf8.encodeChar_of_lt hsmall
    have hescape : Escape (UInt8.ofNat c.toNat) (encodeChar c) := by
      rw [hform]
      apply Escape.spell (digit_hexDigit (by omega)) (digit_hexDigit (by omega))
      rw [UInt8.toNat_ofNat']
      omega
    apply Form.escaped
    rw [hone, ← List.append_nil (encodeChar c)]
    exact Escapes.cons hescape Escapes.nil
  · rw [hform]
    have hne : ∀ d ∈ reserved, c ≠ d := fun d hd heq => hplain (heq ▸ hd)
    exact Form.raw (hne '%' (by decide)) (hne '+' (by decide))

/-- **Encoding writes a text in one of the ways.** -/
theorem writes_encode (t : Text) : Writes t (encode t) := by
  induction t with
  | nil => exact Writes.nil
  | cons c t ih => exact Writes.cons (form_encodeChar c) ih

/-- **Decoding undoes encoding.** -/
theorem decode_encode (t : Text) : decode (encode t) = t :=
  (writes_encode t).decode_eq

end HttpWire.Percent
