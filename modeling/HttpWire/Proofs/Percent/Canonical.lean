import HttpWire.Proofs.Percent.Forms

/-!
# Canonical percent-encoded text

Many texts decode to the same text, but encoding gives only one of them.  It
is the canonical one: a row of pieces, each of them `+`, an escape of a
reserved character in upper-case digits, or a character that needs no escape.

A piece is precisely what one character is encoded to (`piece_iff`), so the
canonical texts are precisely the encoded ones (`canonical_iff_encoded`), and
with `decode_encode` decoding and encoding are inverse to each other there and
nowhere else.  The pieces do not run into one another: a reserved character in
encoded text is always the first of its piece, hence the `+` of a space or the
`%` of an escape (`encode_eq_append_cons`).
-/

namespace HttpWire.Percent

/-- Two upper-case hexadecimal digits spell the code of a character. -/
def Spells (high low c : Char) : Prop :=
  ∃ h l : Nat, upperDigits[h]? = some high ∧ upperDigits[l]? = some low ∧ c.toNat = 16 * h + l

/-- A piece of canonical text. -/
inductive Piece : Text → Prop where
  /-- A space. -/
  | plus : Piece ['+']
  /-- A reserved character. -/
  | escape {high low c : Char} (hc : c ∈ reserved) (hspells : Spells high low c) :
      Piece ['%', high, low]
  /-- Any other character. -/
  | plain {c : Char} (hspace : c ≠ ' ') (hc : c ∉ reserved) : Piece [c]

/-- With `after` behind it, `c` begins the piece of character `d`, and text `u`
is encoded behind this piece: the `+` of a space, or the `%` of an escape. -/
def BeginsPiece (c : Char) (after : Text) (d : Char) (u : Text) : Prop :=
  (c = '+' ∧ d = ' ' ∧ after = encode u) ∨
    (c = '%' ∧ d ∈ reserved ∧ ∃ high low, Spells high low d ∧ after = high :: low :: encode u)

/-- Canonical text is a row of pieces. -/
def Canonical (e : Text) : Prop :=
  ∃ pieces : List Text, (∀ p ∈ pieces, Piece p) ∧ e = pieces.flatten

variable {high low c : Char} {e t before after : Text}

/-- There is one way to spell a character. -/
theorem spells_iff (hc : c.toNat < 256) :
    Spells high low c ↔ high = hexDigit (c.toNat / 16) ∧ low = hexDigit (c.toNat % 16) := by
  constructor
  · intro hspells
    obtain ⟨h, l, hhigh, hlow, hvalue⟩ := hspells
    obtain ⟨hh, -⟩ := List.getElem?_eq_some_iff.mp hhigh
    obtain ⟨hl, -⟩ := List.getElem?_eq_some_iff.mp hlow
    have hsixteen : upperDigits.length = 16 := rfl
    rw [upperDigits_getElem? (by omega), Option.some.injEq] at hhigh hlow
    have hdiv : c.toNat / 16 = h := by omega
    have hmod : c.toNat % 16 = l := by omega
    rw [hdiv, hmod]
    exact ⟨hhigh.symm, hlow.symm⟩
  · intro hdigits
    obtain ⟨rfl, rfl⟩ := hdigits
    refine ⟨c.toNat / 16, c.toNat % 16, ?_, ?_, ?_⟩
    · exact upperDigits_getElem? (by omega)
    · exact upperDigits_getElem? (by omega)
    · omega

/-- **A piece is what one character is encoded to.** -/
theorem piece_iff : Piece e ↔ ∃ c, e = encodeChar c := by
  constructor
  · intro h
    cases h with
    | plus => exact ⟨' ', rfl⟩
    | @escape high low c hc hspells =>
        have hsmall := toNat_lt_of_mem_reserved hc
        obtain ⟨rfl, rfl⟩ := (spells_iff (by omega)).mp hspells
        exact ⟨c, (encodeChar_of_mem hc).symm⟩
    | @plain c hspace hc => exact ⟨c, (encodeChar_of_plain hspace hc).symm⟩
  · intro h
    obtain ⟨c, rfl⟩ := h
    rcases encodeChar_cases c with ⟨-, hpiece⟩ | ⟨hc, hsmall, hpiece⟩ | ⟨hspace, hc, hpiece⟩
    · rw [hpiece]
      exact Piece.plus
    · rw [hpiece]
      exact Piece.escape hc ((spells_iff (by omega)).mpr ⟨rfl, rfl⟩)
    · rw [hpiece]
      exact Piece.plain hspace hc

theorem canonical_encode (t : Text) : Canonical (encode t) := by
  refine ⟨t.map encodeChar, ?_, List.flatMap_def⟩
  intro p hp
  obtain ⟨c, -, rfl⟩ := List.mem_map.mp hp
  exact piece_iff.mpr ⟨c, rfl⟩

/-- **Canonical texts are the encoded texts.** -/
theorem canonical_iff_encoded : Canonical e ↔ ∃ t, e = encode t := by
  constructor
  · intro h
    obtain ⟨pieces, hpieces, rfl⟩ := h
    induction pieces with
    | nil => exact ⟨[], rfl⟩
    | cons p pieces ih =>
        obtain ⟨c, rfl⟩ := piece_iff.mp (hpieces p List.mem_cons_self)
        obtain ⟨t, ht⟩ := ih fun q hq => hpieces q (List.mem_cons_of_mem _ hq)
        exact ⟨c :: t, by rw [List.flatten_cons, ht, encode_cons]⟩
  · intro h
    obtain ⟨t, rfl⟩ := h
    exact canonical_encode t

/-! ## Where reserved characters stand -/

/-- The digits of an escape are not escaped themselves. -/
theorem hexDigit_not_mem_reserved {n : Nat} (hn : n < 16) : hexDigit n ∉ reserved := by
  have hall : ∀ n : Fin 16, hexDigit n ∉ reserved := by decide
  exact hall ⟨n, hn⟩

/-- A reserved character in a piece is its first character. -/
theorem encodeChar_eq_append_cons {d : Char} (hc : c ∈ reserved)
    (h : encodeChar d = before ++ c :: after) :
    before = [] ∧ BeginsPiece c after d [] := by
  rcases encodeChar_cases d with ⟨rfl, hpiece⟩ | ⟨hd, hsmall, hpiece⟩ | ⟨-, hd, hpiece⟩
  · rw [hpiece] at h
    obtain ⟨rfl, hcons⟩ := List.append_eq_singleton_iff.mp h.symm |>.resolve_right (by simp)
    obtain ⟨rfl, rfl⟩ := List.cons.inj hcons
    exact ⟨rfl, Or.inl ⟨rfl, rfl, rfl⟩⟩
  · have hhigh := hexDigit_not_mem_reserved (show d.toNat / 16 < 16 by omega)
    have hlow := hexDigit_not_mem_reserved (show d.toNat % 16 < 16 by omega)
    rw [hpiece] at h
    rcases before with _ | ⟨x, _ | ⟨y, _ | ⟨z, before⟩⟩⟩
    · simp only [List.nil_append, List.cons.injEq] at h
      obtain ⟨rfl, rfl⟩ := h
      exact ⟨rfl, Or.inr ⟨rfl, hd, _, _, (spells_iff (by omega)).mpr ⟨rfl, rfl⟩, rfl⟩⟩
    · simp only [List.cons_append, List.nil_append, List.cons.injEq] at h
      exact absurd (h.2.1 ▸ hc) hhigh
    · simp only [List.cons_append, List.nil_append, List.cons.injEq] at h
      exact absurd (h.2.2.1 ▸ hc) hlow
    · simp at h
  · have hmem : c ∈ [d] := by
      rw [← hpiece, h]
      exact List.mem_append_right _ List.mem_cons_self
    exact absurd (List.mem_singleton.mp hmem ▸ hc) hd

/-- **A reserved character in encoded text begins the piece of some
character.**  The induction is on the text that was encoded; its first piece
ends either before the reserved character or behind it. -/
theorem encode_eq_append_cons (hc : c ∈ reserved) (h : encode t = before ++ c :: after) :
    ∃ s d u, t = s ++ d :: u ∧ before = encode s ∧ BeginsPiece c after d u := by
  induction t generalizing before with
  | nil => simp [encode] at h
  | cons d t ih =>
      rw [encode_cons, List.append_eq_append_iff] at h
      have hlater : ∀ later, before = encodeChar d ++ later → encode t = later ++ c :: after →
          ∃ s d' u, d :: t = s ++ d' :: u ∧ before = encode s ∧ BeginsPiece c after d' u := by
        intro later hbefore hrest
        subst hbefore
        obtain ⟨s, d', u, rfl, rfl, hpiece⟩ := ih hrest
        exact ⟨d :: s, d', u, rfl, rfl, hpiece⟩
      rcases h with ⟨later, hbefore, hrest⟩ | ⟨piece, hpiece, hrest⟩
      · exact hlater later hbefore hrest
      · cases piece with
        | nil =>
            rw [List.append_nil] at hpiece
            exact hlater [] (by rw [hpiece, List.append_nil]) hrest.symm
        | cons x piece =>
            rw [List.cons_append, List.cons.injEq] at hrest
            obtain ⟨rfl, rfl⟩ := hrest
            obtain ⟨rfl, hshape⟩ := encodeChar_eq_append_cons hc hpiece
            refine ⟨[], d, t, rfl, rfl, ?_⟩
            rcases hshape with ⟨rfl, rfl, rfl⟩ | ⟨rfl, hd, high, low, hspells, rfl⟩
            · exact Or.inl ⟨rfl, rfl, rfl⟩
            · exact Or.inr ⟨rfl, hd, high, low, hspells, rfl⟩

/-- What stands in encoded text stands for itself, or is part of a piece that
does not. -/
theorem mem_encode_cases (h : c ∈ encode t) :
    (c ∈ t ∧ c ≠ ' ' ∧ c ∉ reserved) ∨ c ∈ '+' :: '%' :: upperDigits := by
  obtain ⟨d, hd, hc⟩ := List.mem_flatMap.mp h
  rcases encodeChar_cases d with ⟨-, hpiece⟩ | ⟨-, hsmall, hpiece⟩ | ⟨hspace, hplain, hpiece⟩
  · rw [hpiece, List.mem_singleton] at hc
    simp [hc]
  · have hhigh := List.mem_of_getElem? (upperDigits_getElem? (show d.toNat / 16 < 16 by omega))
    have hlow := List.mem_of_getElem? (upperDigits_getElem? (show d.toNat % 16 < 16 by omega))
    rw [hpiece] at hc
    simp only [List.mem_cons, List.not_mem_nil, or_false] at hc
    rcases hc with rfl | rfl | rfl
    · simp
    · simp [hhigh]
    · simp [hlow]
  · rw [hpiece, List.mem_singleton] at hc
    subst hc
    exact Or.inl ⟨hd, hspace, hplain⟩

theorem space_not_mem_encode (t : Text) : ' ' ∉ encode t := by
  intro h
  rcases mem_encode_cases h with ⟨-, hspace, -⟩ | hpiece
  · exact hspace rfl
  · exact absurd hpiece (by decide)

/-- Encoding brings no line feed in. -/
theorem lf_not_mem_encode (h : '\n' ∉ t) : '\n' ∉ encode t := by
  intro hmem
  rcases mem_encode_cases hmem with ⟨ht, -, -⟩ | hpiece
  · exact h ht
  · exact absurd hpiece (by decide)

/-- **Encoding and decoding are inverse on canonical text, and only there.**
Every encoded text is canonical; it holds no space, and a reserved character
only as the `+` that stands for a space or the `%` that opens the escape of a
reserved character. -/
theorem inverse_on_canonical :
    (∀ t, decode (encode t) = t) ∧
      (∀ e, encode (decode e) = e ↔ Canonical e) ∧
      (∀ t, Canonical (encode t) ∧ ' ' ∉ encode t ∧
        ∀ before c after, encode t = before ++ c :: after → c ∈ reserved →
          ∃ s d u, t = s ++ d :: u ∧ before = encode s ∧ BeginsPiece c after d u) := by
  refine ⟨decode_encode, ?_, ?_⟩
  · intro e
    rw [canonical_iff_encoded]
    constructor
    · intro h
      exact ⟨decode e, h.symm⟩
    · intro h
      obtain ⟨t, rfl⟩ := h
      rw [decode_encode]
  · intro t
    refine ⟨canonical_encode t, space_not_mem_encode t, ?_⟩
    intro before c after h hc
    exact encode_eq_append_cons hc h

/-- Digits in lower case are read, and written in upper case. -/
example :
    encode (decode ['%', '2', 'b', '+', '%', '2']) = ['%', '2', 'B', '+', '%', '2', '5', '2'] := by
  decide

end HttpWire.Percent
