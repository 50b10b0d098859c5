import HttpWire.Text.Utf8.Lemmas

/-!
# Slices by octet offset

A position in a text is counted in octets of its UTF-8 form.  Not every
position lies between two characters, so cutting there may fail: `splitOctets?`
gives `none` past the end and inside a character.  A `Span` is a pair of
positions, and `slice?` is the text between them.

A place where a text can be cut is one that is not past its end and not inside
a character (`IsCut`), and a slice can be taken exactly between two such places
(`isSome_slice?_iff`).  Every place beside an ASCII octet is one.
-/

namespace HttpWire.Text

/-- The two parts of a text at an octet offset, or `none` if the offset is
past the end or inside a character. -/
def splitOctets? : Nat → Text → Option (Text × Text)
  | 0, t => some ([], t)
  | _ + 1, [] => none
  | n + 1, c :: rest =>
    if c.utf8Size ≤ n + 1 then
      (splitOctets? (n + 1 - c.utf8Size) rest).map fun parts =>
        (c :: parts.1, parts.2)
    else none

/-- **A cut at an octet offset cuts between two characters**, and the octets
before it are those of the first part. -/
theorem splitOctets?_eq_some_iff {n : Nat} {t before after : Text} :
    splitOctets? n t = some (before, after) ↔
      t = before ++ after ∧ (Utf8.encode before).length = n := by
  induction t generalizing n before with
  | nil =>
    cases n with
    | zero => cases before <;> simp [splitOctets?, Utf8.encode, eq_comm]
    | succ n => cases before <;> simp [splitOctets?, Utf8.encode]
  | cons c rest ih =>
    have hpos := c.utf8Size_pos
    cases n with
    | zero =>
      cases before with
      | nil => simp [splitOctets?, Utf8.encode, eq_comm]
      | cons d tail =>
        have hd := d.utf8Size_pos
        simp only [splitOctets?, Utf8.encode_cons, List.length_append,
          String.length_utf8EncodeChar, Option.some.injEq, Prod.mk.injEq]
        constructor
        · rintro ⟨h, -⟩
          exact absurd h (by simp)
        · rintro ⟨-, h⟩
          omega
    | succ n =>
      cases before with
      | nil => simp [splitOctets?, Utf8.encode]
      | cons d tail =>
        simp only [splitOctets?, Utf8.encode_cons, List.length_append,
          String.length_utf8EncodeChar, List.cons_append, List.cons.injEq]
        split
        · rename_i hle
          simp only [Option.map_eq_some_iff, Prod.mk.injEq, List.cons.injEq, Prod.exists]
          constructor
          · rintro ⟨a, b, hcut, ⟨rfl, rfl⟩, rfl⟩
            obtain ⟨hrest, hlen⟩ := ih.mp hcut
            exact ⟨⟨rfl, hrest⟩, by omega⟩
          · rintro ⟨⟨rfl, hrest⟩, hlen⟩
            exact ⟨tail, after, ih.mpr ⟨hrest, by omega⟩, ⟨rfl, rfl⟩, rfl⟩
        · rename_i hle
          constructor
          · intro h
            exact absurd h (by simp)
          · rintro ⟨⟨rfl, -⟩, hlen⟩
            omega

/-- An octet offset falls inside a character: that character begins before it
and ends behind it. -/
def InsideChar (n : Nat) (t : Text) : Prop :=
  ∃ before c after, t = before ++ c :: after ∧ (Utf8.encode before).length < n ∧
    n < (Utf8.encode before).length + c.utf8Size

/-- An offset behind the first character is an offset in the rest. -/
theorem insideChar_cons {n : Nat} {c : Char} {t : Text} (hle : c.utf8Size ≤ n) :
    InsideChar n (c :: t) ↔ InsideChar (n - c.utf8Size) t := by
  constructor
  · rintro ⟨before, d, after, heq, hlow, hhigh⟩
    cases before with
    | nil =>
      obtain ⟨rfl, -⟩ := List.cons.inj heq
      simp only [Utf8.encode, List.flatMap_nil, List.length_nil] at hhigh
      omega
    | cons b before =>
      obtain ⟨rfl, rfl⟩ := List.cons.inj heq
      simp only [Utf8.encode_cons, List.length_append, String.length_utf8EncodeChar] at hlow hhigh
      exact ⟨before, d, after, rfl, by omega, by omega⟩
  · rintro ⟨before, d, after, rfl, hlow, hhigh⟩
    refine ⟨c :: before, d, after, rfl, ?_, ?_⟩ <;>
      simp only [Utf8.encode_cons, List.length_append, String.length_utf8EncodeChar] <;> omega

/-- **A cut fails past the end and inside a character**, and nowhere else. -/
theorem splitOctets?_eq_none_iff {n : Nat} {t : Text} :
    splitOctets? n t = none ↔ (Utf8.encode t).length < n ∨ InsideChar n t := by
  induction t generalizing n with
  | nil => cases n <;> simp [splitOctets?, Utf8.encode, InsideChar]
  | cons c rest ih =>
    cases n with
    | zero => simp [splitOctets?, InsideChar]
    | succ n =>
      by_cases hle : c.utf8Size ≤ n + 1
      · rw [splitOctets?, if_pos hle, Option.map_eq_none_iff, ih, insideChar_cons hle,
          Utf8.encode_cons, List.length_append, String.length_utf8EncodeChar]
        refine or_congr_left ?_
        omega
      · have hinside : InsideChar (n + 1) (c :: rest) := by
          refine ⟨[], c, rest, rfl, ?_, ?_⟩ <;>
            simp only [Utf8.encode, List.flatMap_nil, List.length_nil] <;> omega
        rw [splitOctets?, if_neg hle]
        exact iff_of_true rfl (Or.inr hinside)

/-- A range of octet offsets, from `start` up to but not including `stop`. -/
structure Span where
  start : Nat
  stop : Nat
  deriving DecidableEq, Repr

/-- The text of a span, or `none` if the span is reversed, runs past the end
or has an end inside a character. -/
def slice? (t : Text) (s : Span) : Option Text := do
  guard (s.start ≤ s.stop)
  let (_, tail) ← splitOctets? s.start t
  let (middle, _) ← splitOctets? (s.stop - s.start) tail
  return middle

/-- **A slice is what stands between two cuts.** -/
theorem slice?_eq_some_iff {t middle : Text} {s : Span} :
    slice? t s = some middle ↔
      ∃ before after, t = before ++ (middle ++ after) ∧ (Utf8.encode before).length = s.start ∧
        (Utf8.encode before).length + (Utf8.encode middle).length = s.stop := by
  have hguard : (guard (s.start ≤ s.stop) : Option Unit) =
      if s.start ≤ s.stop then some () else none := rfl
  rw [slice?, hguard]
  simp only [Option.bind_eq_bind, Option.bind_eq_some_iff, Option.ite_none_right_eq_some,
    Option.pure_def, Option.some.injEq, Prod.exists, splitOctets?_eq_some_iff]
  constructor
  · rintro ⟨-, ⟨hle, -⟩, before, tail, ⟨rfl, hbefore⟩, _, after, ⟨rfl, hmiddle⟩, rfl⟩
    exact ⟨before, after, rfl, hbefore, by omega⟩
  · rintro ⟨before, after, rfl, hbefore, hstop⟩
    exact ⟨(), ⟨by omega, trivial⟩, before, _, ⟨rfl, hbefore⟩, middle, after, ⟨rfl, by omega⟩, rfl⟩

/-- A slice of a text is one of any longer text. -/
theorem slice?_append_of_some {t middle : Text} {s : Span} (h : slice? t s = some middle)
    (rest : Text) : slice? (t ++ rest) s = some middle := by
  obtain ⟨before, after, rfl, hstart, hstop⟩ := slice?_eq_some_iff.mp h
  exact slice?_eq_some_iff.mpr ⟨before, after ++ rest, by simp, hstart, hstop⟩

/-- A slice up to the end of the first part of a text is a slice of that
part. -/
theorem slice?_append (n : Nat) (front back : Text) :
    slice? (front ++ back) ⟨n, (Utf8.encode front).length⟩ =
      (splitOctets? n front).map (·.2) := by
  ext middle
  simp only [Option.map_eq_some_iff, Prod.exists, exists_eq_right, splitOctets?_eq_some_iff,
    slice?_eq_some_iff]
  constructor
  · rintro ⟨before, after, heq, hn, hstop⟩
    -- Both parts end at the same offset of one text, so they are the same part.
    have hfront : splitOctets? (Utf8.encode front).length (front ++ back) = some (front, back) :=
      splitOctets?_eq_some_iff.mpr ⟨rfl, rfl⟩
    have hpieces : splitOctets? (Utf8.encode front).length (front ++ back) =
        some (before ++ middle, after) := by
      refine splitOctets?_eq_some_iff.mpr ⟨by rw [heq, List.append_assoc], ?_⟩
      rw [Utf8.encode_append, List.length_append, hstop]
    rw [hfront, Option.some.injEq, Prod.mk.injEq] at hpieces
    exact ⟨before, hpieces.1, hn⟩
  · rintro ⟨before, rfl, hn⟩
    refine ⟨before, back, List.append_assoc _ _ _, hn, ?_⟩
    rw [Utf8.encode_append, List.length_append]

/-! ## Where a text can be cut -/

/-- A place where a text can be cut: not past its end, and not inside a
character. -/
def IsCut (n : Nat) (t : Text) : Prop :=
  n ≤ (Utf8.encode t).length ∧ ¬ InsideChar n t

/-- A text can be cut at just the offsets where it can be split. -/
theorem isCut_iff {n : Nat} {t : Text} : IsCut n t ↔ (splitOctets? n t).isSome = true := by
  rw [Option.isSome_iff_ne_none, ne_eq, splitOctets?_eq_none_iff, not_or, Nat.not_lt]
  rfl

/-- An offset inside a character stays inside it with more text behind. -/
theorem InsideChar.append {n : Nat} {t : Text} (h : InsideChar n t) (rest : Text) :
    InsideChar n (t ++ rest) := by
  obtain ⟨before, c, after, rfl, hlow, hhigh⟩ := h
  exact ⟨before, c, after ++ rest, by rw [List.append_assoc, List.cons_append], hlow, hhigh⟩

/-- A text can be cut where two parts of it meet. -/
theorem isCut_length (before after : Text) :
    IsCut (Utf8.encode before).length (before ++ after) := by
  rw [isCut_iff, splitOctets?_eq_some_iff.mpr ⟨rfl, rfl⟩]
  rfl

/-- A span whose ends are in order and places where the text can be cut. -/
structure Span.CutsOut (s : Span) (t : Text) : Prop where
  ordered : s.start ≤ s.stop
  start_cut : IsCut s.start t
  stop_cut : IsCut s.stop t

/-- **A slice can be taken exactly of a span that can be cut out.** -/
theorem isSome_slice?_iff {t : Text} {s : Span} : (slice? t s).isSome = true ↔ s.CutsOut t := by
  constructor
  · intro h
    obtain ⟨middle, hmiddle⟩ := Option.isSome_iff_exists.mp h
    obtain ⟨before, after, rfl, hstart, hstop⟩ := slice?_eq_some_iff.mp hmiddle
    refine ⟨by omega, ?_, ?_⟩
    · rw [← hstart]
      exact isCut_length before _
    · have hcut := isCut_length (before ++ middle) after
      rwa [Utf8.encode_append, List.length_append, hstop, List.append_assoc] at hcut
  · intro h
    obtain ⟨parts, hparts⟩ := Option.isSome_iff_exists.mp (isCut_iff.mp h.stop_cut)
    obtain ⟨rfl, hstop⟩ := splitOctets?_eq_some_iff.mp hparts
    have hfront : IsCut s.start parts.1 :=
      ⟨by rw [hstop]; exact h.ordered, fun hinside => h.start_cut.2 (hinside.append parts.2)⟩
    have hslice := slice?_append s.start parts.1 parts.2
    rw [hstop] at hslice
    rw [hslice, Option.isSome_map]
    exact isCut_iff.mp hfront

/-- **On both sides of a place inside a character stand octets outside
ASCII.** -/
theorem InsideChar.le_toNat {n j : Nat} {t : Text} {b : UInt8} (h : InsideChar n t)
    (hbefore : n ≤ j + 1) (hbehind : j ≤ n) (hoctet : (Utf8.encode t)[j]? = some b) :
    128 ≤ b.toNat := by
  obtain ⟨before, c, after, rfl, hlow, hhigh⟩ := h
  have hlarge : 128 ≤ c.val.toNat := by
    rcases Nat.lt_or_ge c.val.toNat 128 with hsmall | hlarge
    · have hsize := String.length_utf8EncodeChar c
      rw [Utf8.encodeChar_of_lt hsmall, List.length_singleton] at hsize
      omega
    · exact hlarge
  have hchar : (String.utf8EncodeChar c)[j - (Utf8.encode before).length]? = some b := by
    rw [Utf8.encode_append, Utf8.encode_cons, List.getElem?_append_right (by omega),
      List.getElem?_append_left (by rw [String.length_utf8EncodeChar]; omega)] at hoctet
    exact hoctet
  exact Utf8.le_toNat_of_mem_encodeChar hlarge (List.mem_of_getElem? hchar)

/-- A text can be cut before and behind an ASCII octet. -/
theorem isCut_of_ascii {i : Nat} {t : Text} {b : UInt8} (hoctet : (Utf8.encode t)[i]? = some b)
    (hb : b.toNat < 128) : IsCut i t ∧ IsCut (i + 1) t := by
  obtain ⟨hlt, -⟩ := List.getElem?_eq_some_iff.mp hoctet
  have houtside : ∀ n, n ≤ i + 1 → i ≤ n → ¬ InsideChar n t := by
    intro n hbefore hbehind hinside
    have hlarge := hinside.le_toNat hbefore hbehind hoctet
    omega
  exact ⟨⟨by omega, houtside i (by omega) (by omega)⟩,
    ⟨by omega, houtside (i + 1) (by omega) (by omega)⟩⟩

end HttpWire.Text
