import HttpWire.Proofs.Percent.Escapes

/-!
# Decoding a text in two parts

Decoding the two parts of a text gives what decoding the whole gives, unless an
escape lies across the cut.  A `%` that is no escape stands for itself whether
its text goes on or not, so a malformed escape may be cut anywhere; and an
escape takes nothing of what stands behind it.  This is `decodeOctets_append`.

If an escape does lie across the cut, each part has a piece of it.  Neither
piece is an escape, so its three characters stand for themselves, and the parts
give two octets more than the whole (`length_decodeOctets_of_cutsEscape`).
Hence the parts give the whole exactly where no escape is cut
(`decodeOctets_append_iff`).

Which texts may be followed by anything is decided by their end alone: a text
that ends in `%`, or in `%` and one digit, is completed to an escape by some
other text, and no other text is (`exists_cutsEscape_iff`).
-/

namespace HttpWire.Percent

/-- The beginning of an escape, without its end. -/
inductive Unfinished : Text → Prop where
  | mark : Unfinished ['%']
  | digit {d : Char} {n : Nat} (hd : Digit d n) : Unfinished ['%', d]

/-- The text ends in the beginning of an escape. -/
def EndsOpen (a : Text) : Prop :=
  ∃ opening, Unfinished opening ∧ opening <:+ a

/-- An escape lies across the cut between two texts. -/
def CutsEscape (a b : Text) : Prop :=
  ∃ octet opening closing, Escape octet (opening ++ closing) ∧ opening ≠ [] ∧ closing ≠ [] ∧
    opening <:+ a ∧ closing <+: b

variable {c : Char} {octet : UInt8} {a b t rest opening closing : Text}

/-! ## Pieces of an escape -/

/-- **Where an escape is cut**, its beginning stands before the cut and nothing
but digits behind it. -/
theorem unfinished_of_escape (he : Escape octet (opening ++ closing)) (hopening : opening ≠ [])
    (hclosing : closing ≠ []) : Unfinished opening ∧ ∀ d ∈ closing, ∃ n, Digit d n := by
  generalize htext : opening ++ closing = text at he
  cases he with
  | @spell high low h l hhigh hlow hvalue =>
      rcases opening with _ | ⟨x, _ | ⟨y, _ | ⟨z, tail⟩⟩⟩
      · exact absurd rfl hopening
      · obtain ⟨rfl, rfl⟩ : x = '%' ∧ closing = [high, low] := by simpa using htext
        refine ⟨Unfinished.mark, ?_⟩
        intro d hd
        obtain rfl | rfl : d = high ∨ d = low := by simpa using hd
        · exact ⟨h, hhigh⟩
        · exact ⟨l, hlow⟩
      · obtain ⟨rfl, rfl, rfl⟩ : x = '%' ∧ y = high ∧ closing = [low] := by simpa using htext
        refine ⟨Unfinished.digit hhigh, ?_⟩
        intro d hd
        exact ⟨l, List.mem_singleton.mp hd ▸ hlow⟩
      · -- Three characters before the cut leave none behind it.
        have hlength := congrArg List.length htext
        simp only [List.length_append, List.length_cons, List.length_nil] at hlength
        exact absurd (List.length_eq_zero_iff.mp (by omega)) hclosing

/-- A beginning can be completed. -/
theorem Unfinished.exists_escape (h : Unfinished opening) :
    ∃ octet closing, closing ≠ [] ∧ Escape octet (opening ++ closing) := by
  have hzero : Digit '0' 0 := by decide
  cases h with
  | mark => exact ⟨0, ['0', '0'], by simp, Escape.spell hzero hzero rfl⟩
  | @digit d n hd =>
      refine ⟨UInt8.ofNat (16 * n), ['0'], by simp, Escape.spell hd hzero ?_⟩
      have hn := hd.lt
      rw [UInt8.toNat_ofNat']
      omega

/-- The beginning of an escape has its `%`. -/
theorem Unfinished.exists_cons (h : Unfinished opening) : ∃ tail, opening = '%' :: tail := by
  cases h with
  | mark => exact ⟨[], rfl⟩
  | digit hd => exact ⟨_, rfl⟩

/-- **A text can be completed by an escape exactly if it ends in the beginning
of one.** -/
theorem exists_cutsEscape_iff : (∃ b, CutsEscape a b) ↔ EndsOpen a := by
  constructor
  · intro h
    obtain ⟨b, octet, opening, closing, he, hopening, hclosing, hsuffix, -⟩ := h
    exact ⟨opening, (unfinished_of_escape he hopening hclosing).1, hsuffix⟩
  · intro h
    obtain ⟨opening, hopening, hsuffix⟩ := h
    obtain ⟨octet, closing, hclosing, he⟩ := hopening.exists_escape
    obtain ⟨tail, htail⟩ := hopening.exists_cons
    exact ⟨closing, octet, opening, closing, he, by simp [htail], hclosing, hsuffix,
      List.prefix_rfl⟩

/-- An escape that lies across a cut does so with more text in front. -/
theorem CutsEscape.of_suffix (h : CutsEscape t b) (ht : t <:+ a) : CutsEscape a b := by
  obtain ⟨octet, opening, closing, he, hopening, hclosing, hsuffix, hprefix⟩ := h
  exact ⟨octet, opening, closing, he, hopening, hclosing, hsuffix.trans ht, hprefix⟩

/-- No escape lies across a cut before `%`. -/
theorem not_cutsEscape_mark : ¬ CutsEscape a ('%' :: rest) := by
  intro h
  obtain ⟨octet, opening, closing, he, hopening, hclosing, -, hprefix⟩ := h
  obtain ⟨-, hdigits⟩ := unfinished_of_escape he hopening hclosing
  cases closing with
  | nil => exact hclosing rfl
  | cons d tail =>
      obtain ⟨rfl, -⟩ := List.cons_prefix_cons.mp hprefix
      obtain ⟨n, hd⟩ := hdigits _ List.mem_cons_self
      exact hd.ne_mark rfl

/-! ## Parts without an escape across the cut -/

/-- What is no escape does not become one by what follows. -/
theorem not_beginsEscape_append (hno : ¬ BeginsEscape (c :: rest))
    (hcut : ¬ CutsEscape (c :: rest) b) : ¬ BeginsEscape (c :: rest ++ b) := by
  intro h
  obtain ⟨octet, e, he, hprefix⟩ := h
  rcases List.prefix_or_prefix_of_prefix hprefix (List.prefix_append _ b) with hinside | hacross
  · exact hno ⟨octet, e, he, hinside⟩
  · obtain ⟨closing, rfl⟩ := hacross
    apply hcut
    refine ⟨octet, c :: rest, closing, he, List.cons_ne_nil c rest, ?_, List.suffix_rfl,
      (List.prefix_append_right_inj _).mp hprefix⟩
    rintro rfl
    exact hno ⟨octet, _, he, by simp⟩

/-- **Parts are decoded one by one where no escape is cut.**  The induction
reads the first part from the left. -/
theorem decodeOctets_append (hcut : ¬ CutsEscape a b) :
    decodeOctets (a ++ b) = decodeOctets a ++ decodeOctets b := by
  induction a using reading_induction with
  | nil => rfl
  | escape octet e rest he ih =>
      have hrest := ih fun h => hcut (h.of_suffix (List.suffix_append e rest))
      rw [List.append_assoc, decodeOctets_escape he, decodeOctets_escape he, hrest,
        List.cons_append]
  | char c rest hno ih =>
      have hrest := ih fun h => hcut (h.of_suffix (List.suffix_cons c rest))
      have hwhole : ¬ BeginsEscape (c :: (rest ++ b)) := not_beginsEscape_append hno hcut
      rw [List.cons_append, decodeOctets_cons hwhole, decodeOctets_cons hno, hrest,
        List.append_assoc]

/-! ## Parts with an escape across the cut -/

theorem length_literalChar (hc : c.val.toNat < 128) : (literalChar c).length = 1 := by
  unfold literalChar
  split
  · rfl
  · rw [Utf8.encodeChar_of_lt hc]
    rfl

/-- Digits outside an escape give one octet each. -/
theorem length_decodeOctets_digits (hdigits : ∀ d ∈ t, ∃ n, Digit d n) (rest : Text) :
    (decodeOctets (t ++ rest)).length = t.length + (decodeOctets rest).length := by
  induction t with
  | nil => simp
  | cons d t ih =>
      obtain ⟨n, hd⟩ := hdigits d List.mem_cons_self
      have hrest := ih fun c hc => hdigits c (List.mem_cons_of_mem _ hc)
      rw [List.cons_append, decodeOctets_cons (not_beginsEscape_of_ne hd.ne_mark),
        List.length_append, length_literalChar hd.octet.1, hrest, List.length_cons]
      omega

/-- So does the beginning of an escape at the end of a text. -/
theorem Unfinished.length_decodeOctets (h : Unfinished opening) :
    (decodeOctets opening).length = opening.length := by
  cases h with
  | mark => rfl
  | @digit d n hd =>
      have hno : ¬ BeginsEscape ['%', d] := by
        intro h
        obtain ⟨octet, e, he, hprefix⟩ := h
        have hlength := hprefix.length_le
        rw [he.length_eq] at hlength
        simp at hlength
      have hdigit := length_decodeOctets_digits (t := [d])
        (fun c hc => ⟨n, List.mem_singleton.mp hc ▸ hd⟩) []
      rw [decodeOctets_cons hno, List.length_append, length_literalChar (by decide)]
      simp only [List.append_nil] at hdigit
      rw [hdigit]
      rfl

/-- **A cut through an escape costs two octets more.** -/
theorem length_decodeOctets_of_cutsEscape (hcut : CutsEscape a b) :
    (decodeOctets a).length + (decodeOctets b).length = (decodeOctets (a ++ b)).length + 2 := by
  obtain ⟨octet, opening, closing, he, hopening, hclosing, ⟨before, rfl⟩, ⟨behind, rfl⟩⟩ := hcut
  obtain ⟨hunfinished, hdigits⟩ := unfinished_of_escape he hopening hclosing
  obtain ⟨tail, htail⟩ := hunfinished.exists_cons
  have hwhole : decodeOctets (before ++ opening ++ (closing ++ behind)) =
      decodeOctets before ++ octet :: decodeOctets behind := by
    have hmark : ¬ CutsEscape before (opening ++ closing ++ behind) := by
      rw [htail]
      exact not_cutsEscape_mark
    rw [← decodeOctets_escape he, ← decodeOctets_append hmark]
    simp only [List.append_assoc]
  have hfirst : decodeOctets (before ++ opening) = decodeOctets before ++ decodeOctets opening := by
    rw [htail]
    exact decodeOctets_append not_cutsEscape_mark
  have hsecond := length_decodeOctets_digits hdigits behind
  have hlength := he.length_eq
  rw [List.length_append] at hlength
  rw [hwhole, hfirst, hsecond, List.length_append, List.length_append, List.length_cons,
    hunfinished.length_decodeOctets]
  omega

/-- **The parts give the whole exactly where no escape is cut.** -/
theorem decodeOctets_append_iff :
    decodeOctets (a ++ b) = decodeOctets a ++ decodeOctets b ↔ ¬ CutsEscape a b := by
  refine ⟨?_, decodeOctets_append⟩
  intro heq hcut
  have hlength := length_decodeOctets_of_cutsEscape hcut
  rw [heq, List.length_append] at hlength
  omega

/-- **A text may be followed by anything exactly if its end is no beginning of
an escape**, that is, if it ends neither in `%` nor in `%` and one digit. -/
theorem decodeOctets_append_iff_not_endsOpen (a : Text) :
    (∀ b, decodeOctets (a ++ b) = decodeOctets a ++ decodeOctets b) ↔ ¬ EndsOpen a := by
  simp only [decodeOctets_append_iff, ← exists_cutsEscape_iff, not_exists]

/-- A `%` behind another begins an escape that a digit and a second text
complete; the first is no part of it. -/
example : decodeOctets (['%', '%', '4'] ++ ['1']) = [37, 65] ∧
    decodeOctets ['%', '%', '4'] ++ decodeOctets ['1'] = [37, 37, 52, 49] := by
  decide

end HttpWire.Percent
