import HttpWire.Fields.Basic

/-!
# The items of a disposition value

A disposition value is read here from its grammar, character by character and
without a machine.  `items` skips spaces and `;` and takes a name up to `;` or
`=`.  Behind `=`, `valuePart` looks for the first `"` or `;`: a quote opens a
value that runs to the next quote, and a `;` drops the name.

A value opens in one of four ways (`Opening`), and so does what stands behind
the `=` of a name (`ValueOpening`).  For each way one equation says what is
read; nothing later unfolds the two functions.
-/

namespace HttpWire.Disposition

/-- Whether a character may stand between parameters. -/
def isSeparator (c : Char) : Bool :=
  c = ' ' || c = ';'

/-- Whether a name goes on with a character. -/
def isNameChar (c : Char) : Bool :=
  c ≠ ';' && c ≠ '='

/-- Whether a character behind `=` is passed over. -/
def isJunkChar (c : Char) : Bool :=
  c ≠ '"' && c ≠ ';'

/-- What stands behind the `=` of a name: the quoted value, unless a `;` comes
before the opening quote, and the text behind.  There is nothing if the text
ends before. -/
def valuePart (t : Text) : Option (Option Text × Text) :=
  match t.dropWhile isJunkChar with
  | [] => none
  | mark :: rest =>
    if mark = ';' then some (none, rest)
    else (Text.cutAt '"' rest).map fun parts => (some parts.1, parts.2)

/-- What stands behind the first character that is not dropped is shorter than the
whole. -/
theorem length_lt_of_dropWhile {p : Char → Bool} {t rest : Text} {c : Char}
    (h : t.dropWhile p = c :: rest) : rest.length < t.length := by
  have hle := (List.dropWhile_suffix p : t.dropWhile p <:+ t).length_le
  rw [h, List.length_cons] at hle
  exact hle

/-- The text behind a value is shorter than the text in which the value was found. -/
theorem length_lt_of_valuePart {t rest : Text} {value : Option Text}
    (h : valuePart t = some (value, rest)) : rest.length < t.length := by
  unfold valuePart at h
  split at h
  · exact absurd h (by simp)
  · rename_i mark behind hdrop
    have hlt := length_lt_of_dropWhile hdrop
    split at h
    · simp only [Option.some.injEq, Prod.mk.injEq] at h
      rw [← h.2]
      exact hlt
    · obtain ⟨parts, hcut, hparts⟩ := Option.map_eq_some_iff.mp h
      obtain ⟨hbehind, -⟩ := Text.cutAt_eq_some_iff.mp hcut
      rw [Prod.mk.injEq] at hparts
      rw [← hparts.2]
      rw [hbehind, List.length_append, List.length_cons] at hlt
      omega

/-- The parameters of a disposition value, in order. -/
def items (t : Text) : List Entry :=
  match _hgap : t.dropWhile isSeparator with
  | [] => []
  | c :: body =>
    let name := c :: body.takeWhile isNameChar
    match _hname : body.dropWhile isNameChar with
    | [] => [(name, [])]
    | mark :: after =>
      if mark = ';' then (name, []) :: items after
      else
        match _hvalue : valuePart after with
        | none => []
        | some (none, rest) => items rest
        | some (some value, rest) => (name, value) :: items rest
termination_by t.length
decreasing_by
  · have h1 := length_lt_of_dropWhile _hgap
    have h2 := length_lt_of_dropWhile _hname
    omega
  · have h1 := length_lt_of_dropWhile _hgap
    have h2 := length_lt_of_dropWhile _hname
    have h3 := length_lt_of_valuePart _hvalue
    omega
  · have h1 := length_lt_of_dropWhile _hgap
    have h2 := length_lt_of_dropWhile _hname
    have h3 := length_lt_of_valuePart _hvalue
    omega

/-- One turn of the reading. -/
theorem items_eq (t : Text) :
    items t =
      match t.dropWhile isSeparator with
      | [] => []
      | c :: body =>
        match body.dropWhile isNameChar with
        | [] => [(c :: body.takeWhile isNameChar, [])]
        | mark :: after =>
          if mark = ';' then (c :: body.takeWhile isNameChar, []) :: items after
          else
            match valuePart after with
            | none => []
            | some (none, rest) => items rest
            | some (some value, rest) => (c :: body.takeWhile isNameChar, value) :: items rest := by
  rw [items]
  split
  · rename_i hgap
    rw [hgap]
  · rename_i c body hgap
    rw [hgap]
    dsimp only
    split
    · rename_i hname
      rw [hname]
    · rename_i mark after hname
      rw [hname]
      dsimp only
      split
      · rfl
      · split
        · rename_i hvalue
          rw [hvalue]
        · rename_i hvalue
          rw [hvalue]
        · rename_i hvalue
          rw [hvalue]

/-! ## The parts of a value -/

/-- What may stand between parameters. -/
def IsGap (gap : Text) : Prop :=
  ∀ c ∈ gap, c = ' ' ∨ c = ';'

/-- The name of a parameter: its first character may not stand between
parameters, and none of the others ends a name. -/
def IsName : Text → Prop
  | [] => False
  | c :: rest => (c ≠ ' ' ∧ c ≠ ';') ∧ ';' ∉ rest ∧ '=' ∉ rest

/-- What is passed over behind `=`. -/
def IsJunk (junk : Text) : Prop :=
  '"' ∉ junk ∧ ';' ∉ junk

instance (gap : Text) : Decidable (IsGap gap) :=
  List.decidableBAll (fun c => c = ' ' ∨ c = ';') gap

instance : (name : Text) → Decidable (IsName name)
  | [] => inferInstanceAs (Decidable False)
  | c :: rest => inferInstanceAs (Decidable ((c ≠ ' ' ∧ c ≠ ';') ∧ ';' ∉ rest ∧ '=' ∉ rest))

instance (junk : Text) : Decidable (IsJunk junk) :=
  inferInstanceAs (Decidable ('"' ∉ junk ∧ ';' ∉ junk))

/-- How a disposition value opens. -/
inductive Opening : Text → Prop where
  | blank {gap : Text} (hgap : IsGap gap) : Opening gap
  | last {gap name : Text} (hgap : IsGap gap) (hname : IsName name) : Opening (gap ++ name)
  | bare {gap name after : Text} (hgap : IsGap gap) (hname : IsName name) :
      Opening (gap ++ (name ++ ';' :: after))
  | valued {gap name after : Text} (hgap : IsGap gap) (hname : IsName name) :
      Opening (gap ++ (name ++ '=' :: after))

/-- How the text behind the `=` of a name opens. -/
inductive ValueOpening : Text → Prop where
  | junk {junk : Text} (hjunk : IsJunk junk) : ValueOpening junk
  | unquoted {junk after : Text} (hjunk : IsJunk junk) : ValueOpening (junk ++ ';' :: after)
  | unclosed {junk value : Text} (hjunk : IsJunk junk) (hvalue : '"' ∉ value) :
      ValueOpening (junk ++ '"' :: value)
  | quoted {junk value after : Text} (hjunk : IsJunk junk) (hvalue : '"' ∉ value) :
      ValueOpening (junk ++ '"' :: (value ++ '"' :: after))

/-- A text is a run of characters that pass a test, and a rest that begins with
none. -/
theorem exists_span (p : Char → Bool) (t : Text) :
    ∃ run rest, t = run ++ rest ∧ (∀ c ∈ run, p c = true) ∧
      (rest = [] ∨ ∃ mark after, rest = mark :: after ∧ p mark = false) := by
  refine ⟨t.takeWhile p, t.dropWhile p, List.takeWhile_append_dropWhile.symm,
    List.all_eq_true.mp List.all_takeWhile, ?_⟩
  have hhead := List.head?_dropWhile_not p t
  cases hrest : t.dropWhile p with
  | nil => exact Or.inl rfl
  | cons mark after =>
      rw [hrest] at hhead
      exact Or.inr ⟨mark, after, rfl, hhead⟩

/-- A run of characters that are dropped is dropped whole, and nothing else. -/
theorem dropWhile_span {p : Char → Bool} {run rest : Text} (hrun : ∀ c ∈ run, p c = true)
    (hrest : ∀ c ∈ rest.head?, p c = false) : (run ++ rest).dropWhile p = rest := by
  rw [List.dropWhile_append_of_pos hrun]
  cases rest with
  | nil => rfl
  | cons c rest => exact List.dropWhile_cons_of_neg (by simp [hrest c rfl])

/-- A run of characters that are taken is taken whole, and nothing else. -/
theorem takeWhile_span {p : Char → Bool} {run rest : Text} (hrun : ∀ c ∈ run, p c = true)
    (hrest : ∀ c ∈ rest.head?, p c = false) : (run ++ rest).takeWhile p = run := by
  rw [List.takeWhile_append_of_pos hrun]
  cases rest with
  | nil => simp
  | cons c rest => rw [List.takeWhile_cons_of_neg (by simp [hrest c rfl]), List.append_nil]

theorem isGap_iff {gap : Text} : IsGap gap ↔ ∀ c ∈ gap, isSeparator c = true := by
  simp [IsGap, isSeparator]

theorem isJunk_iff {junk : Text} : IsJunk junk ↔ ∀ c ∈ junk, isJunkChar c = true := by
  simp only [IsJunk, isJunkChar, Bool.and_eq_true, decide_eq_true_eq]
  constructor
  · intro h c hc
    exact ⟨fun hquote => h.1 (hquote ▸ hc), fun hsemicolon => h.2 (hsemicolon ▸ hc)⟩
  · intro h
    exact ⟨fun hc => (h _ hc).1 rfl, fun hc => (h _ hc).2 rfl⟩

/-- A name begins with a character that may not stand between parameters, and goes
on with characters of names. -/
theorem isName_cons_iff {c : Char} {rest : Text} :
    IsName (c :: rest) ↔ isSeparator c = false ∧ ∀ d ∈ rest, isNameChar d = true := by
  simp only [IsName, isSeparator, isNameChar, Bool.and_eq_true, decide_eq_true_eq,
    Bool.or_eq_false_iff, decide_eq_false_iff_not]
  constructor
  · intro h
    obtain ⟨hc, hsemicolon, hequals⟩ := h
    refine ⟨hc, ?_⟩
    intro d hd
    exact ⟨fun h => hsemicolon (h ▸ hd), fun h => hequals (h ▸ hd)⟩
  · intro h
    exact ⟨h.1, fun hd => (h.2 _ hd).1 rfl, fun hd => (h.2 _ hd).2 rfl⟩

/-- **Every value opens in one of the four ways.** -/
theorem opening (t : Text) : Opening t := by
  obtain ⟨gap, rest, rfl, hgap, rfl | ⟨c, body, rfl, hc⟩⟩ := exists_span isSeparator t
  · rw [List.append_nil]
    exact Opening.blank (isGap_iff.mpr hgap)
  · obtain ⟨run, rest, rfl, hrun, hend⟩ := exists_span isNameChar body
    have hname : IsName (c :: run) := isName_cons_iff.mpr ⟨hc, hrun⟩
    rcases hend with rfl | ⟨mark, after, rfl, hmark⟩
    · rw [List.append_nil]
      exact Opening.last (isGap_iff.mpr hgap) hname
    · rw [← List.cons_append]
      by_cases hsemicolon : mark = ';'
      · rw [hsemicolon]
        exact Opening.bare (isGap_iff.mpr hgap) hname
      · have hequals : mark = '=' := by simpa [isNameChar, hsemicolon] using hmark
        rw [hequals]
        exact Opening.valued (isGap_iff.mpr hgap) hname

/-- Every text behind an `=` opens in one of these ways. -/
theorem valueOpening (t : Text) : ValueOpening t := by
  obtain ⟨junk, rest, rfl, hjunk, rfl | ⟨mark, after, rfl, hmark⟩⟩ := exists_span isJunkChar t
  · rw [List.append_nil]
    exact ValueOpening.junk (isJunk_iff.mpr hjunk)
  · by_cases hsemicolon : mark = ';'
    · rw [hsemicolon]
      exact ValueOpening.unquoted (isJunk_iff.mpr hjunk)
    · have hquote : mark = '"' := by simpa [isJunkChar, hsemicolon] using hmark
      rw [hquote]
      by_cases hclosed : '"' ∈ after
      · obtain ⟨value, rest, rfl, hvalue⟩ := List.eq_append_cons_of_mem hclosed
        exact ValueOpening.quoted (isJunk_iff.mpr hjunk) hvalue
      · exact ValueOpening.unclosed (isJunk_iff.mpr hjunk) hclosed

/-! ## What is read -/

variable {gap name junk value after : Text}

/-- Junk by itself is no value, and nothing stands behind it. -/
theorem valuePart_junk (hjunk : IsJunk junk) : valuePart junk = none := by
  have hdrop : (junk ++ []).dropWhile isJunkChar = [] :=
    dropWhile_span (isJunk_iff.mp hjunk) (by simp)
  rw [List.append_nil] at hdrop
  rw [valuePart, hdrop]

/-- A `;` that comes before any quote ends the parameter without a value. -/
theorem valuePart_unquoted (hjunk : IsJunk junk) :
    valuePart (junk ++ ';' :: after) = some (none, after) := by
  rw [valuePart, dropWhile_span (isJunk_iff.mp hjunk) (by simp [isJunkChar])]
  rfl

/-- Behind an opening quote the value goes on to the next quote, if there is one. -/
theorem valuePart_quote (hjunk : IsJunk junk) :
    valuePart (junk ++ '"' :: after) =
      (Text.cutAt '"' after).map fun parts => (some parts.1, parts.2) := by
  rw [valuePart, dropWhile_span (isJunk_iff.mp hjunk) (by simp [isJunkChar])]
  rfl

/-- A value that is not closed counts for nothing, and nothing stands behind it. -/
theorem valuePart_unclosed (hjunk : IsJunk junk) (hvalue : '"' ∉ value) :
    valuePart (junk ++ '"' :: value) = none := by
  rw [valuePart_quote hjunk, Text.cutAt_eq_none_iff.mpr hvalue]
  rfl

/-- A value that is closed is what stands between its quotes. -/
theorem valuePart_quoted (hjunk : IsJunk junk) (hvalue : '"' ∉ value) :
    valuePart (junk ++ '"' :: (value ++ '"' :: after)) = some (some value, after) := by
  rw [valuePart_quote hjunk, Text.cutAt_append hvalue]
  rfl

/-- What stands between parameters is no parameter. -/
theorem items_gap (hgap : IsGap gap) : items gap = [] := by
  have hdrop : (gap ++ []).dropWhile isSeparator = [] :=
    dropWhile_span (isGap_iff.mp hgap) (by simp)
  rw [List.append_nil] at hdrop
  rw [items_eq, hdrop]

/-- A gap in front is not read. -/
theorem items_gap_append (hgap : IsGap gap) : items (gap ++ after) = items after := by
  rw [items_eq (gap ++ after), items_eq after, List.dropWhile_append_of_pos (isGap_iff.mp hgap)]

/-- The name is found behind the gap, and ends where it ends. -/
theorem name_span {c : Char} {body : Text} (behind : Text) (hgap : IsGap gap)
    (hname : IsName (c :: body)) (hbehind : ∀ c ∈ behind.head?, isNameChar c = false) :
    (gap ++ (c :: body ++ behind)).dropWhile isSeparator = c :: (body ++ behind) ∧
      (body ++ behind).takeWhile isNameChar = body ∧
      (body ++ behind).dropWhile isNameChar = behind := by
  obtain ⟨hc, hbody⟩ := isName_cons_iff.mp hname
  exact ⟨dropWhile_span (isGap_iff.mp hgap) (by simpa using hc), takeWhile_span hbody hbehind,
    dropWhile_span hbody hbehind⟩

/-- A name at the end is a bare parameter. -/
theorem items_last (hgap : IsGap gap) (hname : IsName name) :
    items (gap ++ name) = [(name, [])] := by
  cases name with
  | nil => exact hname.elim
  | cons c body =>
      obtain ⟨hdrop, htake, hrest⟩ := name_span [] hgap hname (by simp)
      simp only [List.append_nil] at hdrop htake hrest
      rw [items_eq, hdrop]
      simp only [htake, hrest]

/-- A name in front of a `;` is a bare parameter. -/
theorem items_bare (hgap : IsGap gap) (hname : IsName name) :
    items (gap ++ (name ++ ';' :: after)) = (name, []) :: items after := by
  cases name with
  | nil => exact hname.elim
  | cons c body =>
      obtain ⟨hdrop, htake, hrest⟩ :=
        name_span (';' :: after) hgap hname (by simp [isNameChar])
      rw [items_eq, hdrop]
      simp only [htake, hrest, if_true]

/-- What a name with `=` comes to is a matter of the text behind the `=`. -/
theorem items_valued (hgap : IsGap gap) (hname : IsName name) :
    items (gap ++ (name ++ '=' :: after)) =
      match valuePart after with
      | none => []
      | some (none, rest) => items rest
      | some (some value, rest) => (name, value) :: items rest := by
  cases name with
  | nil => exact hname.elim
  | cons c body =>
      obtain ⟨hdrop, htake, hrest⟩ :=
        name_span ('=' :: after) hgap hname (by simp [isNameChar])
      rw [items_eq, hdrop]
      simp only [htake, hrest]
      rfl

/-- A name whose value has no quotes is dropped. -/
theorem items_unquoted (hgap : IsGap gap) (hname : IsName name) (hjunk : IsJunk junk) :
    items (gap ++ (name ++ '=' :: (junk ++ ';' :: after))) = items after := by
  rw [items_valued hgap hname, valuePart_unquoted hjunk]

/-- A name with a value between quotes is a parameter with that value. -/
theorem items_quoted (hgap : IsGap gap) (hname : IsName name) (hjunk : IsJunk junk)
    (hvalue : '"' ∉ value) :
    items (gap ++ (name ++ '=' :: (junk ++ '"' :: (value ++ '"' :: after)))) =
      (name, value) :: items after := by
  rw [items_valued hgap hname, valuePart_quoted hjunk hvalue]

end HttpWire.Disposition
