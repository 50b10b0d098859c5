import HttpWire.Disposition.Basic
import HttpWire.Proofs.Disposition.Items

/-!
# The scan finds the items

The machine that scans a disposition value goes by octets and remembers
offsets; `items` goes by characters and remembers text.  They meet where the
value is between two parameters.  From there both go through the same opening:
octets that do not move the machine only move the offset
(`scanFrom_append_of_stays`), and the four marks that do move it are ASCII, so
they are found among the octets of a text only where they are characters of it.

So the machine is at the offset of a character whenever it leaves a phase, and
the spans that it gives are those of the name and the value that `items` reads
(`map_entry?_scanFrom`).  A quote that is the last octet opens nothing, and
with nothing behind it no value could be closed.
-/

namespace HttpWire.Disposition

open Text (Span)

/-- The number of octets of a text. -/
abbrev width (t : Text) : Nat :=
  (Utf8.encode t).length

variable {t before gap name junk value middle after : Text} {i start : Nat} {label span : Span}

/-- The widths of two texts in a row add up. -/
theorem width_append (s t : Text) : width (s ++ t) = width s + width t := by
  rw [width, Utf8.encode_append, List.length_append]

theorem width_nil : width [] = 0 := rfl

/-- An ASCII character is one octet wide. -/
theorem width_cons {c : Char} (hc : c.val.toNat < 128) (t : Text) :
    width (c :: t) = 1 + width t := by
  rw [width, Utf8.encode_cons, Utf8.encodeChar_of_lt hc, List.length_append]
  rfl

/-- The octets of a name: one that starts it, and others that do not end it. -/
theorem encode_name (hname : IsName name) :
    ∃ b tail, Utf8.encode name = b :: tail ∧ ¬ (b = space ∨ b = semicolon) ∧
      ∀ d ∈ tail, d ≠ semicolon ∧ d ≠ equals := by
  cases name with
  | nil => exact hname.elim
  | cons c body =>
      obtain ⟨⟨hspace, hsemicolon⟩, hbody⟩ := hname
      obtain ⟨b, tail, hoctets, htail⟩ := Utf8.encodeChar_eq_cons c
      have hfirst : ∀ d : Char, d.val.toNat < 128 → d ≠ c → b ≠ UInt8.ofNat d.val.toNat := by
        intro d hd hne
        apply Utf8.ne_of_mem_encode (t := [c]) hd (by simpa using hne)
        rw [Utf8.encode_singleton, hoctets]
        exact List.mem_cons_self
      refine ⟨b, tail ++ Utf8.encode body, ?_, ?_, ?_⟩
      · rw [Utf8.encode_cons, hoctets, List.cons_append]
      · intro hseparator
        rcases hseparator with h | h
        · exact hfirst ' ' (by decide) hspace.symm h
        · exact hfirst ';' (by decide) hsemicolon.symm h
      · intro d hd
        rcases List.mem_append.mp hd with hd | hd
        · have hlarge := htail d hd
          constructor
          · intro h
            exact absurd (h ▸ hlarge) (by decide)
          · intro h
            exact absurd (h ▸ hlarge) (by decide)
        · exact ⟨Utf8.ne_of_mem_encode (c := ';') (by decide) hbody.1 d hd,
            Utf8.ne_of_mem_encode (c := '=') (by decide) hbody.2 d hd⟩

/-! ## Moving through a text -/

/-- **Octets that leave the machine where it is** only move the offset. -/
theorem scanFrom_append_of_stays {phase : Phase} {octets : Octets}
    (hstay : ∀ b ∈ octets, ∀ isLast i, phase.step isLast i b = (phase, none))
    (i : Nat) (rest : Octets) :
    scanFrom i phase (octets ++ rest) = scanFrom (i + octets.length) phase rest := by
  induction octets generalizing i with
  | nil => rfl
  | cons b octets ih =>
      have hlater := ih (fun d hd => hstay d (List.mem_cons_of_mem _ hd)) (i + 1)
      have hoffset : i + (b :: octets).length = i + 1 + octets.length := by
        rw [List.length_cons]
        omega
      rw [List.cons_append, scanFrom, hstay b List.mem_cons_self, hoffset]
      exact hlater

/-- The scan goes on between parameters until a gap is over. -/
theorem scanFrom_gap_append (hgap : IsGap gap) (i : Nat) (rest : Octets) :
    scanFrom i .between (Utf8.encode gap ++ rest) = scanFrom (i + width gap) .between rest := by
  apply scanFrom_append_of_stays
  intro b hb isLast j
  have hoctet : b = space ∨ b = semicolon := by
    obtain ⟨c, hc, hb⟩ := List.mem_flatMap.mp hb
    rcases hgap c hc with rfl | rfl
    · exact Or.inl (List.mem_singleton.mp hb)
    · exact Or.inr (List.mem_singleton.mp hb)
  exact if_pos hoctet

/-- **The first octet of a name starts it**, and the others do not end it. -/
theorem scanFrom_name_append (hname : IsName name) (i : Nat) (rest : Octets) :
    scanFrom i .between (Utf8.encode name ++ rest) =
      scanFrom (i + width name) (.inName i) rest := by
  obtain ⟨b, tail, hencode, hstart, htail⟩ := encode_name hname
  have hstay : ∀ d ∈ tail, ∀ isLast j,
      Phase.step isLast j d (.inName i) = (.inName i, none) := by
    intro d hd isLast j
    obtain ⟨hsemicolon, hequals⟩ := htail d hd
    simp only [Phase.step, if_neg hsemicolon, if_neg hequals]
  have hoffset : i + width name = i + 1 + tail.length := by
    rw [width, hencode, List.length_cons]
    omega
  rw [hencode, List.cons_append, scanFrom, hoffset]
  simp only [Phase.step, if_neg hstart]
  exact scanFrom_append_of_stays hstay (i + 1) rest

/-- The scan goes on to look for a quote while there is nothing but junk. -/
theorem scanFrom_junk_append (hjunk : IsJunk junk) (i : Nat) (rest : Octets) :
    scanFrom i (.beforeQuote label) (Utf8.encode junk ++ rest) =
      scanFrom (i + width junk) (.beforeQuote label) rest := by
  apply scanFrom_append_of_stays
  intro b hb isLast j
  have hquote : ¬ (b = quote ∧ (!isLast) = true) :=
    fun h => Utf8.ne_of_mem_encode (c := '"') (by decide) hjunk.1 b hb h.1
  have hsemicolon : b ≠ semicolon := Utf8.ne_of_mem_encode (c := ';') (by decide) hjunk.2 b hb
  simp only [Phase.step, if_neg hquote, if_neg hsemicolon]

/-- The scan stays within a value while there is no quote. -/
theorem scanFrom_value_append (hvalue : '"' ∉ value) (i : Nat) (rest : Octets) :
    scanFrom i (.inQuotes label start) (Utf8.encode value ++ rest) =
      scanFrom (i + width value) (.inQuotes label start) rest := by
  apply scanFrom_append_of_stays
  intro b hb isLast j
  exact if_neg (Utf8.ne_of_mem_encode (c := '"') (by decide) hvalue b hb)

/-! ## What is found -/

/-- In a gap at the end nothing is found. -/
theorem scanFrom_blank (hgap : IsGap gap) : scanFrom i .between (Utf8.encode gap) = [] := by
  have h := scanFrom_gap_append hgap i []
  rw [List.append_nil] at h
  exact h

/-- A name that ends the text is found without a value. -/
theorem scanFrom_last (hgap : IsGap gap) (hname : IsName name) :
    scanFrom i .between (Utf8.encode (gap ++ name)) =
      [⟨⟨i + width gap, i + width gap + width name⟩, none⟩] := by
  have h := scanFrom_name_append hname (i + width gap) []
  rw [List.append_nil] at h
  rw [Utf8.encode_append, scanFrom_gap_append hgap, h]
  rfl

/-- A name in front of a `;` is found without a value, and the scan goes on behind
the `;`. -/
theorem scanFrom_bare (hgap : IsGap gap) (hname : IsName name) :
    scanFrom i .between (Utf8.encode (gap ++ (name ++ ';' :: after))) =
      ⟨⟨i + width gap, i + width gap + width name⟩, none⟩ ::
        scanFrom (i + width gap + width name + 1) .between (Utf8.encode after) := by
  rw [Utf8.encode_append, Utf8.encode_append, scanFrom_gap_append hgap, scanFrom_name_append hname]
  rfl

/-- Behind a name and its `=` the scan looks for a quote, and keeps where the name
is. -/
theorem scanFrom_valued (hgap : IsGap gap) (hname : IsName name) :
    scanFrom i .between (Utf8.encode (gap ++ (name ++ '=' :: after))) =
      scanFrom (i + width gap + width name + 1)
        (.beforeQuote ⟨i + width gap, i + width gap + width name⟩) (Utf8.encode after) := by
  rw [Utf8.encode_append, Utf8.encode_append, scanFrom_gap_append hgap, scanFrom_name_append hname]
  rfl

/-- Where no quote comes any more nothing is found. -/
theorem scanFrom_junk (hjunk : IsJunk junk) :
    scanFrom i (.beforeQuote label) (Utf8.encode junk) = [] := by
  have h : scanFrom i (.beforeQuote label) (Utf8.encode junk ++ []) = _ :=
    scanFrom_junk_append hjunk i []
  rw [List.append_nil] at h
  exact h

/-- A `;` before any quote gives the name up. -/
theorem scanFrom_unquoted (hjunk : IsJunk junk) :
    scanFrom i (.beforeQuote label) (Utf8.encode (junk ++ ';' :: after)) =
      scanFrom (i + width junk + 1) .between (Utf8.encode after) := by
  rw [Utf8.encode_append, scanFrom_junk_append hjunk]
  rfl

/-- A quote with something behind it opens a value. -/
theorem scanFrom_quote {rest : Octets} (hrest : rest ≠ []) :
    scanFrom i (.beforeQuote label) (quote :: rest) =
      scanFrom (i + 1) (.inQuotes label (i + 1)) rest := by
  cases rest with
  | nil => exact absurd rfl hrest
  | cons b rest => rfl

/-- A value whose quote is not closed is not found. -/
theorem scanFrom_unclosed (hjunk : IsJunk junk) (hvalue : '"' ∉ value) :
    scanFrom i (.beforeQuote label) (Utf8.encode (junk ++ '"' :: value)) = [] := by
  rw [Utf8.encode_append, scanFrom_junk_append hjunk]
  change scanFrom _ _ (quote :: Utf8.encode value) = []
  by_cases hnil : Utf8.encode value = []
  · rw [hnil]
    rfl
  · rw [scanFrom_quote hnil, ← List.append_nil (Utf8.encode value), scanFrom_value_append hvalue]
    rfl

/-- A value between quotes is found with its name, and the scan goes on behind the
closing quote. -/
theorem scanFrom_quoted (hjunk : IsJunk junk) (hvalue : '"' ∉ value) :
    scanFrom i (.beforeQuote label)
        (Utf8.encode (junk ++ '"' :: (value ++ '"' :: after))) =
      ⟨label, some ⟨i + width junk + 1, i + width junk + 1 + width value⟩⟩ ::
        scanFrom (i + width junk + 1 + width value + 1) .between (Utf8.encode after) := by
  rw [Utf8.encode_append, scanFrom_junk_append hjunk]
  change scanFrom _ _ (quote :: Utf8.encode (value ++ '"' :: after)) = _
  have hrest : Utf8.encode (value ++ '"' :: after) =
      Utf8.encode value ++ quote :: Utf8.encode after := Utf8.encode_append _ _
  rw [hrest, scanFrom_quote (by simp), scanFrom_value_append hvalue]
  rfl

/-! ## Spans and texts -/

/-- The span of a middle part cuts out that part. -/
theorem slice?_middle (before middle after : Text) (ht : t = before ++ (middle ++ after))
    (hstart : start = width before) :
    Text.slice? t ⟨start, start + width middle⟩ = some middle :=
  Text.slice?_eq_some_iff.mpr ⟨before, after, ht, hstart.symm, by rw [hstart]⟩

/-- A parameter found without a value has the empty one. -/
theorem entry?_bare (hname : Text.slice? t label = some name) :
    Found.entry? t ⟨label, none⟩ = some (name, []) := by
  simp [Found.entry?, hname]

/-- A parameter found with a value has what its span cuts out. -/
theorem entry?_quoted (hname : Text.slice? t label = some name)
    (hvalue : Text.slice? t span = some value) :
    Found.entry? t ⟨label, some span⟩ = some (name, value) := by
  simp [Found.entry?, hname, hvalue]

/-- From the `=` of a name on, the scan finds what the value part says, and then
what it finds where the value part ends. -/
theorem map_entry?_valuePart (t before after : Text) (ht : t = before ++ after)
    (hlabel : Text.slice? t label = some name)
    (hlater : ∀ part rest, after = part ++ rest →
      (scanFrom (width before + width part) .between (Utf8.encode rest)).map (Found.entry? t) =
        (items rest).map some) :
    (scanFrom (width before) (.beforeQuote label) (Utf8.encode after)).map (Found.entry? t) =
      (match valuePart after with
        | none => []
        | some (none, rest) => items rest
        | some (some value, rest) => (name, value) :: items rest).map some := by
  cases valueOpening after with
  | junk hjunk =>
      rw [scanFrom_junk hjunk, valuePart_junk hjunk]
      rfl
  | @unquoted junk rest hjunk =>
      have hwidth : width (junk ++ [';']) = width junk + 1 := width_append _ _
      have hrest := hlater (junk ++ [';']) rest (by simp)
      rw [hwidth, ← Nat.add_assoc] at hrest
      rw [scanFrom_unquoted hjunk, valuePart_unquoted hjunk]
      exact hrest
  | unclosed hjunk hvalue =>
      rw [scanFrom_unclosed hjunk hvalue, valuePart_unclosed hjunk hvalue]
      rfl
  | @quoted junk value rest hjunk hvalue =>
      have hopen : width (junk ++ ['"']) = width junk + 1 := width_append _ _
      have hslice : Text.slice? t ⟨width before + width junk + 1,
          width before + width junk + 1 + width value⟩ = some value := by
        apply slice?_middle (before ++ (junk ++ ['"'])) value ('"' :: rest)
        · rw [ht]
          simp
        · rw [width_append, hopen, Nat.add_assoc]
      have hwidth : width (junk ++ '"' :: (value ++ ['"'])) = width junk + 1 + width value + 1 := by
        simp (disch := decide) only [width_append, width_cons, width_nil]
        omega
      have hrest := hlater (junk ++ '"' :: (value ++ ['"'])) rest (by simp)
      rw [hwidth, ← Nat.add_assoc, ← Nat.add_assoc, ← Nat.add_assoc] at hrest
      rw [scanFrom_quoted hjunk hvalue, valuePart_quoted hjunk hvalue, List.map_cons,
        entry?_quoted hlabel hslice, hrest]
      rfl

/-- **From a point between parameters the scan finds the items.**  The
induction is on the length of the text that is left; each opening is gone
through by both, and what stands behind it is shorter. -/
theorem map_entry?_scanFrom (t before rest : Text) (ht : t = before ++ rest) :
    (scanFrom (width before) .between (Utf8.encode rest)).map (Found.entry? t) =
      (items rest).map some := by
  induction hn : rest.length using Nat.strongRecOn generalizing before rest with
  | ind n ih =>
      -- The induction hypothesis where a first part has been gone through.
      have hlater : ∀ part after, rest = part ++ after → part ≠ [] →
          (scanFrom (width before + width part) .between (Utf8.encode after)).map
            (Found.entry? t) = (items after).map some := by
        intro part after hrest hpart
        subst hrest
        have hlen := List.length_pos_iff.mpr hpart
        rw [List.length_append] at hn
        rw [← width_append]
        exact ih after.length (by omega) (before ++ part) after (by rw [ht, List.append_assoc]) rfl
      have hlabel : ∀ gap name behind, rest = gap ++ (name ++ behind) →
          Text.slice? t ⟨width before + width gap, width before + width gap + width name⟩ =
            some name := by
        intro gap name behind hrest
        subst hrest
        apply slice?_middle (before ++ gap) name behind
        · rw [ht, List.append_assoc]
        · rw [width_append]
      have hmark : ∀ gap name : Text, ∀ c : Char, c.val.toNat < 128 →
          width (gap ++ (name ++ [c])) = width gap + width name + 1 := by
        intro gap name c hc
        rw [width_append, width_append, width_cons hc, width_nil, Nat.add_assoc]
      cases opening rest with
      | blank hgap =>
          rw [scanFrom_blank hgap, items_gap hgap]
          rfl
      | @last gap name hgap hname =>
          have hentry := entry?_bare (hlabel gap name [] (by rw [List.append_nil]))
          rw [scanFrom_last hgap hname, items_last hgap hname, List.map_singleton, hentry]
          rfl
      | @bare gap name after hgap hname =>
          have hentry := entry?_bare (hlabel gap name (';' :: after) rfl)
          have hafter := hlater (gap ++ (name ++ [';'])) after (by simp) (by simp)
          rw [hmark gap name ';' (by decide), ← Nat.add_assoc, ← Nat.add_assoc] at hafter
          rw [scanFrom_bare hgap hname, items_bare hgap hname, List.map_cons, hentry, hafter]
          rfl
      | @valued gap name after hgap hname =>
          have hvalue := map_entry?_valuePart t (before ++ (gap ++ (name ++ ['=']))) after
            (by rw [ht]; simp) (hlabel gap name ('=' :: after) rfl) (by
              intro part rest hafter
              subst hafter
              rw [width_append, Nat.add_assoc, ← width_append]
              exact hlater (gap ++ (name ++ ['=']) ++ part) rest (by simp) (by simp))
          rw [width_append, hmark gap name '=' (by decide), ← Nat.add_assoc, ← Nat.add_assoc]
            at hvalue
          rw [scanFrom_valued hgap hname, items_valued hgap hname]
          exact hvalue

/-- The entries of a value are its items. -/
theorem toList_parse [Hasher] (t : Text) : (parse t).params.toList = items t := by
  have hscan := congrArg (List.filterMap id) (map_entry?_scanFrom t [] t rfl)
  simp only [List.filterMap_map, Function.id_comp] at hscan
  rw [parse, FieldMap.toList_ofList]
  exact hscan.trans List.filterMap_some

/-- **A disposition value is read as its grammar says.**  Every span that the
scan gives can be cut out of the text, so no item is lost on the way. -/
theorem toList_parse_eq_items [Hasher] (t : Text) :
    (scan (Utf8.encode t)).map (Found.entry? t) = (items t).map some ∧
      (parse t).params.toList = items t := by
  have hscan : (scan (Utf8.encode t)).map (Found.entry? t) = (items t).map some :=
    map_entry?_scanFrom t [] t rfl
  refine ⟨hscan, ?_⟩
  have hfilter : (scan (Utf8.encode t)).filterMap (Found.entry? t) =
      ((scan (Utf8.encode t)).map (Found.entry? t)).filterMap id := by
    rw [List.filterMap_map]
    rfl
  rw [parse, FieldMap.toList_ofList, entriesOf, hfilter, hscan, List.filterMap_map]
  exact List.filterMap_some

/-- A quoted `;`, text glued to the closing quote, and a value without quotes. -/
example :
    (parse ['a', '=', '"', ';', '"', 'b', ';', 'c', '=', 'd', ';', 'e']).params.toList =
      [(['a'], [';']), (['b'], []), (['e'], [])] := by
  decide

end HttpWire.Disposition
