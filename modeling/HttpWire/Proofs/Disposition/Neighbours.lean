import HttpWire.Proofs.Disposition.Scan

/-!
# Parameters do not touch their neighbours

Outside quotes a `;` does to the scan what the end of the value does: it
completes the name that is being read, if there is one, and drops the parameter
that still waits for its value.  Behind it the scan starts afresh
(`step_semicolon`).  So two values joined by `;` are scanned as each of them
alone, the second at a later offset (`scanFrom_append_semicolon`); a parameter
that is ill-formed takes nothing from the one behind it.

The one thing that the end does otherwise is a quote that is the last octet: it
opens nothing, while with a `;` behind it the value is open, and the `;`
belongs to that value.  Values that end like this are left out here, as are all
that end in an open value.
-/

namespace HttpWire.Disposition

/-- Whether the scan stands in a value that has not been closed. -/
def Phase.isInQuotes : Phase → Bool
  | .inQuotes _ _ => true
  | _ => false

/-- The phase behind all octets. -/
def endPhase (i : Nat) (phase : Phase) : Octets → Phase
  | [] => phase
  | b :: rest => endPhase (i + 1) (phase.step rest.isEmpty i b).1 rest

/-- Whether the scan of a text ends in a value that has not been closed. -/
def endsInQuotes (t : Text) : Bool :=
  (endPhase 0 .between (Utf8.encode t)).isInQuotes

variable {i : Nat} {b : UInt8} {phase : Phase} {isLast : Bool} {a behind : Text} {found : Found}

/-! ## One step -/

/-- **Outside quotes a `;` completes what the end would complete**, and the next
parameter may begin. -/
theorem step_semicolon (hclosed : phase.isInQuotes = false) :
    phase.step isLast i semicolon = (.between, phase.finish i) := by
  cases phase with
  | between => rfl
  | inName start => rfl
  | beforeQuote label => rfl
  | inQuotes label start => exact absurd hclosed (by simp [Phase.isInQuotes])

/-- A `;` opens no value and closes none. -/
theorem isInQuotes_step_semicolon :
    (phase.step isLast i semicolon).1.isInQuotes = phase.isInQuotes := by
  cases phase <;> rfl

/-- Whether an octet is the last of all matters only if it opens a value. -/
theorem step_true_eq (hclosed : (phase.step false i b).1.isInQuotes = false) :
    phase.step true i b = phase.step false i b := by
  cases phase with
  | between => rfl
  | inName start => rfl
  | beforeQuote label =>
      by_cases hquote : b = quote
      · rw [hquote] at hclosed
        exact absurd hclosed (by simp [Phase.step, Phase.isInQuotes])
      · simp only [Phase.step, hquote, false_and]
  | inQuotes label start => rfl

/-! ## Two values -/

/-- **Two values joined by a `;` are scanned as each of them alone.**  The
induction is on the octets of the first.  Of these only the last one could see
that something follows. -/
theorem scanFrom_append_semicolon {octets : Octets}
    (hclosed : (endPhase i phase (octets ++ [semicolon])).isInQuotes = false) (rest : Octets) :
    scanFrom i phase (octets ++ semicolon :: rest) =
      scanFrom i phase octets ++ scanFrom (i + octets.length + 1) .between rest := by
  induction octets generalizing i phase with
  | nil =>
      have hphase : phase.isInQuotes = false := isInQuotes_step_semicolon.symm.trans hclosed
      change (phase.step rest.isEmpty i semicolon).2.toList ++
        scanFrom (i + 1) (phase.step rest.isEmpty i semicolon).1 rest = _
      rw [step_semicolon hphase]
      rfl
  | cons b octets ih =>
      have hgoes (tail : Octets) : (octets ++ semicolon :: tail).isEmpty = false := by simp
      have hrest : (endPhase (i + 1) (phase.step false i b).1 (octets ++ [semicolon])).isInQuotes =
          false := by
        rw [List.cons_append, endPhase, hgoes []] at hclosed
        exact hclosed
      have hlast : phase.step octets.isEmpty i b = phase.step false i b := by
        cases octets with
        | nil => exact step_true_eq (isInQuotes_step_semicolon.symm.trans hrest)
        | cons d octets => rfl
      have hoffset : i + 1 + octets.length + 1 = i + (b :: octets).length + 1 := by
        rw [List.length_cons]
        omega
      rw [List.cons_append, scanFrom, hgoes rest, scanFrom, hlast, ← hoffset, List.append_assoc]
      exact congrArg _ (ih hrest)

/-- A parameter has the same entry in a longer text. -/
theorem entry?_append {e : Entry} (h : found.entry? a = some e) (behind : Text) :
    found.entry? (a ++ behind) = some e := by
  obtain ⟨label, span⟩ := found
  simp only [Found.entry?, Option.bind_eq_bind, Option.bind_eq_some_iff] at h
  obtain ⟨name, hname, h⟩ := h
  have hname := Text.slice?_append_of_some hname behind
  cases span with
  | none =>
      rw [entry?_bare hname]
      exact h
  | some span =>
      obtain ⟨value, hvalue, h⟩ := Option.bind_eq_some_iff.mp h
      rw [entry?_quoted hname (Text.slice?_append_of_some hvalue behind)]
      exact h

/-- The items of two values joined by a `;`. -/
theorem items_append_semicolon (hclosed : endsInQuotes (a ++ [';']) = false) (b : Text) :
    items (a ++ ';' :: b) = items a ++ items b := by
  let t := a ++ ';' :: b
  have hscan : scan (Utf8.encode t) =
      scan (Utf8.encode a) ++ scanFrom (width (a ++ [';'])) .between (Utf8.encode b) := by
    have hclosed : (endPhase 0 .between (Utf8.encode a ++ [semicolon])).isInQuotes = false := by
      rw [endsInQuotes, Utf8.encode_append] at hclosed
      exact hclosed
    have hwidth : width (a ++ [';']) = 0 + (Utf8.encode a).length + 1 := by
      rw [width_append, Nat.zero_add]
      rfl
    have hoctets : Utf8.encode t = Utf8.encode a ++ semicolon :: Utf8.encode b :=
      Utf8.encode_append _ _
    rw [scan, hoctets, scanFrom_append_semicolon hclosed, hwidth]
    rfl
  have hfirst : (scan (Utf8.encode a)).map (Found.entry? t) = (items a).map some := by
    have ha := map_entry?_scanFrom a [] a rfl
    rw [← ha]
    apply List.map_congr_left
    intro found hfound
    have hitem : found.entry? a ∈ (items a).map some := ha ▸ List.mem_map_of_mem hfound
    obtain ⟨e, -, he⟩ := List.mem_map.mp hitem
    rw [entry?_append he.symm, he]
  have hsecond : (scanFrom (width (a ++ [';'])) .between (Utf8.encode b)).map (Found.entry? t) =
      (items b).map some := map_entry?_scanFrom t (a ++ [';']) b (List.append_cons _ _ _)
  apply (List.map_inj_right fun _ _ => Option.some.inj).mp
  calc (items t).map some
      = (scan (Utf8.encode t)).map (Found.entry? t) := (map_entry?_scanFrom t [] t rfl).symm
    _ = (items a ++ items b).map some := by
        rw [hscan, List.map_append, hfirst, hsecond, List.map_append]

/-- **What stands before a `;` and what stands behind it are read apart**, if
the `;` does not belong to an open value.  So a parameter whose value has no
quotes may be put between them, and nothing changes. -/
theorem toList_parse_append_semicolon [Hasher] (a b : Text)
    (hclosed : endsInQuotes (a ++ [';']) = false) :
    (parse (a ++ ';' :: b)).params.toList = (parse a).params.toList ++ (parse b).params.toList ∧
      ∀ gap name junk, IsGap gap → IsName name → IsJunk junk →
        (parse (a ++ ';' :: (gap ++ (name ++ '=' :: (junk ++ ';' :: b))))).params.toList =
          (parse (a ++ ';' :: b)).params.toList := by
  simp only [toList_parse]
  refine ⟨items_append_semicolon hclosed b, ?_⟩
  intro gap name junk hgap hname hjunk
  rw [items_append_semicolon hclosed, items_append_semicolon hclosed,
    items_unquoted hgap hname hjunk]

/-- Behind a quoted `;`, a name without quotes around its value stands before a
value with quotes, which is not captured. -/
theorem toList_parse_append_semicolon_quotes_behind :
    let a := ['n', '=', '"', ';', '"']
    let b := [' ', 'e', '=', '"', '2', '"']
    endsInQuotes (a ++ [';']) = false ∧
      (parse (a ++ ';' :: ([' '] ++ (['n'] ++ '=' :: (['1', '='] ++ ';' :: b))))).params.toList =
        [(['n'], [';']), (['e'], ['2'])] := by
  intro a b
  have hclosed : endsInQuotes (a ++ [';']) = false := by decide
  obtain ⟨hjoined, hinserted⟩ := toList_parse_append_semicolon a b hclosed
  refine ⟨hclosed, ?_⟩
  rw [hinserted [' '] ['n'] ['1', '='] (by decide) (by decide) (by decide), hjoined]
  decide

end HttpWire.Disposition
