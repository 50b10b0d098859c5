import HttpWire.Proofs.Source.Reading

/-!
# Data as a list of lines

`Line.split` cuts data behind each LF.  Every line but the last ends with its
LF, no line is empty, and the lines joined again are the data.

On a source without failures reading a line takes the first of these lines, if
it is within the bound (`readLine_of_split`), and otherwise one octet more of
it than the bound (`readLine_of_split_excess`).  Data of 2^64-1 octets and
more are left out: there the greatest bound has no octet more.
-/

namespace HttpWire

namespace Line

variable {body rest line octets : Octets} {later : List Octets}

/-- The lines of data, each with its LF; the last one may have none. -/
def split : Octets → List Octets
  | [] => []
  | b :: rest =>
    if b = lf then [lf] :: split rest
    else
      match split rest with
      | [] => [[b]]
      | line :: later => (b :: line) :: later

/-- A line ends with the first LF. -/
theorem split_append_lf (hbody : lf ∉ body) :
    split (body ++ lf :: rest) = (body ++ [lf]) :: split rest := by
  induction body with
  | nil => simp [split]
  | cons b body ih =>
      have hb : b ≠ lf := fun h => hbody (h ▸ List.mem_cons_self)
      have hrest : lf ∉ body := fun h => hbody (List.mem_cons_of_mem _ h)
      simp [split, hb, ih hrest]

theorem split_of_not_mem (hbody : lf ∉ body) (hne : body ≠ []) : split body = [body] := by
  induction body with
  | nil => exact absurd rfl hne
  | cons b body ih =>
      have hb : b ≠ lf := fun h => hbody (h ▸ List.mem_cons_self)
      have hrest : lf ∉ body := fun h => hbody (List.mem_cons_of_mem _ h)
      cases body with
      | nil => simp [split, hb]
      | cons c body =>
          have hlater := ih hrest (List.cons_ne_nil c body)
          rw [split, if_neg hb, hlater]

/-- **How data begin**: with nothing, with a last line, or with a line and its
LF. -/
theorem split_cases (octets : Octets) :
    octets = [] ∨
      (lf ∉ octets ∧ octets ≠ [] ∧ split octets = [octets]) ∨
      ∃ body rest, lf ∉ body ∧ octets = body ++ lf :: rest ∧
        split octets = (body ++ [lf]) :: split rest := by
  by_cases hmem : lf ∈ octets
  · obtain ⟨body, rest, rfl, hbody⟩ := List.eq_append_cons_of_mem hmem
    exact Or.inr (Or.inr ⟨body, rest, hbody, rfl, split_append_lf hbody⟩)
  · by_cases hne : octets = []
    · exact Or.inl hne
    · exact Or.inr (Or.inl ⟨hmem, hne, split_of_not_mem hmem hne⟩)

/-- Lines put together are the data. -/
theorem split_flatten (octets : Octets) : (split octets).flatten = octets := by
  fun_induction split octets with
  | case1 => rfl
  | case2 rest ih => simp [ih]
  | case3 b rest hb hnone ih =>
      rw [hnone] at ih
      simp [← ih]
  | case4 b rest hb line later hsome ih =>
      rw [hsome] at ih
      simp [← ih]

/-- **The first of the lines**: what stands before its end has no LF, and the
other lines are those of what stands behind it. -/
theorem split_eq_cons (h : split octets = line :: later) :
    split later.flatten = later ∧
      ∃ body, lf ∉ body ∧
        (line = body ++ [lf] ∨ (line = body ∧ body ≠ [] ∧ later = [])) := by
  rcases split_cases octets with rfl | ⟨hmem, hne, hsplit⟩ | ⟨body, rest, hbody, -, hsplit⟩
  · exact absurd h (by simp [split])
  · obtain ⟨rfl, rfl⟩ := List.cons.inj (hsplit.symm.trans h)
    exact ⟨rfl, octets, hmem, Or.inr ⟨rfl, hne, rfl⟩⟩
  · obtain ⟨rfl, rfl⟩ := List.cons.inj (hsplit.symm.trans h)
    exact ⟨by rw [split_flatten], body, hbody, Or.inl rfl⟩

end Line

namespace Source

variable {s : Source} {size : UInt64} {line octets : Octets} {later : List Octets}

/-- A source without failures shows nothing but its octets. -/
theorem signals_of_intact (h : Event.failed ∉ s) : s.signals = s.remaining.map .octet := by
  induction s with
  | nil => rfl
  | cons e rest ih =>
      have hrest := ih (fun hmem => h (List.mem_cons_of_mem _ hmem))
      cases e with
      | data octets => simp [signals, remaining, hrest]
      | interrupted => exact hrest
      | failed => exact absurd List.mem_cons_self h

/-- The octets of a row of signals without failures. -/
theorem remaining_of_signals (h : s.signals = octets.map .octet) : s.remaining = octets := by
  rw [remaining_eq_filterMap, h, List.filterMap_map]
  exact List.filterMap_some

/-- Octets that come first among the signals are the first of the data. -/
theorem prefix_remaining_of_signals {tail : List Signal}
    (h : s.signals = octets.map .octet ++ tail) : octets <+: s.remaining := by
  rw [remaining_eq_filterMap, h, List.filterMap_append, List.filterMap_map]
  exact ⟨_, congrArg (· ++ _) List.filterMap_some.symm⟩

/-- **A line within the bound is read**, and the lines behind it are left. -/
theorem readLine_of_split (h : s.signals = (line :: later).flatten.map .octet)
    (hsplit : Line.split octets = line :: later) (hfits : line.length ≤ size.toNat) :
    ∃ rest, s.readLine size = (.text (Line.textOf line), rest) ∧
      rest.signals = later.flatten.map .octet := by
  obtain ⟨-, body, hbody, rfl | ⟨rfl, hne, rfl⟩⟩ := Line.split_eq_cons hsplit
  · have hsize : body.length < size.toNat := by
      rw [List.length_append, List.length_singleton] at hfits
      omega
    apply readLine_of_lf hbody hsize
    rw [h]
    simp
  · apply readLine_of_unended hbody hfits hne
    rw [h]
    simp

/-- **Of a line past the bound one octet more than the bound is taken**, and
the rest of the line is left with the lines behind it. -/
theorem readLine_of_split_excess (h : s.signals = (line :: later).flatten.map .octet)
    (hsplit : Line.split octets = line :: later) (hexcess : size.toNat < line.length)
    (hmax : line.length < UInt64.size) :
    ∃ rest, s.readLine size = (.tooLong, rest) ∧
      rest.signals = (line.drop (size.toNat + 1) ++ later.flatten).map .octet := by
  obtain ⟨body, more, hbody, hsize, hdata⟩ : ∃ body more, Line.lf ∉ body ∧
      size.toNat ≤ body.length ∧ (line :: later).flatten = body ++ more := by
    obtain ⟨-, body, hbody, rfl | ⟨rfl, -, -⟩⟩ := Line.split_eq_cons hsplit
    · rw [List.length_append, List.length_singleton] at hexcess
      exact ⟨body, _, hbody, by omega, by rw [List.flatten_cons, List.append_assoc]⟩
    · exact ⟨line, _, hbody, Nat.le_of_lt hexcess, List.flatten_cons⟩
  have hlong : size.toNat < (body ++ more).length := by
    rw [← hdata, List.flatten_cons, List.length_append]
    omega
  rw [hdata, ← List.append_nil (List.map _ _)] at h
  obtain ⟨rest, hread, hrest⟩ := readLine_of_octets hbody hsize hlong (by omega) h
  refine ⟨rest, hread, ?_⟩
  rw [hrest, ← hdata, List.flatten_cons, List.append_nil, List.drop_append_of_le_length hexcess]

end Source
end HttpWire
