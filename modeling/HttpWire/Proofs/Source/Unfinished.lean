import HttpWire.Proofs.Source.LineRead
import HttpWire.Proofs.Source.Lines

/-!
# Lines that have ended and the line that has not

`Line.finished` are the lines of data that have ended, each with its end, and
`Line.unfinished` are the octets behind them, which may be the beginning of
another line.  Unlike `Line.split` this tells a line that was cut off from one
that is complete, so it is what a failure in the middle of a line asks for.

A line ends with LF.  It also ends when it has 2^64-1 octets, for a reader
never asks for more in one line; shorter data are cut at LF and nowhere else
(`finished_eq_filter`).
-/

namespace HttpWire

namespace Line

/-- The greatest number of octets that one line can have. -/
def most : Nat :=
  UInt64.size - 1

/-- A line that has ended: it has its LF, or there is no room for another
octet. -/
inductive IsEnded : Octets → Prop
  | whole {body : Octets} (hbody : lf ∉ body) (hroom : body.length < most) : IsEnded (body ++ [lf])
  | full {body : Octets} (hbody : lf ∉ body) (hlength : body.length = most) : IsEnded body

/-- Octets that do not end a line. -/
def IsOpen (octets : Octets) : Prop :=
  lf ∉ octets ∧ octets.length < most

instance (octets : Octets) : Decidable (IsOpen octets) :=
  inferInstanceAs (Decidable (_ ∧ _))

/-- The lines that end and the octets of the line that does not, when some
octets of the first line are known already. -/
def cutLines : Octets → Octets → List Octets × Octets
  | line, [] => ([], line)
  | line, b :: rest =>
    if b = lf ∨ line.length + 1 = most then
      let later := cutLines [] rest
      ((line ++ [b]) :: later.1, later.2)
    else cutLines (line ++ [b]) rest

/-- The lines of data that have ended. -/
def finished (octets : Octets) : List Octets :=
  (cutLines [] octets).1

/-- The octets of data behind the last line that has ended. -/
def unfinished (octets : Octets) : Octets :=
  (cutLines [] octets).2

variable {body line octets rest : Octets}

/-- Octets that do not end the line are handed on. -/
theorem cutLines_append (hbody : lf ∉ body) (hroom : line.length + body.length < most) :
    cutLines line (body ++ rest) = cutLines (line ++ body) rest := by
  induction body generalizing line with
  | nil => rw [List.nil_append, List.append_nil]
  | cons b body ih =>
      obtain ⟨hb, hbody⟩ : lf ≠ b ∧ lf ∉ body := by simpa using hbody
      rw [List.length_cons] at hroom
      have hgoes : ¬ (b = lf ∨ line.length + 1 = most) := by
        rintro (h | h)
        · exact hb h.symm
        · omega
      rw [List.cons_append, cutLines, if_neg hgoes, ih hbody, List.append_assoc,
        List.singleton_append]
      rw [List.length_append, List.length_singleton]
      omega

/-- **A line that ends comes first**, and the cutting begins anew behind
it. -/
theorem cutLines_of_isEnded (hline : IsEnded line) :
    cutLines [] (line ++ rest) = (line :: finished rest, unfinished rest) := by
  have hlast : ∀ (body : Octets) (b : UInt8), lf ∉ body → body.length < most →
      (b = lf ∨ body.length + 1 = most) →
      cutLines [] (body ++ [b] ++ rest) = ((body ++ [b]) :: finished rest, unfinished rest) := by
    intro body b hbody hroom hend
    rw [List.append_assoc, cutLines_append hbody (by simpa using hroom), List.nil_append,
      List.singleton_append, cutLines, if_pos hend]
    rfl
  cases hline with
  | @whole body hbody hroom => exact hlast body _ hbody hroom (Or.inl rfl)
  | full hbody hlength =>
      -- The last octet ends the line because it is the last there is room for.
      have hne : line ≠ [] := by
        intro hempty
        rw [hempty] at hlength
        exact absurd hlength (by decide)
      have hlast := hlast line.dropLast (line.getLast hne)
        (fun hmem => hbody (List.dropLast_subset _ hmem))
      rw [List.dropLast_concat_getLast, List.length_dropLast, hlength] at hlast
      exact hlast (by decide) (Or.inr (by decide))

/-- A line that has ended is the first of those that have. -/
theorem finished_append (hline : IsEnded line) :
    finished (line ++ rest) = line :: finished rest := by
  rw [finished, cutLines_of_isEnded hline]

/-- What has not ended stands behind all lines that have. -/
theorem unfinished_append (hline : IsEnded line) :
    unfinished (line ++ rest) = unfinished rest := by
  rw [unfinished, cutLines_of_isEnded hline]

theorem cutLines_of_isOpen (hoctets : IsOpen octets) : cutLines [] octets = ([], octets) := by
  have hcut : cutLines [] (octets ++ []) = cutLines ([] ++ octets) [] :=
    cutLines_append hoctets.1 (by simpa using hoctets.2)
  rwa [List.append_nil] at hcut

theorem finished_of_isOpen (hoctets : IsOpen octets) : finished octets = [] :=
  congrArg Prod.fst (cutLines_of_isOpen hoctets)

theorem unfinished_of_isOpen (hoctets : IsOpen octets) : unfinished octets = octets :=
  congrArg Prod.snd (cutLines_of_isOpen hoctets)

/-- **Data do not end their first line, or begin with a line that ends.** -/
theorem isOpen_or_isEnded (octets : Octets) :
    IsOpen octets ∨ ∃ line rest, IsEnded line ∧ octets = line ++ rest := by
  by_cases hlf : lf ∈ octets.take most
  · right
    obtain ⟨body, more, htake, hbody⟩ := List.eq_append_cons_of_mem hlf
    have hroom : body.length < most := by
      have hlength := congrArg List.length htake
      rw [List.length_append, List.length_cons, List.length_take] at hlength
      omega
    refine ⟨body ++ [lf], more ++ octets.drop most, .whole hbody hroom, ?_⟩
    rw [← List.append_assoc, List.append_assoc body, List.singleton_append, ← htake,
      List.take_append_drop]
  · rcases Nat.lt_or_ge octets.length most with hshort | hlong
    · left
      rw [List.take_of_length_le (Nat.le_of_lt hshort)] at hlf
      exact ⟨hlf, hshort⟩
    · right
      exact ⟨octets.take most, octets.drop most, .full hlf (List.length_take_of_le hlong),
        (List.take_append_drop _ _).symm⟩

theorem IsEnded.ne_nil (hline : IsEnded line) : line ≠ [] := by
  cases hline with
  | whole => simp
  | full hbody hlength =>
      rintro rfl
      exact absurd hlength (by decide)

/-- Induction on the lines that have ended. -/
@[elab_as_elim]
theorem lines_induction {motive : Octets → Prop} (octets : Octets)
    (last : ∀ octets, IsOpen octets → motive octets)
    (line : ∀ line rest, IsEnded line → motive rest → motive (line ++ rest)) :
    motive octets := by
  induction hlength : octets.length using Nat.strongRecOn generalizing octets with
  | ind n ih =>
      rcases isOpen_or_isEnded octets with hopen | ⟨first, rest, hfirst, rfl⟩
      · exact last octets hopen
      · have hpos := List.length_pos_iff.mpr hfirst.ne_nil
        rw [List.length_append] at hlength
        exact line first rest hfirst (ih rest.length (by omega) rest rfl)

/-- **Data are the lines that have ended and then octets that do not end a
line.** -/
theorem finished_unfinished (octets : Octets) :
    (∀ line ∈ finished octets, IsEnded line) ∧ IsOpen (unfinished octets) ∧
      (finished octets).flatten ++ unfinished octets = octets := by
  induction octets using lines_induction with
  | last octets hoctets =>
      rw [finished_of_isOpen hoctets, unfinished_of_isOpen hoctets]
      exact ⟨nofun, hoctets, rfl⟩
  | line line rest hline ih =>
      obtain ⟨hlines, hopen, hjoined⟩ := ih
      rw [finished_append hline, unfinished_append hline, List.flatten_cons, List.append_assoc,
        hjoined]
      exact ⟨List.forall_mem_cons.mpr ⟨hline, hlines⟩, hopen, rfl⟩

/-- **Data of less than 2^64-1 octets are cut at LF alone.**  The lines that
have ended are the lines with LF. -/
theorem finished_eq_filter (hlength : octets.length < most) :
    finished octets = (split octets).filter (·.getLast? = some lf) := by
  induction octets using lines_induction with
  | last octets hoctets =>
      rw [finished_of_isOpen hoctets]
      by_cases hne : octets = []
      · rw [hne]
        rfl
      · have hlast : octets.getLast? ≠ some lf := fun h => hoctets.1 (List.mem_of_getLast? h)
        simp [split_of_not_mem hoctets.1 hne, hlast]
  | line line rest hline ih =>
      rw [List.length_append] at hlength
      rw [finished_append hline, ih (by omega)]
      cases hline with
      | whole hbody hroom =>
          rw [List.append_assoc, List.singleton_append, split_append_lf hbody]
          simp
      | full hbody hroom => omega

/-- A line that has ended has room for no octet past the greatest number, and
no LF but the last. -/
theorem IsEnded.exists_body (hline : IsEnded line) :
    ∃ body more, lf ∉ body ∧ line = body ++ more ∧ line.length ≤ body.length + 1 ∧
      line.length ≤ most := by
  cases hline with
  | @whole body hbody hroom =>
      exact ⟨body, [Line.lf], hbody, rfl, by simp, by simpa using Nat.succ_le_of_lt hroom⟩
  | full hbody hlength =>
      exact ⟨line, [], hbody, (List.append_nil line).symm, by omega, Nat.le_of_eq hlength⟩

end Line

namespace Source

open Line

variable {s : Source} {size : UInt64} {line octets rest : Octets} {tail : List Signal}

/-- **A line that has ended is read if it is within the bound.** -/
theorem readLine_of_isEnded (hline : IsEnded line) (hfits : line.length ≤ size.toNat)
    (h : s.signals = line.map .octet ++ tail) :
    ∃ rest, s.readLine size = (.text (textOf line), rest) ∧ rest.signals = tail := by
  cases hline with
  | whole hbody hroom =>
      rw [List.length_append, List.length_singleton] at hfits
      exact readLine_of_lf hbody hfits (by simpa using h)
  | full hbody hlength =>
      have hsize := size.toNat_lt
      rw [hlength, most] at hfits
      simp only [UInt64.size] at hfits
      exact readLine_of_full hbody hlength (by simp only [UInt64.size]; omega) h

/-- **Of a line past the bound one octet more than the bound is taken**,
whether it has ended or not. -/
theorem readLine_of_past (hoctets : IsOpen octets ∨ IsEnded octets)
    (hlong : size.toNat < octets.length) (h : s.signals = (octets ++ rest).map .octet ++ tail) :
    ∃ left, s.readLine size = (.tooLong, left) ∧
      left.signals = ((octets ++ rest).drop (size.toNat + 1)).map .octet ++ tail := by
  obtain ⟨body, more, hbody, rfl, hmore, hmost⟩ : ∃ body more, lf ∉ body ∧
      octets = body ++ more ∧ octets.length ≤ body.length + 1 ∧ octets.length ≤ most := by
    rcases hoctets with ⟨hbody, hroom⟩ | hended
    · exact ⟨octets, [], hbody, (List.append_nil octets).symm, Nat.le_succ _, Nat.le_of_lt hroom⟩
    · exact hended.exists_body
  unfold most at hmost
  rw [List.append_assoc] at h ⊢
  refine readLine_of_octets hbody (by omega) ?_ (by omega) h
  rw [← List.append_assoc, List.length_append]
  omega

/-- **A failure behind octets that do not end a line loses them.** -/
theorem readLine_of_isOpen_failure (hoctets : IsOpen octets) (hfits : octets.length ≤ size.toNat)
    (h : s.signals = octets.map .octet ++ .failure :: tail) :
    ∃ rest, s.readLine size = (.ended, rest) ∧ rest.signals = tail :=
  readLine_of_failure hoctets.1 hfits hoctets.2 h

end Source
end HttpWire
