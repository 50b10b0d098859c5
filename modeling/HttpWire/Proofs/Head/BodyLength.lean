import HttpWire.Head.Basic
import HttpWire.Proofs.Fields.Index

/-!
# The stated length of a body

The length that a head states for its body decides where the next message
begins, so it has to be the number that is written, or none.  Digits may be
more than 64 bits can hold, and how many there are says nothing about it, for
any number of them may be zeros at the front.

`StatesLength` says of a value what number is written there, whatever its size.
The main statement is `contentLength?_exact`: the length of a head is the number
in its first `Content-Length` field, if 64 bits can hold it.
-/

namespace HttpWire

namespace Text

/-- A digit is no blank. -/
theorem isBlank_of_isDigit {d : Char} (h : d.isDigit = true) : isBlank d = false := by
  have hrange := isDigit_iff.mp h
  simp only [isBlank, blankRanges, List.any_cons, List.any_nil, Bool.or_false, Bool.or_eq_false_iff,
    Bool.and_eq_false_iff, decide_eq_false_iff_not]
  omega

end Text

namespace Head

variable {value : Text} {limit n : Nat}

/-- A value is a number between blanks: digits, after at most one `+`. -/
def StatesLength (value : Text) (n : Nat) : Prop :=
  ∃ left sign digits right, value = left ++ (sign ++ digits) ++ right ∧
    ((∀ c ∈ left, Text.isBlank c = true) ∧ ∀ c ∈ right, Text.isBlank c = true) ∧
    (sign = [] ∨ sign = ['+']) ∧ digits ≠ [] ∧ (∀ d ∈ digits, d.isDigit = true) ∧
    Text.decimal digits = n

/-- Digits, with or without a sign, have no blanks at their ends. -/
theorem isTrimmed_digits {sign digits : Text} (hsign : sign = [] ∨ sign = ['+'])
    (hne : digits ≠ []) (hdigits : ∀ d ∈ digits, d.isDigit = true) :
    (sign ++ digits).IsTrimmed := by
  refine ⟨?_, ?_⟩
  · intro c hc
    rcases hsign with rfl | rfl
    · exact Text.isBlank_of_isDigit (hdigits c (List.mem_of_head? hc))
    · obtain rfl : '+' = c := by simpa using hc
      decide
  · intro c hc
    rw [List.getLast?_append_of_ne_nil sign hne] at hc
    exact Text.isBlank_of_isDigit (hdigits c (List.mem_of_getLast? hc))

/-- **The number read off a value** is the one that it states, if that is below
the limit. -/
theorem number?_trim_iff :
    Text.number? limit value.trim = some n ↔ StatesLength value n ∧ n < limit := by
  rw [Text.number?_eq_some_iff]
  constructor
  · rintro ⟨digits, htrim, hne, hdigits, hvalue, hlt⟩
    obtain ⟨-, left, right, heq, hblank⟩ := Text.trim_eq_iff.mp (rfl : value.trim = value.trim)
    refine ⟨?_, hlt⟩
    rcases htrim with htrim | htrim
    · rw [htrim] at heq
      exact ⟨left, [], digits, right, heq, hblank, Or.inl rfl, hne, hdigits, hvalue⟩
    · rw [htrim] at heq
      exact ⟨left, ['+'], digits, right, heq, hblank, Or.inr rfl, hne, hdigits, hvalue⟩
  · rintro ⟨⟨left, sign, digits, right, heq, hblank, hsign, hne, hdigits, hvalue⟩, hlt⟩
    have htrim : value.trim = sign ++ digits :=
      Text.trim_eq_iff.mpr ⟨isTrimmed_digits hsign hne hdigits, left, right, heq, hblank⟩
    refine ⟨digits, ?_, hne, hdigits, hvalue, hlt⟩
    rcases hsign with rfl | rfl
    · exact Or.inl htrim
    · exact Or.inr htrim

/-- **A head has a length exactly if its first field states one that 64 bits
can hold.** -/
theorem contentLength?_eq_some_iff [Hasher] {head : Head} (hfields : head.fields.Indexed)
    {w : UInt64} :
    head.contentLength? = some w ↔
      ∃ value, head.fields.IsFirst contentLengthName value ∧ StatesLength value w.toNat := by
  unfold contentLength?
  simp only [Option.bind_eq_some_iff, Option.map_eq_some_iff, number?_trim_iff,
    hfields.get?_eq_some_iff fun _ _ => Text.caselessHash_eq_of_caselessEq]
  constructor
  · rintro ⟨value, hfirst, n, ⟨hstates, hlt⟩, rfl⟩
    rw [UInt64.toNat_ofNat_of_lt' hlt]
    exact ⟨value, hfirst, hstates⟩
  · rintro ⟨value, hfirst, hstates⟩
    exact ⟨value, hfirst, w.toNat, ⟨hstates, w.toNat_lt_size⟩, UInt64.ofNat_toNat⟩

/-- **The length of a body is exact up to the limit of 64 bits.**  For a head
with any fields:

* it has a length exactly if its first `Content-Length` field, in whatever case
  that name is written, is a number between blanks that 64 bits can hold, with
  any number of zeros at its front, and the length is that number;
* it has none exactly if there is no such field, or the first one is no number
  or one of more than 64 bits;
* no other field matters, such as further ones of the same name.
-/
theorem contentLength?_exact [Hasher] (head : Head) (hfields : head.fields.Indexed) :
    (∀ w : UInt64, head.contentLength? = some w ↔
        ∃ value, head.fields.IsFirst contentLengthName value ∧ StatesLength value w.toNat) ∧
      (head.contentLength? = none ↔ ∀ value, head.fields.IsFirst contentLengthName value →
        ∀ n, StatesLength value n → UInt64.size ≤ n) ∧
      ∀ other : Head, other.fields.Indexed →
        (∀ value, other.fields.IsFirst contentLengthName value ↔
          head.fields.IsFirst contentLengthName value) →
        other.contentLength? = head.contentLength? := by
  have hexact := fun w => contentLength?_eq_some_iff hfields (w := w)
  refine ⟨hexact, ⟨?_, ?_⟩, ?_⟩
  · intro hnone value hfirst n hstates
    rcases Nat.lt_or_ge n UInt64.size with hlt | hge
    · have hsome : head.contentLength? = some (UInt64.ofNat n) := by
        rw [hexact, UInt64.toNat_ofNat_of_lt' hlt]
        exact ⟨value, hfirst, hstates⟩
      rw [hnone] at hsome
      exact absurd hsome (by simp)
    · exact hge
  · intro hlarge
    cases hlength : head.contentLength? with
    | none => rfl
    | some w =>
        obtain ⟨value, hfirst, hstates⟩ := (hexact w).mp hlength
        have hge := hlarge value hfirst _ hstates
        have hlt := w.toNat_lt_size
        omega
  · intro other hother hsame
    ext w
    rw [hexact, contentLength?_eq_some_iff hother]
    simp only [hsame]

/-- The greatest number of 64 bits, with a `+`, zeros and blanks around it, in
the second field of three; that field by itself; and one more than that number. -/
theorem contentLength?_exact_at_limit :
    let ofEntries : List Entry → Head := fun entries => ⟨['1', '.', '1'], FieldMap.ofList entries⟩
    let name : Text := ['c', 'o', 'n', 't', 'e', 'n', 't', '-', 'L', 'E', 'N', 'G', 'T', 'H']
    let digits : Text := ['0', '0', '1', '8', '4', '4', '6', '7', '4', '4', '0', '7', '3', '7',
      '0', '9', '5', '5', '1', '6', '1', '5']
    let most : Text := '\u3000' :: '+' :: digits ++ ['\t']
    let more : Text := digits.dropLast ++ ['6']
    let head := ofEntries [(['x'], ['7']), (name, most), (contentLengthName, ['5'])]
    let single := ofEntries [(name, most)]
    let past := ofEntries [(contentLengthName, more)]
    (head.fields.Indexed ∧ head.contentLength? = some (18446744073709551615 : UInt64)) ∧
      (single.fields.Indexed ∧ (∀ value, single.fields.IsFirst contentLengthName value ↔
          head.fields.IsFirst contentLengthName value) ∧
        single.contentLength? = head.contentLength?) ∧
      past.fields.Indexed ∧ past.contentLength? = none := by
  intro ofEntries name digits most more head single past
  have hindexed : ∀ entries, (ofEntries entries).fields.Indexed :=
    fun entries => FieldMap.indexed_ofList entries
  have hfirst_iff : ∀ {entries : List Entry} {value : Text},
      (entries.find? (·.1.caselessEq contentLengthName)).map (·.2) = some value →
        ∀ other, (ofEntries entries).fields.IsFirst contentLengthName other ↔ value = other := by
    intro entries value hfind other
    have hfold : ∀ s t : Text, s.caselessEq t = true → s.caselessHash = t.caselessHash :=
      fun _ _ => Text.caselessHash_eq_of_caselessEq
    rw [← (hindexed entries).get?_eq_some_iff hfold, (hindexed entries).get?_eq hfold,
      FieldMap.toList_ofList, hfind, Option.some.injEq]
  have hhead : ∀ value, head.fields.IsFirst contentLengthName value ↔ most = value :=
    hfirst_iff (by decide)
  have hsingle : ∀ value, single.fields.IsFirst contentLengthName value ↔ most = value :=
    hfirst_iff (by decide)
  have hsame : ∀ value, single.fields.IsFirst contentLengthName value ↔
      head.fields.IsFirst contentLengthName value :=
    fun value => (hsingle value).trans (hhead value).symm
  have hstates : StatesLength most (18446744073709551615 : UInt64).toNat := by
    refine ⟨['\u3000'], ['+'], digits, ['\t'], rfl, ⟨?_, ?_⟩, Or.inr rfl, by simp [digits],
      List.all_eq_true.mp (by decide), by decide⟩
    · exact List.forall_mem_singleton.mpr (by decide)
    · exact List.forall_mem_singleton.mpr (by decide)
  have hlarge : ∀ value, past.fields.IsFirst contentLengthName value →
      ∀ n, StatesLength value n → UInt64.size ≤ n := by
    intro value hpast n hmore
    obtain rfl : more = value := (hfirst_iff (by decide) _).mp hpast
    rcases Nat.lt_or_ge n UInt64.size with hlt | hge
    · have hread : Text.number? UInt64.size more.trim = some n := number?_trim_iff.mpr ⟨hmore, hlt⟩
      have hnone : Text.number? UInt64.size more.trim = none := by decide
      rw [hnone] at hread
      exact absurd hread (by simp)
    · exact hge
  obtain ⟨hexact, -, hother⟩ := contentLength?_exact head (hindexed _)
  exact ⟨⟨hindexed _, (hexact _).mpr ⟨most, (hhead most).mpr rfl, hstates⟩⟩,
    ⟨hindexed _, hsame, hother single (hindexed _) hsame⟩,
    hindexed _, (contentLength?_exact past (hindexed _)).2.1.mpr hlarge⟩

end Head
end HttpWire
