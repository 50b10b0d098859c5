import HttpWire.Head.Request
import HttpWire.Proofs.Percent.Forms

/-!
# Paths as they were written

In a path every character but `%` may stand as it is, and every character may
be written as the escapes of its octets.  So a written path is a row of
pieces, each of them a character and the form that was chosen for it.

A path is decoded by the rules for form values, under which `+` is a space.
The forms of a path are forms of a value as well, with one exception: a `+`
that stands as it is writes a space there (`PathPiece.form_readBack`).  Hence
decoding gives the path back with a space for each such `+`, and it undoes the
writing exactly if there is none (`Request.decodedPath_written`).  An escaped
`+` does no harm.
-/

namespace HttpWire

namespace Percent

variable {b : UInt8} {octets : Octets} {e : Text}

theorem Escape.plus_not_mem (he : Escape b e) : '+' ∉ e := by
  cases he with
  | spell hhigh hlow hvalue => simp [hhigh.ne_plus.symm, hlow.ne_plus.symm]

/-- Escapes hold no `+`, however many they are. -/
theorem Escapes.plus_not_mem (h : Escapes octets e) : '+' ∉ e := by
  induction h with
  | nil => simp
  | cons head tail ih => simp [head.plus_not_mem, ih]

theorem Escapes.ne_plus (h : Escapes octets e) : e ≠ ['+'] := by
  intro heq
  exact h.plus_not_mem (heq ▸ List.mem_cons_self)

end Percent

open Percent

/-- A way to write a character in a path. -/
inductive PathForm : Char → Text → Prop where
  /-- As it is. -/
  | raw {c : Char} (hmark : c ≠ '%') : PathForm c [c]
  /-- As the escapes of its octets. -/
  | escaped {c : Char} {e : Text} (hescapes : Escapes (String.utf8EncodeChar c) e) : PathForm c e

/-- A character of a path in the form that was chosen for it. -/
structure PathPiece where
  char : Char
  form : Text
  isForm : PathForm char form

namespace PathPiece

/-- The path that pieces make up. -/
def path (pieces : List PathPiece) : Text :=
  pieces.map (·.char)

/-- The path as it is written. -/
def written (pieces : List PathPiece) : Text :=
  pieces.flatMap (·.form)

/-- The character that decoding gives for a piece. -/
def readBack (piece : PathPiece) : Char :=
  if piece.form = ['+'] then ' ' else piece.char

variable (piece : PathPiece) (pieces : List PathPiece)

/-- **To a form value every piece writes the character that is read back.** -/
theorem form_readBack : Form piece.readBack piece.form := by
  obtain ⟨c, form, hform⟩ := piece
  cases hform with
  | raw hmark =>
      by_cases hplus : c = '+'
      · subst hplus
        exact Form.plus
      · have hself : readBack ⟨c, [c], .raw hmark⟩ = c := by simp [readBack, hplus]
        rw [hself]
        exact Form.raw hmark hplus
  | escaped hescapes =>
      have hself : readBack ⟨c, form, .escaped hescapes⟩ = c := if_neg hescapes.ne_plus
      rw [hself]
      exact Form.escaped hescapes

/-- Only a `+` that stands as it is is read back as another character. -/
theorem readBack_eq_iff : piece.readBack = piece.char ↔ '+' ∉ piece.form := by
  obtain ⟨c, form, hform⟩ := piece
  cases hform with
  | raw hmark => by_cases hplus : c = '+' <;> simp [readBack, hplus, eq_comm]
  | escaped hescapes => simp [readBack, hescapes.ne_plus, hescapes.plus_not_mem]

/-- A written path is one way to write what is read back of it. -/
theorem writes_readBack : Writes (pieces.map readBack) (written pieces) := by
  induction pieces with
  | nil => exact Writes.nil
  | cons piece pieces ih => exact Writes.cons piece.form_readBack ih

/-- A path is given back exactly if no `+` stands in its written form. -/
theorem map_readBack_eq_iff : pieces.map readBack = path pieces ↔ '+' ∉ written pieces := by
  simp only [path, written, List.map_inj_left, List.mem_flatMap, not_exists, not_and]
  exact forall₂_congr fun piece _ => piece.readBack_eq_iff

end PathPiece

namespace Request

/-- **A path is given back with a space for each `+` that stands as it is**,
whatever forms were chosen for its characters.  So decoding undoes the writing
exactly if no `+` stands in the path that was received. -/
theorem decodedPath_written [Hasher] (r : Request) (pieces : List PathPiece) :
    let received := { r with path := PathPiece.written pieces }
    received.decodedPath = pieces.map PathPiece.readBack ∧
      (received.decodedPath = PathPiece.path pieces ↔ '+' ∉ received.path) := by
  intro received
  have hread : received.decodedPath = pieces.map PathPiece.readBack :=
    (PathPiece.writes_readBack pieces).decode_eq
  refine ⟨hread, ?_⟩
  rw [hread]
  exact PathPiece.map_readBack_eq_iff pieces

/-- A `+` may stand in a path as it is, but then another path is decoded. -/
theorem decodedPath_of_plus :
    let pieces : List PathPiece :=
      [⟨'/', ['/'], .raw (by decide)⟩, ⟨'a', ['a'], .raw (by decide)⟩,
        ⟨'+', ['+'], .raw (by decide)⟩, ⟨'b', ['b'], .raw (by decide)⟩]
    let r : Request :=
      { version := ['1', '.', '1'], fields := FieldMap.empty, method := ['G', 'E', 'T'],
        path := ['/', 'a', '+', 'b'], query := [] }
    r.path = PathPiece.written pieces ∧ r.decodedPath = ['/', 'a', ' ', 'b'] ∧
      r.decodedPath ≠ PathPiece.path pieces := by
  intro pieces r
  have hdecoded : r.decodedPath = ['/', 'a', ' ', 'b'] := by
    simp only [r, decodedPath]
    decide
  refine ⟨rfl, hdecoded, ?_⟩
  rw [hdecoded]
  decide

end Request
end HttpWire
