/-!
# Scanning — the leftmost marks of a text

A *mark* is a piece of notation that can be recognised at the head of a text, such as a tag between
double braces.  Scanning reads a text from left to right, takes the first mark it meets, goes on
behind it, and keeps everything else as literal runs.

* `Mark` — a kind of notation: how a mark is written, and how it is recognised;
* `Mark.first?` — the leftmost mark of a text, with the text before and behind it;
* `Mark.pieces` — the text as literal runs and marks, in order.

`Mark.concat_pieces` says that the pieces lose nothing: written one after the other they are the
text.
-/

namespace Stencil

/-- A kind of notation that can be recognised at the head of a text. -/
class Mark (α : Type) where
  /-- How a mark is written. -/
  written : α → List Char
  /-- The mark at the head of a text. -/
  at? : List Char → Option α
  /-- A mark is written with at least one character. -/
  written_ne_nil : ∀ mark, written mark ≠ []
  /-- A recognised mark is an initial part of the text. -/
  initial_of_at? : ∀ {text mark}, at? text = some mark → written mark <+: text

/-- A part of a scanned text: a run of characters outside all marks, or a mark. -/
inductive Piece (α : Type) where
  | literal (run : List Char)
  | mark (value : α)
  deriving DecidableEq, Repr

/-- The characters of a piece. -/
def Piece.written {α : Type} [Mark α] : Piece α → List Char
  | .literal run => run
  | .mark value => Mark.written value

namespace Mark

variable {α : Type} [Mark α]

/-- What a search for a mark finds: the text before it, the mark, and the text behind it. -/
structure Found (α : Type) where
  before : List Char
  mark : α
  behind : List Char

/-- The leftmost mark of a text. -/
def first? : List Char → Option (Found α)
  | [] => none
  | c :: text =>
      match at? (c :: text) with
      | some mark => some ⟨[], mark, (c :: text).drop (written mark).length⟩
      | none => (first? text).map fun found => { found with before := c :: found.before }

/-- Before, mark and behind make up the text. -/
theorem eq_of_first? {text : List Char} {found : Found α} (h : first? text = some found) :
    text = found.before ++ written found.mark ++ found.behind := by
  induction text generalizing found with
  | nil => simp [first?] at h
  | cons c text ih =>
      simp only [first?] at h
      split at h
      · rename_i mark here
        cases h
        obtain ⟨rest, same⟩ := initial_of_at? here
        simp [← same]
      · obtain ⟨later, hlater, rfl⟩ := Option.map_eq_some_iff.1 h
        simp [ih hlater]

/-- The text behind the leftmost mark is shorter than the whole. -/
theorem length_behind_lt {text : List Char} {found : Found α} (h : first? text = some found) :
    found.behind.length < text.length := by
  have nonempty := List.length_pos_iff.2 (written_ne_nil found.mark)
  rw [eq_of_first? h]
  simp
  omega

/-- A literal run as pieces; an empty run is none. -/
def runPieces (run : List Char) : List (Piece α) :=
  if run = [] then [] else [.literal run]

/-- The literal runs and the leftmost, non-overlapping marks of a text, in order. -/
def pieces (text : List Char) : List (Piece α) :=
  match h : first? text with
  | none => runPieces text
  | some found => runPieces found.before ++ .mark found.mark :: pieces found.behind
termination_by text.length
decreasing_by exact length_behind_lt h

/-- The text that pieces are cut from. -/
def concat (parts : List (Piece α)) : List Char :=
  parts.flatMap Piece.written

@[simp] theorem concat_nil : concat ([] : List (Piece α)) = [] := by
  simp [concat]

@[simp] theorem concat_cons (piece : Piece α) (parts : List (Piece α)) :
    concat (piece :: parts) = piece.written ++ concat parts := by
  simp [concat]

@[simp] theorem concat_append (left right : List (Piece α)) :
    concat (left ++ right) = concat left ++ concat right := by
  simp [concat]

@[simp] theorem concat_runPieces (run : List Char) :
    concat (runPieces run : List (Piece α)) = run := by
  by_cases h : run = [] <;> simp [runPieces, h, Piece.written]

/-- The pieces of a text make up the text. -/
theorem concat_pieces (text : List Char) : concat (pieces text : List (Piece α)) = text := by
  fun_induction (pieces text : List (Piece α)) with
  | case1 text h => simp
  | case2 text found h ih => simp [Piece.written, ih, eq_of_first? h]

/-! ## Where marks stand -/

/-- The leftmost mark is recognised where it stands. -/
theorem at?_of_first? {text : List Char} {found : Found α} (h : first? text = some found) :
    at? (written found.mark ++ found.behind) = some found.mark := by
  induction text generalizing found with
  | nil => simp [first?] at h
  | cons c text ih =>
      simp only [first?] at h
      split at h
      · rename_i mark here
        cases h
        obtain ⟨rest, same⟩ := initial_of_at? here
        have rest_eq : (c :: text).drop (written mark).length = rest := by
          rw [← same]
          simp
        rw [rest_eq, same]
        exact here
      · -- A later mark stands in the same place behind one more character.
        obtain ⟨later, hlater, rfl⟩ := Option.map_eq_some_iff.1 h
        have recognised := ih hlater
        exact recognised

/-- A mark among the pieces of a text stands somewhere in it, and is recognised there. -/
theorem exists_of_mem_pieces {text : List Char} {mark : α}
    (h : Piece.mark mark ∈ (pieces text : List (Piece α))) :
    ∃ before behind, text = before ++ written mark ++ behind ∧
      at? (written mark ++ behind) = some mark := by
  fun_induction (pieces text : List (Piece α)) with
  | case1 text _ =>
      unfold runPieces at h
      split at h <;> simp at h
  | case2 text found first ih =>
      have whole := eq_of_first? first
      simp only [List.mem_append, List.mem_cons] at h
      rcases h with inRun | here | later
      · unfold runPieces at inRun
        split at inRun <;> simp at inRun
      · cases here
        exact ⟨found.before, found.behind, whole, at?_of_first? first⟩
      · obtain ⟨before, behind, same, recognised⟩ := ih later
        refine ⟨found.before ++ written found.mark ++ before, behind, ?_, recognised⟩
        rw [whole, same]
        simp

end Mark
end Stencil
