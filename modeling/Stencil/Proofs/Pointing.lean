import Mathlib.Data.List.DropRight
import Mathlib.Data.List.Induction
import Mathlib.Data.Prod.Lex
import Mathlib.Order.Monotone.Defs
import Stencil.Proofs.FirstError

/-!
# Pointing — a parse error stands at the tag it is about

A position counts the newlines before a place, and the characters behind the last of them.  Of two
places in a text the later one has the greater position, so a position names one place only.  What
the parser reports is about a tag, and its position names the place of that tag.

* `Position.Marks` — a line and a column as counts over the text in front;
* `Position.rank_ofOffset_strictMonoOn` — positions grow along a text;
* `ParseError.Cause.Names` — the tag that a cause is about;
* `Pass.Reported.names` — what is reported names a tag of the text;
* `Template.parse_error_points` — and points at it.
-/

namespace Stencil

/-! ## Positions along a text -/

namespace Position

open Text (byteLength IsBoundary)

/-- The line and the column of the place behind a text: newlines are counted for the one, and
characters behind the last newline for the other. -/
structure Marks (position : Position) (before : List Char) : Prop where
  line : position.line = before.count '\n' + 1
  column : position.column = (before.rtakeWhile (· ≠ '\n')).length + 1

theorem marks_after (before : List Char) : (after before).Marks before := by
  induction before using List.reverseRecOn with
  | nil =>
      exact ⟨rfl, rfl⟩
  | append_singleton before c ih =>
      rw [after_concat]
      by_cases hc : c = '\n'
      · subst hc
        constructor
        · simp [step, ih.line]
        · simp [step]
      · constructor
        · simp [step, hc, ih.line]
        · simp [step, hc, ih.column]

theorem marks_iff {position : Position} {before : List Char} :
    position.Marks before ↔ position = after before := by
  constructor
  · rintro ⟨hline, hcolumn⟩
    have hafter := marks_after before
    have hsameLine := hline.trans hafter.line.symm
    have hsameColumn := hcolumn.trans hafter.column.symm
    rcases position with ⟨line, column⟩
    simp_all
  · rintro rfl
    exact marks_after before

/-- Positions in the order of reading: by line, and by column within a line. -/
def rank (position : Position) : ℕ ×ₗ ℕ := toLex (position.line, position.column)

theorem rank_lt_step (position : Position) (c : Char) : position.rank < (position.step c).rank := by
  rw [rank, rank, Prod.Lex.toLex_lt_toLex]
  by_cases hc : c = '\n' <;> simp [step, hc]

theorem rank_le_foldl (position : Position) (more : List Char) :
    position.rank ≤ (more.foldl step position).rank := by
  induction more generalizing position with
  | nil =>
      exact le_refl _
  | cons c more ih =>
      exact (rank_lt_step position c).le.trans (ih _)

/-- A longer part of a text ends at a greater position. -/
theorem rank_after_lt (before : List Char) {more : List Char} :
    more ≠ [] → (after before).rank < (after (before ++ more)).rank := by
  intro h
  cases more with
  | nil =>
      exact absurd rfl h
  | cons c more =>
      rw [after, after, List.foldl_append, List.foldl_cons]
      exact (rank_lt_step _ c).trans_le (rank_le_foldl _ more)

/-- The positions of the places in a text grow in the order of reading. -/
theorem rank_ofOffset_strictMonoOn (text : List Char) :
    StrictMonoOn (fun offset => (ofOffset text offset).rank) {offset | IsBoundary text offset} := by
  rintro _ ⟨before, rest, rfl, rfl⟩ _ ⟨later, behind, hsame, rfl⟩ hlt
  -- The later place has more of the text in front of it.
  rcases Text.exists_of_byteLength_le hsame hlt.le with ⟨more, rfl, rfl⟩
  have hmore : more ≠ [] := by
    rintro rfl
    simp at hlt
  have hlater := ofOffset_byteLength (before ++ more) behind
  rw [List.append_assoc] at hlater
  simpa only [ofOffset_byteLength, hlater] using rank_after_lt before hmore

/-- No two places of a text have the same position. -/
theorem ofOffset_injOn (text : List Char) :
    Set.InjOn (ofOffset text) {offset | IsBoundary text offset} := by
  intro left hleft right hright h
  exact (rank_ofOffset_strictMonoOn text).injOn hleft hright (congrArg rank h)

theorem Marks.unique {position : Position} {text before rest other behind : List Char} :
    position.Marks before → text = before ++ rest → text = other ++ behind →
      position.Marks other → other = before := by
  rintro hbefore rfl hsame hother
  have hposition : ofOffset (before ++ rest) (byteLength other) =
      ofOffset (before ++ rest) (byteLength before) := by
    rw [ofOffset_byteLength, ← marks_iff.1 hbefore, marks_iff.1 hother, hsame, ofOffset_byteLength]
  have hlength : byteLength other = byteLength before :=
    ofOffset_injOn _ ⟨other, behind, hsame, rfl⟩ ⟨before, rest, rfl, rfl⟩ hposition
  rcases Text.exists_of_byteLength_le hsame hlength.ge with ⟨more, rfl, hmore⟩
  have hnil : more = [] := Text.eq_nil_of_byteLength_eq_zero (by simpa using hlength)
  simp [hnil]

/-- An offset at which no character starts stands for the end of the text. -/
theorem ofOffset_of_not_boundary {text : List Char} {offset : Nat} :
    ¬ IsBoundary text offset → ofOffset text offset = after text := by
  intro h
  rw [ofOffset, Text.splitBytes?_eq_none_iff.2 h]

end Position

/-! ## What an error is about -/

/-- The tag that a cause is about. -/
inductive ParseError.Cause.Names : ParseError.Cause → Tag → Prop where
  | unclosedBlock {tag : Tag} (opens : tag.opens) : Names (.unclosedBlock tag.toText) tag
  | unexpectedElse : Names (.unexpectedTag Tag.otherwise.toText) .otherwise
  | unexpectedClose : Names (.unexpectedTag Tag.close.toText) .close
  | misplacedSeparator : Names .misplacedSeparator .separator
  | duplicateElse : Names .duplicateElse .otherwise

namespace Pass

open Stencil.Parser (Flaw)

/-- A tag that may not stand where it stands is blamed itself. -/
theorem names_of_step {stack : List Frame} {tag : Tag} {offset : Nat} {flaw : Flaw} :
    step stack (.tag tag offset) = .error flaw → flaw.offset = offset ∧ flaw.cause.Names tag := by
  intro h
  cases tag with
  | value key | loop key | test condition =>
      cases h
  | otherwise =>
      simp only [step] at h
      split at h <;> cases h
      · exact ⟨rfl, .duplicateElse⟩
      · exact ⟨rfl, .unexpectedElse⟩
  | separator =>
      simp only [step] at h
      split at h <;> cases h
      exact ⟨rfl, .misplacedSeparator⟩
  | close =>
      simp only [step] at h
      split at h <;> cases h
      exact ⟨rfl, .unexpectedClose⟩

theorem Place.mem {lexemes : List Lexeme} (place : Place lexemes) :
    .tag place.tag place.offset ∈ lexemes := by
  rcases place with ⟨before, tag, offset, behind, rfl⟩
  simp

theorem Reported.names {lexemes : List Lexeme} {flaw : Flaw} :
    Reported lexemes flaw →
      ∃ place : Place lexemes, flaw.offset = place.offset ∧ flaw.cause.Names place.tag := by
  intro h
  cases h with
  | unclosed place hunclosed _ =>
      exact ⟨place, rfl, .unclosedBlock hunclosed.1⟩
  | illegal place hillegal _ =>
      rcases hillegal with ⟨stack, _, hstep⟩
      exact ⟨place, names_of_step hstep⟩

end Pass

namespace Template

open Text (byteLength IsBoundary)

theorem exists_tag_of_parse_error {text : String} {error : ParseError} :
    parse text = .error error →
      ∃ before tag behind, text.toList = before ++ (tag.written ++ behind) ∧
        .tag tag (byteLength before) ∈ Lexeme.ofText 0 text.toList ∧
          error.cause.Names tag ∧ error.position = Position.after before := by
  intro h
  rcases parse_eq_error_iff.1 h with ⟨flaw, hnodes, rfl⟩
  have hreported := (Pass.nodes_eq_error_iff (Lexeme.clean_ofText 0 text.toList)).1 hnodes
  rcases hreported.names with ⟨place, hoffset, hnames⟩
  -- The parser knows offsets of lexemes, so the text is cut where the lexeme was read.
  rcases (Lexeme.reads_ofText 0 text.toList).behind_tag place.eq with
    ⟨_, before, behind, hcut, hplace, _⟩
  have hstart : place.offset = byteLength before := by omega
  have hwhole : text.toList = before ++ (place.tag.written ++ behind) := by simpa using hcut
  refine ⟨before, place.tag, behind, hwhole, hstart ▸ place.mem, hnames, ?_⟩
  rw [ParseError.atOffset, hoffset, hstart, hwhole, Position.ofOffset_byteLength]

/-- Every error of the parser names a tag of the text and gives the position at which that tag
stands, and no other place of the text has this position. -/
theorem parse_error_points (text : String) :
    (∀ error, parse text = .error error →
      ∃ before tag behind, text.toList = before ++ (tag.written ++ behind) ∧
        (∀ lexemes, Lexeme.Reads 0 text.toList lexemes →
          .tag tag (byteLength before) ∈ lexemes) ∧
        error.cause.Names tag ∧ error.position.Marks before ∧
          ∀ other rest, text.toList = other ++ rest → error.position.Marks other →
            other = before) ∧
      (∀ before rest, text.toList = before ++ rest →
        (Position.ofOffset text.toList (byteLength before)).Marks before) ∧
      StrictMonoOn (fun offset => (Position.ofOffset text.toList offset).rank)
        {offset | IsBoundary text.toList offset} ∧
      Set.InjOn (Position.ofOffset text.toList) {offset | IsBoundary text.toList offset} ∧
      ∀ offset, ¬ IsBoundary text.toList offset →
        (Position.ofOffset text.toList offset).Marks text.toList := by
  refine ⟨fun error herror => ?_, fun before rest hcut => ?_,
    Position.rank_ofOffset_strictMonoOn _, Position.ofOffset_injOn _, fun offset hoffset => ?_⟩
  · rcases exists_tag_of_parse_error herror with
      ⟨before, tag, behind, hcut, hmem, hnames, hposition⟩
    have hmarks : error.position.Marks before := Position.marks_iff.2 hposition
    refine ⟨before, tag, behind, hcut, fun lexemes hreads => ?_, hnames, hmarks,
      fun other rest hother hsame => hmarks.unique hcut hother hsame⟩
    rw [Lexeme.reads_iff.1 hreads]
    exact hmem
  · rw [hcut, Position.ofOffset_byteLength]
    exact Position.marks_after before
  · rw [Position.ofOffset_of_not_boundary hoffset]
    exact Position.marks_after text.toList

theorem parse_error_points_behind_newlines :
    let before := "é\n" ++ (Tag.loop "a\nb").toText ++ "ü"
    let text := before ++ (Tag.separator.toText ++ "," ++ Tag.close.toText ++ Tag.close.toText)
    let error : ParseError := ⟨⟨3, 5⟩, .misplacedSeparator⟩
    parse text = .error error ∧
      (∃ lexemes, Lexeme.Reads 0 text.toList lexemes ∧
        .tag .separator (byteLength before.toList) ∈ lexemes) ∧
      error.position.Marks before.toList ∧
      (∀ other rest, text.toList = other ++ rest → error.position.Marks other →
        other = before.toList) ∧
      (Position.ofOffset text.toList (byteLength before.toList)).Marks before.toList ∧
      ¬ IsBoundary text.toList 1 ∧ (Position.ofOffset text.toList 1).Marks text.toList := by
  intro before text error
  have hparse : parse text = .error error := by
    subst text before
    with_unfolding_all rfl
  have hinside : ¬ IsBoundary text.toList 1 := by
    refine Text.splitBytes?_eq_none_iff.1 ?_
    subst text before
    decide +kernel
  have hcut : text.toList = before.toList ++
      (Tag.separator.toText ++ "," ++ Tag.close.toText ++ Tag.close.toText).toList := by
    simp [text]
  have hmarks : error.position.Marks before.toList := by
    subst error before
    exact ⟨by decide +kernel, by decide +kernel⟩
  rcases parse_error_points text with ⟨hpoints, hplaces, _, _, houtside⟩
  rcases hpoints error hparse with ⟨other, tag, behind, hother, hmem, hnames, hsame, hunique⟩
  cases hunique before.toList _ hcut hmarks
  cases hnames
  exact ⟨hparse, ⟨_, Lexeme.reads_ofText 0 _, hmem _ (Lexeme.reads_ofText 0 _)⟩, hsame, hunique,
    hplaces _ _ hcut, hinside, houtside 1 hinside⟩

end Template
end Stencil
