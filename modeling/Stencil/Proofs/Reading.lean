import Mathlib.Data.List.Chain
import Stencil.Tag.Lexeme

/-!
# Reading — the lexemes of a text, said without the scan

A text is read from left to right: the leftmost tag is taken, reading goes on behind it, and what
stands between two tags is one literal run.  This file says so as a relation that names the six
forms of tags only through how they are written, and proves that the scan computes it.

* `Tag.Leads` — a tag stands at the head of a text;
* `Lexeme.Reads` — the lexemes that a text is read as;
* `Lexeme.reads_iff` — they are those of `Lexeme.ofText`;
* `Lexeme.clean_ofText` — no two runs stand side by side, and none is empty.
-/

namespace Stencil

/-! ## The leftmost mark -/

namespace Mark

variable {α : Type} [Mark α]

theorem at?_nil : (at? [] : Option α) = none := by
  cases h : (at? [] : Option α) with
  | none =>
      rfl
  | some mark =>
      have hnil : written mark = [] := by
        simpa using initial_of_at? h
      exact absurd hnil (written_ne_nil mark)

theorem first?_eq_none_iff {text : List Char} :
    (first? text : Option (Found α)) = none ↔
      ∀ before behind, text = before ++ behind → (at? behind : Option α) = none := by
  induction text with
  | nil =>
      simp [first?, at?_nil]
  | cons c text ih =>
      cases h : (at? (c :: text) : Option α) with
      | some mark =>
          have hsome : (first? (c :: text) : Option (Found α)) ≠ none := by
            simp [first?, h]
          refine ⟨fun hnone => absurd hnone hsome, fun hfree => ?_⟩
          have := hfree [] (c :: text) rfl
          simp [h] at this
      | none =>
          have hstep : (first? (c :: text) : Option (Found α)) = none ↔
              (first? text : Option (Found α)) = none := by
            simp [first?, h]
          rw [hstep, ih]
          constructor
          · intro hfree before behind heq
            cases before with
            | nil =>
                have : behind = c :: text := by simpa using heq.symm
                exact this ▸ h
            | cons d before =>
                have htail : text = before ++ behind := by simp_all
                exact hfree before behind htail
          · intro hfree before behind heq
            exact hfree (c :: before) behind (by simp [heq])

/-- No mark stands at an earlier place than the leftmost one. -/
theorem at?_eq_none_of_first? {text : List Char} {found : Found α} :
    first? text = some found → ∀ left right, found.before = left ++ right → right ≠ [] →
      (at? (right ++ written found.mark ++ found.behind) : Option α) = none := by
  intro h
  induction text generalizing found with
  | nil =>
      simp [first?] at h
  | cons c text ih =>
      intro left right hsplit hne
      have hwhole := eq_of_first? h
      cases hhere : (at? (c :: text) : Option α) with
      | some mark =>
          have hbefore : found.before = [] := by
            have : found = ⟨[], mark, (c :: text).drop (written mark).length⟩ := by
              simpa [first?, hhere] using h.symm
            simp [this]
          simp_all
      | none =>
          have hlater : ∃ later, first? text = some later ∧
              { later with before := c :: later.before } = found := by
            simpa [first?, hhere] using h
          rcases hlater with ⟨later, hlater, rfl⟩
          cases left with
          | nil =>
              -- The whole text stands here, and no mark is at its head.
              have hright : right = c :: later.before := by simpa using hsplit.symm
              rw [hright, ← hwhole]
              exact hhere
          | cons d left =>
              have htail : later.before = left ++ right := by simp_all
              exact ih hlater left right htail hne

/-- The leftmost mark is the one before which no other stands. -/
theorem first?_eq_some {before behind : List Char} {mark : α} :
    at? (written mark ++ behind) = some mark →
      (∀ left right, before = left ++ right → right ≠ [] →
        (at? (right ++ written mark ++ behind) : Option α) = none) →
      first? (before ++ written mark ++ behind) = some ⟨before, mark, behind⟩ := by
  intro hhere
  induction before with
  | nil =>
      intro _
      cases hword : written mark with
      | nil =>
          exact absurd hword (written_ne_nil mark)
      | cons c word =>
          rw [hword] at hhere
          simp only [List.nil_append, List.cons_append] at hhere ⊢
          simp [first?, hhere, hword]
  | cons c before ih =>
      intro hfree
      have hnone := hfree [] (c :: before) rfl (by simp)
      have hlater := ih fun left right hsplit hne => hfree (c :: left) right (by simp [hsplit]) hne
      simp only [List.cons_append, List.append_assoc] at hnone hlater ⊢
      simp [first?, hnone, hlater]

/-- A text without marks is one run. -/
theorem pieces_of_first?_eq_none {text : List Char} :
    (first? text : Option (Found α)) = none → (pieces text : List (Piece α)) = runPieces text := by
  intro h
  rw [pieces]
  split
  · rfl
  · simp_all

/-- Any other text is cut at its leftmost mark, and then behind it. -/
theorem pieces_of_first?_eq_some {text : List Char} {found : Found α} :
    first? text = some found →
      pieces text = runPieces found.before ++ .mark found.mark :: pieces found.behind := by
  intro h
  rw [pieces]
  split
  · simp_all
  · rename_i other hother
    have : other = found := by simpa [hother] using h
    rw [this]

end Mark

/-! ## Tags at the head of a text -/

namespace Tag

/-- One of the six forms of tags stands at the head of a text. -/
def Leads (text : List Char) : Prop :=
  ∃ tag : Tag, tag.Valid ∧ tag.written <+: text

theorem at?_eq_none_iff {text : List Char} : at? text = none ↔ ¬ Leads text := by
  constructor
  · rintro hnone ⟨tag, hvalid, hlead⟩
    have hsome : at? text = some tag := at?_eq_some_iff.2 ⟨hvalid, hlead⟩
    simp [hnone] at hsome
  · intro hfree
    cases h : at? text with
    | none =>
        rfl
    | some tag =>
        exact absurd ⟨tag, at?_eq_some_iff.1 h⟩ hfree

theorem at?_written {tag : Tag} (valid : tag.Valid) (rest : List Char) :
    at? (tag.written ++ rest) = some tag :=
  at?_eq_some_iff.2 ⟨valid, List.prefix_append tag.written rest⟩

/-- Every tag starts with a brace. -/
theorem head_written (tag : Tag) : ∃ word, tag.written = '{' :: word := by
  cases tag <;> exact ⟨_, rfl⟩

end Tag

/-! ## Lexemes -/

namespace Lexeme

open Text (byteLength)

/-- A literal run as lexemes; an empty run is none. -/
def ofRun (run : List Char) : List Lexeme :=
  if run = [] then [] else [.literal run]

/-- The lexemes that a text, starting at a byte offset, is read as. -/
inductive Reads : Nat → List Char → List Lexeme → Prop where
  | run {offset : Nat} {run : List Char}
      (free : ∀ left right, run = left ++ right → ¬ Tag.Leads right) :
      Reads offset run (ofRun run)
  | tag {offset : Nat} {before behind : List Char} {tag : Tag} {lexemes : List Lexeme}
      (valid : tag.Valid)
      (leftmost : ∀ left right, before = left ++ right → right ≠ [] →
        ¬ Tag.Leads (right ++ tag.written ++ behind))
      (rest : Reads (offset + byteLength before + byteLength tag.written) behind lexemes) :
      Reads offset (before ++ tag.written ++ behind)
        (ofRun before ++ .tag tag (offset + byteLength before) :: lexemes)

theorem place_runPieces_append (offset : Nat) (run : List Char) (parts : List (Piece Tag)) :
    place offset (Mark.runPieces run ++ parts) =
      ofRun run ++ place (offset + byteLength run) parts := by
  by_cases h : run = [] <;> simp [Mark.runPieces, ofRun, place, h]

/-- A text without tags is one literal run. -/
theorem ofText_of_first?_eq_none {text : List Char} (offset : Nat) :
    (Mark.first? text : Option (Mark.Found Tag)) = none → ofText offset text = ofRun text := by
  intro h
  simpa [ofText, Mark.pieces_of_first?_eq_none h, place] using
    place_runPieces_append offset text []

/-- Any other text is read up to its leftmost tag, and then behind it. -/
theorem ofText_of_first?_eq_some {text : List Char} {found : Mark.Found Tag} (offset : Nat) :
    Mark.first? text = some found →
      ofText offset text =
        ofRun found.before ++ .tag found.mark (offset + byteLength found.before) ::
          ofText (offset + byteLength found.before + byteLength found.mark.written)
            found.behind := by
  intro h
  simp [ofText, Mark.pieces_of_first?_eq_some h, place_runPieces_append, place]

/-- The scan finds a tag where the relation takes one. -/
theorem ofText_append {before behind : List Char} {tag : Tag} (offset : Nat) :
    tag.Valid →
      (∀ left right, before = left ++ right → right ≠ [] →
        ¬ Tag.Leads (right ++ tag.written ++ behind)) →
      ofText offset (before ++ tag.written ++ behind) =
        ofRun before ++ .tag tag (offset + byteLength before) ::
          ofText (offset + byteLength before + byteLength tag.written) behind := by
  intro hvalid hleftmost
  have hfirst : Mark.first? (before ++ tag.written ++ behind) =
      some (⟨before, tag, behind⟩ : Mark.Found Tag) := by
    refine Mark.first?_eq_some (Tag.at?_written hvalid behind) ?_
    intro left right hsplit hne
    exact Tag.at?_eq_none_iff.2 (hleftmost left right hsplit hne)
  exact ofText_of_first?_eq_some offset hfirst

theorem reads_ofText (offset : Nat) (text : List Char) :
    Reads offset text (ofText offset text) := by
  -- The text behind a tag is not the tail of the text, so the induction is on the length.
  induction h : text.length using Nat.strong_induction_on generalizing offset text with
  | _ length ih =>
      subst h
      cases hfirst : (Mark.first? text : Option (Mark.Found Tag)) with
      | none =>
          rw [ofText_of_first?_eq_none offset hfirst]
          refine .run fun left right hsplit => ?_
          exact Tag.at?_eq_none_iff.1 (Mark.first?_eq_none_iff.1 hfirst left right hsplit)
      | some found =>
          rw [ofText_of_first?_eq_some offset hfirst]
          have hvalid : found.mark.Valid :=
            (Tag.at?_eq_some_iff.1 (Mark.at?_of_first? hfirst)).1
          have hleftmost : ∀ left right, found.before = left ++ right → right ≠ [] →
              ¬ Tag.Leads (right ++ found.mark.written ++ found.behind) := by
            intro left right hsplit hne
            exact Tag.at?_eq_none_iff.1 (Mark.at?_eq_none_of_first? hfirst left right hsplit hne)
          have hrest := ih found.behind.length (Mark.length_behind_lt hfirst)
            (offset + byteLength found.before + byteLength found.mark.written) found.behind rfl
          have hread := Reads.tag hvalid hleftmost hrest
          have hwhole : text = found.before ++ found.mark.written ++ found.behind :=
            Mark.eq_of_first? hfirst
          rw [← hwhole] at hread
          exact hread

/-- A text is read in one way only, and that is how it is scanned. -/
theorem reads_iff {offset : Nat} {text : List Char} {lexemes : List Lexeme} :
    Reads offset text lexemes ↔ lexemes = ofText offset text := by
  constructor
  · intro h
    induction h with
    | run free =>
        rename_i offset run
        have hfirst : (Mark.first? run : Option (Mark.Found Tag)) = none := by
          refine Mark.first?_eq_none_iff.2 fun left right hsplit => ?_
          exact Tag.at?_eq_none_iff.2 (free left right hsplit)
        rw [ofText_of_first?_eq_none offset hfirst]
    | tag valid leftmost rest ih =>
        rw [ofText_append _ valid leftmost, ih]
  · rintro rfl
    exact reads_ofText offset text

/-- A tag behind a run stands in the lexemes behind it. -/
theorem eq_append_of_ofRun_append {run : List Char} {lexemes before after : List Lexeme}
    {tag : Tag} {place : Nat} :
    ofRun run ++ lexemes = before ++ .tag tag place :: after →
      ∃ middle, before = ofRun run ++ middle ∧ lexemes = middle ++ .tag tag place :: after := by
  intro h
  by_cases hrun : run = []
  · exact ⟨before, by simp [ofRun, hrun], by simpa [ofRun, hrun] using h⟩
  · cases before with
    | nil =>
        simp [ofRun, hrun] at h
    | cons first before =>
        have hparts : literal run = first ∧ lexemes = before ++ .tag tag place :: after := by
          simpa [ofRun, hrun] using h
        exact ⟨before, by simp [ofRun, hrun, hparts.1], hparts.2⟩

/-- Reading goes on behind a tag as if the text started there. -/
theorem Reads.behind_tag {offset : Nat} {text : List Char} {lexemes : List Lexeme} :
    Reads offset text lexemes → ∀ {before after : List Lexeme} {tag : Tag} {place : Nat},
      lexemes = before ++ .tag tag place :: after →
        tag.Valid ∧ ∃ front behind, text = front ++ tag.written ++ behind ∧
          place = offset + byteLength front ∧
            Reads (place + byteLength tag.written) behind after := by
  intro h
  induction h with
  | run free =>
      rename_i offset run
      intro before after tag place hsplit
      have hmem : Lexeme.tag tag place ∈ ofRun run := by simp [hsplit]
      by_cases h : run = [] <;> simp [ofRun, h] at hmem
  | tag valid leftmost rest ih =>
      rename_i offset front behind first lexemes
      intro before after tag place hsplit
      rcases eq_append_of_ofRun_append hsplit with ⟨middle, _, hmiddle⟩
      cases middle with
      | nil =>
          -- It is the leftmost tag of the text.
          have hfirst : (first = tag ∧ offset + byteLength front = place) ∧ lexemes = after := by
            simpa using hmiddle
          rcases hfirst with ⟨⟨rfl, rfl⟩, rfl⟩
          exact ⟨valid, front, behind, rfl, rfl, rest⟩
      | cons lexeme middle =>
          simp only [List.cons_append, List.cons.injEq] at hmiddle
          rcases ih hmiddle.2 with ⟨hvalid, later, last, hbehind, hplace, hreads⟩
          refine ⟨hvalid, front ++ first.written ++ later, last, ?_, ?_, hreads⟩
          · simp [hbehind]
          · simp only [hplace, Text.byteLength_append]
            omega

/-! ## Runs -/

/-- Two neighbours are not both literal runs. -/
def Apart : Lexeme → Lexeme → Prop
  | literal _, literal _ => False
  | _, _ => True

theorem Reads.apart {offset : Nat} {text : List Char} {lexemes : List Lexeme} :
    Reads offset text lexemes → lexemes.IsChain Apart := by
  intro h
  induction h with
  | run free =>
      rename_i offset run
      by_cases h : run = [] <;> simp [ofRun, h]
  | tag valid leftmost rest ih =>
      rename_i offset before behind tag lexemes
      have htag : (Lexeme.tag tag (offset + byteLength before) :: lexemes).IsChain Apart :=
        ih.cons fun _ _ => trivial
      by_cases h : before = []
      · simpa [ofRun, h] using htag
      · simpa [ofRun, h, Apart] using htag

theorem Reads.run_ne_nil {offset : Nat} {text run : List Char} {lexemes : List Lexeme} :
    Reads offset text lexemes → literal run ∈ lexemes → run ≠ [] := by
  intro h
  induction h with
  | run free =>
      rename_i offset whole
      intro hmem
      by_cases h : whole = [] <;> simp_all [ofRun]
  | tag valid leftmost rest ih =>
      rename_i offset before behind tag lexemes
      intro hmem
      by_cases h : before = []
      · exact ih (by simpa [ofRun, h] using hmem)
      · have hmem' : run = before ∨ literal run ∈ lexemes := by
          simpa [ofRun, h] using hmem
        rcases hmem' with rfl | hrest
        · exact h
        · exact ih hrest

/-- No run among lexemes is empty, and no two stand side by side. -/
structure Clean (lexemes : List Lexeme) : Prop where
  apart : lexemes.IsChain Apart
  run_ne_nil : ∀ run, .literal run ∈ lexemes → run ≠ []

theorem Clean.part {part lexemes : List Lexeme} (inside : part <:+: lexemes) :
    Clean lexemes → Clean part := by
  rintro ⟨hapart, hruns⟩
  exact ⟨ List.IsChain.infix hapart inside, fun run hmem => hruns run (inside.subset hmem)⟩

theorem Clean.tail {lexeme : Lexeme} {lexemes : List Lexeme} :
    Clean (lexeme :: lexemes) → Clean lexemes :=
  Clean.part (List.infix_cons List.infix_rfl)

/-- Both sides of a lexeme are clean again. -/
theorem Clean.sides {left right : List Lexeme} {lexeme : Lexeme} :
    Clean (left ++ lexeme :: right) → Clean left ∧ Clean right := by
  intro h
  have hright : Clean (lexeme :: right) := h.part (List.suffix_append left _).isInfix
  exact ⟨h.part (List.prefix_append left _).isInfix, hright.tail⟩

theorem clean_ofText (offset : Nat) (text : List Char) : Clean (ofText offset text) :=
  ⟨(reads_ofText offset text).apart,
    fun _ hmem => (reads_ofText offset text).run_ne_nil hmem⟩

end Lexeme
end Stencil
