import Stencil.Tag.Search

/-!
# Search — the next tag is the leftmost one inside the limit

The search goes from one pair of opening braces to the next in a text that the limit cuts short.  Every
tag starts with a pair of braces, so none is passed over; and a tag is read in the text cut short
exactly if it is read in the whole text and ends at or before the limit.

* `Tag.exists_candidate?` — no tag is passed over by going to the next pair of braces;
* `Tag.exists_next?` — of the tags between two byte offsets, none is in front of what is found;
* `Tag.form`, `Tag.argument?` — how a tag is printed, and its argument;
* `Tag.next?_leftmost` — the next tag, and the text it stands for.
-/

namespace Stencil

open Text (byteLength IsBoundary)

namespace Tag

/-! ## Pairs of braces -/

/-- Every tag starts with a pair of braces. -/
theorem exists_written_eq_braces (tag : Tag) : ∃ word, tag.written = braces ++ word := by
  cases tag <;> exact ⟨_, rfl⟩

/-- No tag is passed over by going to the next pair of braces. -/
theorem exists_candidate? {text : List Char} {position offset : Nat} {span : Span} :
    IsBoundary text position → lex? text offset = some span → position ≤ offset →
      ∃ start ≤ offset, candidate? text position = some start := by
  rintro ⟨front, rest, rfl, rfl⟩ hread hpast
  rcases lex?_eq_some_iff.1 hread with ⟨before, after, hsame, -, rfl, -⟩
  rcases exists_written_eq_braces span.tag with ⟨word, hword⟩
  rw [hword, List.append_assoc] at hsame
  rcases Text.exists_of_byteLength_le hsame hpast with ⟨gap, rfl, rfl⟩
  rcases @Text.exists_find?_le braces gap (word ++ after) with ⟨found, hle, hfound⟩
  have hcut : Text.splitBytes? (byteLength front) (front ++ (gap ++ (braces ++ word ++ after))) =
      some (front, gap ++ (braces ++ word ++ after)) :=
    Text.splitBytes?_append _ _
  refine ⟨byteLength front + found, ?_, ?_⟩
  · rw [Text.byteLength_append]
    exact Nat.add_le_add_left hle _
  · simp only [List.append_assoc] at hcut hfound
    simp [candidate?, hcut, hfound]

/-- The first of two braces is one byte long. -/
theorem isBoundary_candidate? {text : List Char} {position start : Nat} :
    candidate? text position = some start → IsBoundary text (start + 1) := by
  intro h
  simp only [candidate?, Option.bind_eq_bind, Option.bind_eq_some_iff, Prod.exists,
    Option.pure_def, Option.some.injEq] at h
  rcases h with ⟨front, rest, hcut, found, hfound, rfl⟩
  rcases Text.append_of_splitBytes? hcut with ⟨rfl, rfl⟩
  rcases Text.exists_of_find? hfound with ⟨before, after, rfl, rfl⟩
  refine ⟨front ++ before ++ ['{'], '{' :: after, by simp [braces, Argument.opening], ?_⟩
  simp only [Text.byteLength_append]
  rfl

/-! ## The search -/

/-- A tag that is there is found, unless an earlier one is. -/
theorem exists_search {text : List Char} {position offset : Nat} {span : Span} :
    IsBoundary text position → lex? text offset = some span → position ≤ offset →
      ∃ first, search text position = some first ∧ first.start ≤ offset := by
  intro hboundary hread hpast
  -- By the steps of the search: a rejected pair of braces is followed by a new search.
  fun_induction search text position with
  | case1 position hnone =>
      rcases exists_candidate? hboundary hread hpast with ⟨start, -, hcandidate⟩
      simp [hnone] at hcandidate
  | case2 position start hcandidate first hfirst =>
      rcases exists_candidate? hboundary hread hpast with ⟨same, hle, hsame⟩
      cases hcandidate.symm.trans hsame
      exact ⟨first, rfl, by rw [start_eq_of_lex? hfirst]; exact hle⟩
  | case3 position start hcandidate hrejected ih =>
      rcases exists_candidate? hboundary hread hpast with ⟨same, hle, hsame⟩
      cases hcandidate.symm.trans hsame
      -- The tag is not at the rejected place, so it is behind it.
      have hbehind : start ≠ offset := by
        rintro rfl
        simp [hrejected] at hread
      exact ih (isBoundary_candidate? hcandidate) (by omega)

theorem next?_append (window behind : List Char) (start : Nat) :
    next? (window ++ behind) start (byteLength window) = search window start := by
  simp [next?, Text.splitBytes?_append]

/-- Whatever lies inside, something is found that does not start behind it. -/
theorem exists_next? {text : List Char} {start limit : Nat} {span : Span} :
    IsBoundary text start → IsBoundary text limit → span.Inside text start limit →
      ∃ first, next? text start limit = some first ∧ first.start ≤ span.start := by
  rintro hstart ⟨window, behind, rfl, rfl⟩ ⟨hread, hpast, hwithin⟩
  have hspan := start_lt_stop_of_lex? hread
  rw [next?_append]
  exact exists_search (hstart.of_append (by omega)) (lex?_append.2 ⟨hread, hwithin⟩) hpast

/-! ## The text of a tag -/

/-- The argument of a tag that takes one. -/
def argument? : Tag → Option String
  | value key | loop key => some key
  | test condition => some condition
  | otherwise | separator | close => none

/-- The printed form of a tag. -/
def form : Tag → String
  | value key => "\x7b\x7b=" ++ key ++ "\x7d\x7d"
  | loop key => "\x7b\x7bfor:" ++ key ++ "\x7d\x7d"
  | test condition => "\x7b\x7bif:" ++ condition ++ "\x7d\x7d"
  | otherwise => "\x7b\x7belse\x7d\x7d"
  | separator => "\x7b\x7bsep\x7d\x7d"
  | close => "\x7b\x7bend\x7d\x7d"

theorem toList_form (tag : Tag) : tag.form.toList = tag.written := by
  cases tag <;> simp [form, written, bare, Argument.written, Argument.opening, Argument.close]

theorem Valid.argument {tag : Tag} {argument : String} :
    tag.Valid → tag.argument? = some argument → argument ≠ "" ∧ '}' ∉ argument.toList := by
  intro hvalid hargument
  -- All three kinds with an argument ask the same of it.
  have hinner : Argument.Valid argument.toList := by
    cases tag <;> cases hargument <;> exact hvalid
  exact ⟨fun hempty => hinner.1 (by rw [hempty]; rfl), hinner.2⟩

/-- The next tag is the leftmost one that lies between the two offsets, and there is none only if no tag
does.  What stands between its start and its end is its printed form. -/
theorem next?_leftmost {text : List Char} {start limit : Nat}
    (boundaries : IsBoundary text start ∧ IsBoundary text limit) :
    (∀ span, next? text start limit = some span ↔
      span.Inside text start limit ∧
        ∀ other : Span, other.Inside text start limit → span.start ≤ other.start) ∧
    (next? text start limit = none ↔ ∀ span : Span, ¬ span.Inside text start limit) ∧
    (∀ span, next? text start limit = some span →
      Text.slice? text span.start span.stop = some span.tag.form.toList ∧
      ∀ argument, span.tag.argument? = some argument →
        argument ≠ "" ∧ '}' ∉ argument.toList) := by
  rcases boundaries with ⟨hstart, hlimit⟩
  have hleast : ∀ {span : Span}, next? text start limit = some span →
      ∀ other : Span, other.Inside text start limit → span.start ≤ other.start := by
    intro span hfound other hother
    rcases exists_next? hstart hlimit hother with ⟨first, hfirst, hle⟩
    cases hfound.symm.trans hfirst
    exact hle
  refine ⟨fun span => ⟨fun hfound => ⟨next?_inside hfound, hleast hfound⟩, ?_⟩, ⟨?_, ?_⟩, ?_⟩
  · -- Two leftmost tags start at the same place, so they are the same.
    rintro ⟨hinside, hleftmost⟩
    rcases exists_next? hstart hlimit hinside with ⟨first, hfirst, hle⟩
    have hread := (next?_inside hfirst).read
    rw [Nat.le_antisymm hle (hleftmost first (next?_inside hfirst)), hinside.read] at hread
    rw [hfirst, Option.some.inj hread]
  · intro hnone span hinside
    rcases exists_next? hstart hlimit hinside with ⟨first, hfirst, -⟩
    simp [hnone] at hfirst
  · intro hfree
    cases hfound : next? text start limit with
    | none =>
        rfl
    | some span =>
        exact absurd (next?_inside hfound) (hfree span)
  · intro span hfound
    rcases lex?_eq_some_iff.1 (next?_inside hfound).read with
      ⟨before, after, hsame, hvalid, hlength, -, hstop⟩
    rw [toList_form]
    exact ⟨Text.slice?_eq_some_iff.2 ⟨before, after, hsame, hlength, hstop.symm⟩,
      fun argument => hvalid.argument⟩

/-- Of three braces the first is passed over, and the tag that the limit cuts is none. -/
theorem next?_leftmost_braces :
    let text := ("é\x7b" ++ (value "x").toText ++ close.toText).toList
    (IsBoundary text 2 ∧ IsBoundary text 15) ∧
      next? text 2 15 = some ⟨value "x", 3, 9⟩ ∧
      Text.slice? text 3 9 = some (value "x").form.toList := by
  intro text
  have hboundaries : IsBoundary text 2 ∧ IsBoundary text 15 := by
    constructor
    · exact ⟨text.take 1, text.drop 1, by decide, by decide⟩
    · exact ⟨text.take 14, text.drop 14, by decide, by decide⟩
  have hspec := next?_leftmost hboundaries
  have hfound : next? text 2 15 = some ⟨value "x", 3, 9⟩ := by
    refine (hspec.1 _).2 ⟨⟨by decide, by decide, by decide⟩, fun other hother => ?_⟩
    -- Only the first brace is before it.
    refine Nat.lt_of_le_of_ne hother.start_le fun hbrace => ?_
    have hread := hother.read
    rw [← hbrace] at hread
    have hnone : lex? text 2 = none := by decide
    simp [hnone] at hread
  exact ⟨hboundaries, hfound, (hspec.2.2 _ hfound).1⟩

end Tag
end Stencil
