import Stencil.Tag.Basic
import Stencil.Text.Slice

/-!
# Search — the next tag of a text, by byte offset

A tag is read at a byte offset, and the next tag is looked for from one byte offset on: the search goes
from one pair of opening braces to the next, and takes the first at which a tag can be read.  A limit
cuts the text short, so a tag that goes past it is not found.

* `Span` — a tag with the byte offsets at which it starts and ends;
* `Tag.lex?` — the tag at a byte offset, and `Tag.lex?_eq_some_iff`, which says it by the parts of the
  text;
* `Tag.next?` — the next tag between a byte offset and a limit;
* `Span.Inside`, `Tag.next?_inside` — a tag between two byte offsets, as the one that is found is.
-/

namespace Stencil

open Text (byteLength splitBytes?)

/-- A tag in a text: the byte offsets of its first character and behind its last one. -/
structure Span where
  tag : Tag
  start : Nat
  stop : Nat
  deriving DecidableEq, Repr

namespace Tag

/-! ## The tag at a byte offset -/

/-- The two braces that every tag starts with. -/
def braces : List Char := Argument.opening ""

/-- The tag at a byte offset of a text. -/
def lex? (text : List Char) (offset : Nat) : Option Span := do
  let (_, rest) ← splitBytes? offset text
  let tag ← at? rest
  return ⟨tag, offset, offset + byteLength tag.written⟩

theorem lex?_eq_some_iff {text : List Char} {offset : Nat} {span : Span} :
    lex? text offset = some span ↔
      ∃ before after, text = before ++ span.tag.written ++ after ∧ span.tag.Valid ∧
        byteLength before = offset ∧ span.start = offset ∧
        span.stop = offset + byteLength span.tag.written := by
  constructor
  · intro h
    simp only [lex?, Option.bind_eq_bind, Option.bind_eq_some_iff, Prod.exists, Option.pure_def,
      Option.some.injEq] at h
    rcases h with ⟨before, rest, hcut, tag, hread, rfl⟩
    rcases Text.append_of_splitBytes? hcut with ⟨rfl, hlength⟩
    rcases at?_eq_some_iff.1 hread with ⟨hvalid, after, rfl⟩
    exact ⟨before, after, (List.append_assoc ..).symm, hvalid, hlength, rfl, rfl⟩
  · rcases span with ⟨tag, start, stop⟩
    rintro ⟨before, after, rfl, hvalid, rfl, hstart, hstop⟩
    simp only at hstart hstop hvalid
    subst hstart hstop
    have hread : at? (tag.written ++ after) = some tag :=
      at?_eq_some_iff.2 ⟨hvalid, List.prefix_append _ _⟩
    rw [List.append_assoc, lex?, Text.splitBytes?_append]
    simp [hread]

theorem start_eq_of_lex? {text : List Char} {offset : Nat} {span : Span} :
    lex? text offset = some span → span.start = offset := by
  intro h
  rcases lex?_eq_some_iff.1 h with ⟨_, _, _, _, _, hstart, _⟩
  exact hstart

theorem stop_eq_of_lex? {text : List Char} {offset : Nat} {span : Span} :
    lex? text offset = some span → span.stop = span.start + byteLength span.tag.written := by
  intro h
  rcases lex?_eq_some_iff.1 h with ⟨_, _, _, _, _, hstart, hstop⟩
  rw [hstop, hstart]

/-- A tag is not empty, so it ends behind its start. -/
theorem start_lt_stop_of_lex? {text : List Char} {offset : Nat} {span : Span} :
    lex? text offset = some span → span.start < span.stop := by
  intro h
  have hstop := stop_eq_of_lex? h
  have hpositive : 0 < byteLength span.tag.written := by
    refine Nat.pos_of_ne_zero fun hzero => ?_
    exact written_ne_nil span.tag (Text.eq_nil_of_byteLength_eq_zero hzero)
  omega

theorem stop_le_of_lex? {text : List Char} {offset : Nat} {span : Span} :
    lex? text offset = some span → span.stop ≤ byteLength text := by
  intro h
  rcases lex?_eq_some_iff.1 h with ⟨before, after, rfl, _, rfl, _, hstop⟩
  rw [hstop]
  simp only [Text.byteLength_append]
  omega

/-- A text cut short has the tags that end before the cut. -/
theorem lex?_append {window behind : List Char} {offset : Nat} {span : Span} :
    lex? window offset = some span ↔
      lex? (window ++ behind) offset = some span ∧ span.stop ≤ byteLength window := by
  simp only [lex?_eq_some_iff]
  constructor
  · rintro ⟨before, after, rfl, hvalid, rfl, hstart, hstop⟩
    refine ⟨⟨before, after ++ behind, by simp, hvalid, rfl, hstart, hstop⟩, ?_⟩
    simp only [hstop, Text.byteLength_append]
    omega
  · rintro ⟨⟨before, after, hsame, hvalid, rfl, hstart, hstop⟩, hwithin⟩
    rw [hstop, ← Text.byteLength_append] at hwithin
    rcases Text.exists_of_byteLength_le hsame.symm hwithin with ⟨more, hwindow, -⟩
    exact ⟨before, more, hwindow, hvalid, rfl, hstart, hstop⟩

/-! ## The next tag -/

/-- The next pair of braces of a text, from a byte offset on. -/
def candidate? (text : List Char) (position : Nat) : Option Nat := do
  let (_, rest) ← splitBytes? position text
  let found ← Text.find? braces rest
  return position + found

/-- A pair of braces stands between the offset from which it is looked for and the end of the text. -/
theorem candidate?_bounds {text : List Char} {position start : Nat} :
    candidate? text position = some start → position ≤ start ∧ start < byteLength text := by
  intro h
  simp only [candidate?, Option.bind_eq_bind, Option.bind_eq_some_iff, Prod.exists,
    Option.pure_def, Option.some.injEq] at h
  rcases h with ⟨front, rest, hcut, found, hfound, rfl⟩
  rcases Text.append_of_splitBytes? hcut with ⟨rfl, rfl⟩
  rcases Text.exists_of_find? hfound with ⟨before, after, rfl, rfl⟩
  have hbraces : 0 < byteLength braces := by decide
  simp only [Text.byteLength_append]
  omega

/-- The next tag of a text, from a byte offset on. -/
def search (text : List Char) (position : Nat) : Option Span :=
  match _found : candidate? text position with
  | none => none
  | some start =>
      match lex? text start with
      | some span => some span
      -- Of three braces, the last two can still start a tag.
      | none => search text (start + 1)
termination_by byteLength text - position
decreasing_by
  have := candidate?_bounds _found
  omega

/-- The next tag of a text, from a byte offset on and up to a limit. -/
def next? (text : List Char) (start limit : Nat) : Option Span := do
  let (window, _) ← splitBytes? limit text
  search window start

/-! ## What the search finds -/

theorem lex?_of_search {text : List Char} {position : Nat} {span : Span} :
    search text position = some span → lex? text span.start = some span ∧ position ≤ span.start := by
  intro h
  fun_induction search text position with
  | case1 =>
      cases h
  | case2 position start hcandidate found hread =>
      cases h
      have hstart := start_eq_of_lex? hread
      subst hstart
      exact ⟨hread, (candidate?_bounds hcandidate).1⟩
  | case3 position start hcandidate hrejected ih =>
      rcases ih h with ⟨hread, hpast⟩
      have hbounds := candidate?_bounds hcandidate
      exact ⟨hread, by omega⟩

end Tag

/-- A tag of a text that starts at or behind one byte offset and ends at or before another. -/
structure Span.Inside (text : List Char) (start limit : Nat) (span : Span) : Prop where
  read : Tag.lex? text span.start = some span
  start_le : start ≤ span.start
  stop_le : span.stop ≤ limit

namespace Tag

/-- What is found lies inside. -/
theorem next?_inside {text : List Char} {start limit : Nat} {span : Span} :
    next? text start limit = some span → span.Inside text start limit := by
  intro h
  simp only [next?, Option.bind_eq_bind, Option.bind_eq_some_iff, Prod.exists] at h
  rcases h with ⟨window, behind, hcut, hfound⟩
  rcases Text.append_of_splitBytes? hcut with ⟨rfl, rfl⟩
  rcases lex?_of_search hfound with ⟨hread, hpast⟩
  rcases lex?_append.1 hread with ⟨hwhole, hwithin⟩
  exact ⟨hwhole, hpast, hwithin⟩

/-- The search goes forward, and not past the end of the text. -/
theorem next?_forward {text : List Char} {start limit : Nat} {span : Span} :
    next? text start limit = some span →
      start ≤ span.start ∧ span.start < span.stop ∧ span.stop ≤ byteLength text := by
  intro h
  rcases next?_inside h with ⟨hread, hpast, -⟩
  exact ⟨hpast, start_lt_stop_of_lex? hread, stop_le_of_lex? hread⟩

end Tag
end Stencil
