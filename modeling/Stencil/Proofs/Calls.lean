import Stencil.Proofs.Ranges

/-!
# Calls — no range is read that was not meant to be

No call checks the range that it is made for.  It need not: the range of a nested call closes every
block that is opened in it, because it stands between the tags of a block.  So each call finds the ends
of its own blocks in front of its end, and the calls for them lie strictly inside it.

* `Range.Readable` — a range that closes every block, or goes to the end of the text;
* `Range.Readable.next` — one step leaves such a range, and goes forward;
* `Range.Meets.block` — the contents of a block that a call comes to;
* `Range.Made.error` — an error in any call is the error of the whole text;
* `Range.Calls.within` — a call lies strictly inside its caller, and closes every block;
* `Range.calls_nest` — what holds of every call that is made while a text is read.
-/

namespace Stencil
namespace Range

open Block (Balanced split?)
open Text (byteLength IsBoundary slice?)

variable {text : String}

/-! ## One step -/

/-- A range that is read as lexemes which close every block, unless the text ends there. -/
structure Readable (text : String) (start stop : Nat) (lexemes : List Lexeme) : Prop where
  stretch : Stretch text.toList start stop lexemes
  ends : Balanced lexemes ∨ stop = byteLength text.toList

/-- The block of a tag whose end is located has its contents in front of that end. -/
theorem exists_block {span : Span} {stop close : Nat} {rest : List Lexeme} (opens : span.tag.opens)
    (read : Tag.lex? text.toList span.start = some span)
    (ends : Balanced (.tag span.tag span.start :: rest) ∨ stop = byteLength text.toList)
    (located : locate text span.start = .ok close) :
    Stretch text.toList span.stop stop rest →
      ∃ block, split? 0 rest = some block ∧ block.close = close := by
  intro h
  rw [locate_of_stretch opens read ends h] at located
  cases hblock : split? 0 rest with
  | none =>
      -- Then the block is not closed, and locating its end fails.
      rw [hblock] at located
      cases located
  | some block =>
      rw [hblock] at located
      exact ⟨block, rfl, Except.ok.inj located⟩

/-- A step goes behind a tag that opens and closes nothing, or behind the block that a tag opens. -/
theorem Step.exists_span {call : Call} {progress next : Progress} :
    Step text call progress next →
      ∃ span, Tag.next? text.toList progress.position call.stop = some span ∧
        ((Block.deepen 1 (.tag span.tag span.start) = 1 ∧ next.position = span.stop) ∨
          (span.tag.opens ∧ ∃ close, locate text span.start = .ok close ∧
            next.position = behindClose close)) := by
  intro h
  cases h with
  | value hfound htag =>
      exact ⟨_, hfound, .inl ⟨by rw [htag]; rfl, rfl⟩⟩
  | loop hfound htag hlocate hnode =>
      exact ⟨_, hfound, .inr ⟨by rw [htag]; rfl, _, hlocate, rfl⟩⟩
  | test hfound htag hlocate hinner =>
      exact ⟨_, hfound, .inr ⟨by rw [htag]; rfl, _, hlocate, rfl⟩⟩
  | otherwise hfound htag hkind hfirst =>
      exact ⟨_, hfound, .inl ⟨by rw [htag]; rfl, rfl⟩⟩

/-- What the search finds in a readable range, and what is left behind it. -/
theorem Readable.at_next {start stop : Nat} {lexemes : List Lexeme} {span : Span}
    (found : Tag.next? text.toList start stop = some span) :
    Readable text start stop lexemes →
      ∃ rest, Stretch text.toList span.stop stop rest ∧
        (Balanced (.tag span.tag span.start :: rest) ∨ stop = byteLength text.toList) ∧
        (Balanced lexemes → Balanced (.tag span.tag span.start :: rest)) := by
  rintro ⟨hstretch, hends⟩
  rcases hstretch.cases with ⟨_, _, _, hnone⟩ | ⟨run, other, rest, _, rfl, _, hother, hrest⟩
  · simp [hnone] at found
  · cases found.symm.trans hother
    exact ⟨rest, hrest, hends.imp_left balanced_ofRun_append.1, balanced_ofRun_append.1⟩

/-- One step leaves a readable range, in which every block is closed if it was so before. -/
theorem Readable.next {call : Call} {progress next : Progress} {lexemes : List Lexeme}
    (step : Step text call progress next) :
    Readable text progress.position call.stop lexemes →
      progress.position < next.position ∧
        ∃ rest, Readable text next.position call.stop rest ∧
          (Balanced lexemes → Balanced rest) := by
  intro h
  rcases step.exists_span with ⟨span, hfound, hnext⟩
  rcases h.at_next hfound with ⟨rest, hrest, hends, hkeeps⟩
  rcases Tag.next?_inside hfound with ⟨hread, hpast, -⟩
  have hforward := Tag.start_lt_stop_of_lex? hread
  rcases hnext with ⟨hneutral, hnext⟩ | ⟨hopens, close, hclose, hnext⟩
  · -- The tag opens nothing, so the depth behind it is the same.
    have hrestKeeps : Balanced (.tag span.tag span.start :: rest) → Balanced rest :=
      (Balanced.cons_iff hneutral).1
    rw [hnext]
    exact ⟨by omega, rest, ⟨hrest, hends.imp_left hrestKeeps⟩, hrestKeeps ∘ hkeeps⟩
  · -- The tag opens a block, and what stands behind the block is as balanced as the whole.
    rcases exists_block hopens hread hends hclose hrest with ⟨block, hblock, rfl⟩
    rcases hrest.of_block hblock with ⟨hinside, hbehind⟩
    have hrestKeeps : Balanced (.tag span.tag span.start :: rest) → Balanced block.rest :=
      Balanced.rest (Block.deepen_of_opens 1 span.start hopens) hblock
    have hinsideLe := hinside.le
    rw [hnext, behindClose]
    exact ⟨by omega, block.rest, ⟨hbehind, hends.imp_left hrestKeeps⟩, hrestKeeps ∘ hkeeps⟩

/-! ## A whole call -/

section Call

variable {call : Call} {lexemes : List Lexeme}

theorem Reached.readable {progress : Progress}
    (readable : Readable text call.start call.stop lexemes) :
    Reached text call progress →
      call.start ≤ progress.position ∧
        ∃ rest, Readable text progress.position call.stop rest ∧
          (Balanced lexemes → Balanced rest) := by
  intro h
  -- The invariant of the run: what is left is readable, and balanced if the range is.
  induction h with
  | begin =>
      exact ⟨Nat.le_refl _, lexemes, readable, id⟩
  | next hreached hstep ih =>
      rcases ih with ⟨hpast, rest, hrest, hkeeps⟩
      rcases hrest.next hstep with ⟨hforward, later, hlater, hkeepsLater⟩
      exact ⟨by omega, later, hlater, hkeepsLater ∘ hkeeps⟩

/-- The tags that a call comes to, and what is left of its range behind them. -/
theorem Meets.exists_rest {progress : Progress} {span : Span}
    (readable : Readable text call.start call.stop lexemes) :
    Meets text call progress span →
      call.start ≤ span.start ∧ Tag.lex? text.toList span.start = some span ∧
        ∃ rest, Stretch text.toList span.stop call.stop rest ∧
          (Balanced (.tag span.tag span.start :: rest) ∨ call.stop = byteLength text.toList) ∧
          (Balanced lexemes → Balanced (.tag span.tag span.start :: rest)) := by
  rintro ⟨hreached, hfound⟩
  rcases hreached.readable readable with ⟨hpast, rest, hrest, hkeeps⟩
  rcases Tag.next?_inside hfound with ⟨hread, hstart, -⟩
  rcases hrest.at_next hfound with ⟨later, hlater, hends, hkeepsLater⟩
  exact ⟨by omega, hread, later, hlater, hends, hkeepsLater ∘ hkeeps⟩

/-- The contents of a block that a call comes to close every block, and stand strictly inside the range
of the call. -/
theorem Meets.block {progress : Progress} {span : Span} {close : Nat}
    (readable : Readable text call.start call.stop lexemes) (opens : span.tag.opens)
    (located : locate text span.start = .ok close) :
    Meets text call progress span →
      call.start < span.stop ∧ behindClose close ≤ call.stop ∧
        ∃ contents, Stretch text.toList span.stop close contents ∧ Balanced contents := by
  intro h
  rcases h.exists_rest readable with ⟨hstart, hread, rest, hrest, hends, -⟩
  have hforward := Tag.start_lt_stop_of_lex? hread
  rcases exists_block opens hread hends located hrest with ⟨block, hblock, rfl⟩
  rcases hrest.of_block hblock with ⟨hinside, hbehind⟩
  exact ⟨by omega, hbehind.le, block.contents, hinside, Block.balanced_contents hblock⟩

/-- A block that is opened by a tag ends in front of a byte offset. -/
def ClosedBefore (text : String) (stop : Nat) (opener : Span) : Prop :=
  ∃ close, locate text opener.start = .ok close ∧ opener.stop ≤ close ∧ behindClose close ≤ stop

theorem closedBefore_of_block (opener : Span) {stop : Nat} {rest : List Lexeme} {block : Block}
    (opens : opener.tag.opens) (read : Tag.lex? text.toList opener.start = some opener)
    (balanced : Balanced (.tag opener.tag opener.start :: rest))
    (found : split? 0 rest = some block) :
    Stretch text.toList opener.stop stop rest →
      locate text opener.start = .ok block.close ∧ ClosedBefore text stop opener := by
  intro h
  have hlocate : locate text opener.start = .ok block.close := by
    rw [locate_of_stretch opens read (.inl balanced) h, found]
    rfl
  rcases h.of_block found with ⟨hinside, hbehind⟩
  exact ⟨hlocate, block.close, hlocate, hinside.le, hbehind.le⟩

/-- Where every block is closed, no closing tag is left over, and the end of each block is found. -/
theorem Meets.closed {progress : Progress} {span : Span}
    (stretch : Stretch text.toList call.start call.stop lexemes) (balanced : Balanced lexemes) :
    Meets text call progress span →
      span.tag ≠ .close ∧ (span.tag.opens → ClosedBefore text call.stop span) := by
  intro h
  rcases h.exists_rest ⟨stretch, .inl balanced⟩ with ⟨-, hread, rest, hrest, -, hkeeps⟩
  have hbalanced := hkeeps balanced
  refine ⟨fun hclose => ?_, fun hopens => ?_⟩
  · rw [hclose] at hbalanced
    exact Balanced.not_close _ _ hbalanced
  · rcases hbalanced.exists_split? (Block.deepen_of_opens 1 span.start hopens) with
      ⟨block, hblock, -⟩
    exact (closedBefore_of_block span hopens hread hbalanced hblock hrest).2

end Call

/-! ## The contents of a loop -/

section Contents

variable {start stop : Nat} {contents : List Lexeme} {first : Span}

/-- The separator of a loop is a block in contents that close every block, and so is what follows
it. -/
theorem exists_separator_block (balanced : Balanced contents)
    (found : separator? text start stop = some first) :
    Stretch text.toList start stop contents →
      ∃ gap close between body, slice? text.toList start first.start = some gap ∧
        locate text first.start = .ok close ∧ ClosedBefore text stop first ∧
        start < first.stop ∧
        Stretch text.toList first.stop close between ∧ Balanced between ∧
        Stretch text.toList (behindClose close) stop body ∧
        Balanced body := by
  intro h
  cases hfirst : Parser.separator? contents with
  | none =>
      rw [separator?_of_none hfirst h] at found
      cases found
  | some separator =>
      rcases Grammar.separator?_eq_some_iff.1 hfirst with ⟨front, hgap, rfl⟩
      rcases separator?_of_some hfirst h with ⟨hfound, hcut, hbehind⟩
      cases found.symm.trans hfound
      rcases h.at_tag with ⟨hfront, hread, -⟩
      have hseparator := hgap.balanced_append.1 balanced
      rcases hseparator.exists_split? rfl with ⟨block, hblock, hrest⟩
      rcases closedBefore_of_block ⟨.separator, _, _⟩ rfl hread hseparator hblock hbehind with
        ⟨hlocate, hclosed⟩
      rcases hbehind.of_block hblock with ⟨hinside, hbody⟩
      have hforward := Tag.start_lt_stop_of_lex? hread
      exact ⟨_, _, _, _, hcut, hlocate, hclosed, Nat.lt_of_le_of_lt hfront.le hforward, hinside,
        Block.balanced_contents hblock, hbody, hrest⟩

/-- The contents of a loop stand strictly inside the range of the call that comes to it. -/
theorem Loops.block {call : Call} {lexemes : List Lexeme}
    (readable : Readable text call.start call.stop lexemes) :
    Loops text call start stop →
      call.start < start ∧ stop < call.stop ∧
        ∃ contents, Stretch text.toList start stop contents ∧ Balanced contents := by
  rintro ⟨hmeets, htag, hlocate⟩
  rcases hmeets.block readable (by rw [htag]; rfl) hlocate with ⟨hstart, hstop, hcontents⟩
  exact ⟨hstart, Nat.lt_of_lt_of_le (lt_behindClose _) hstop, hcontents⟩

end Contents

/-! ## What a call passes on -/

/-- Reading goes on behind a step. -/
theorem Step.proceed_eq {call : Call} {progress next : Progress} :
    Step text call progress next → proceed text call progress = proceed text call next := by
  intro h
  cases h with
  | value hfound htag =>
      exact proceed_value hfound htag
  | loop hfound htag hlocate hnode =>
      rw [proceed_loop hfound htag, hlocate, Except.bind, hnode]
      rfl
  | test hfound htag hlocate hinner =>
      rw [proceed_test hfound htag, hlocate, Except.bind, hinner]
      rfl
  | otherwise hfound htag hkind hfirst =>
      simp only [proceed_of_some hfound, htag, hkind, hfirst]
      rfl

theorem Reached.nodes_eq {call : Call} {progress : Progress} :
    Reached text call progress → nodes text call = proceed text call progress := by
  intro h
  induction h with
  | begin =>
      rfl
  | next hreached hstep ih =>
      rw [ih, hstep.proceed_eq]

/-- An error in the contents of a loop is an error of the call that comes to it. -/
theorem Loops.error {call : Call} {start stop : Nat} {error : ParseError} :
    Loops text call start stop →
      (∀ key, repeated text key start stop = .error error) → nodes text call = .error error := by
  rintro ⟨hmeets, htag, hlocate⟩ hcontents
  rw [hmeets.reached.nodes_eq, proceed_loop hmeets.next htag, hlocate, Except.bind, hcontents]
  rfl

/-- A caller returns the error of a call. -/
theorem Calls.error {caller call : Call} {error : ParseError} :
    Calls text caller call → nodes text call = .error error →
      nodes text caller = .error error := by
  intro h herror
  cases h with
  | test hmeets htag hlocate =>
      rw [hmeets.reached.nodes_eq, proceed_test hmeets.next htag, hlocate, Except.bind, herror]
      rfl
  | body hloops hnone =>
      refine hloops.error fun key => ?_
      rw [repeated_of_none hnone, herror]
      rfl
  | separator hloops hfirst hlocate =>
      refine hloops.error fun key => ?_
      rw [repeated_of_some hfirst, hlocate, Except.bind, herror]
      rfl
  | separated hloops hfirst hlocate hbetween =>
      refine hloops.error fun key => ?_
      rw [repeated_of_some hfirst, hlocate, Except.bind, hbetween, Except.bind, herror]
      rfl

/-- So the calls are those that are really made: an error in one of them is the error of the text. -/
theorem Made.error {call : Call} {error : ParseError} :
    Made text call → nodes text call = .error error →
      nodes text (.all text) = .error error := by
  intro h
  induction h with
  | all =>
      exact id
  | nested _ hcalls ih =>
      exact fun herror => ih (hcalls.error herror)

/-! ## All calls -/

/-- A call for a range that lies strictly inside the range of another call. -/
structure Call.Within (call caller : Call) : Prop where
  start_lt : caller.start < call.start
  start_le_stop : call.start ≤ call.stop
  stop_lt : call.stop < caller.stop

/-- A call lies strictly inside its caller, and its range closes every block. -/
theorem Calls.within {caller call : Call} {lexemes : List Lexeme}
    (readable : Readable text caller.start caller.stop lexemes) :
    Calls text caller call →
      call.Within caller ∧
        ∃ inner, Stretch text.toList call.start call.stop inner ∧ Balanced inner := by
  intro h
  cases h with
  | test hmeets htag hlocate =>
      rcases hmeets.block readable (by rw [htag]; rfl) hlocate with
        ⟨hstart, hstop, contents, hcontents, hbalanced⟩
      exact ⟨⟨hstart, hcontents.le, Nat.lt_of_lt_of_le (lt_behindClose _) hstop⟩, contents,
        hcontents, hbalanced⟩
  | body hloops hnone =>
      rcases hloops.block readable with ⟨hstart, hstop, contents, hcontents, hbalanced⟩
      exact ⟨⟨hstart, hcontents.le, hstop⟩, contents, hcontents, hbalanced⟩
  | separator hloops hfirst hlocate =>
      rcases hloops.block readable with ⟨hstart, hstop, contents, hcontents, hbalanced⟩
      rcases exists_separator_block hbalanced hfirst hcontents with
        ⟨_, close, between, body, _, hclose, _, hforward, hbetween, hbetweenBalanced, hbody, _⟩
      have hpast := lt_behindClose close
      cases Except.ok.inj (hclose.symm.trans hlocate)
      have hbodyLe := hbody.le
      exact ⟨⟨by simp only; omega, hbetween.le, by simp only; omega⟩, between, hbetween,
        hbetweenBalanced⟩
  | separated hloops hfirst hlocate hnodes =>
      rcases hloops.block readable with ⟨hstart, hstop, contents, hcontents, hbalanced⟩
      rcases exists_separator_block hbalanced hfirst hcontents with
        ⟨_, close, between, body, _, hclose, _, hforward, hbetween, _, hbody, hbodyBalanced⟩
      have hpast := lt_behindClose close
      cases Except.ok.inj (hclose.symm.trans hlocate)
      have hbetweenLe := hbetween.le
      exact ⟨⟨by simp only; omega, hbody.le, hstop⟩, body, hbody, hbodyBalanced⟩

/-- Every call that is made is for a range that it can read. -/
theorem Made.readable {call : Call} :
    Made text call → ∃ lexemes, Readable text call.start call.stop lexemes := by
  intro h
  induction h with
  | all =>
      exact ⟨_, stretch_all text, .inr rfl⟩
  | nested hmade hcalls ih =>
      -- Whatever the caller's range is like, that of the call closes every block.
      rcases ih with ⟨lexemes, hreadable⟩
      rcases hcalls.within hreadable with ⟨-, inner, hinner, hbalanced⟩
      exact ⟨inner, hinner, .inl hbalanced⟩

/-- Whatever a call cuts out of the text can be cut out. -/
theorem Cuts.isSome {call : Call} {lexemes : List Lexeme} {start stop : Nat}
    (readable : Readable text call.start call.stop lexemes) :
    Cuts text call start stop → (slice? text.toList start stop).isSome := by
  intro h
  cases h with
  | literal hmeets hless =>
      -- The literal is the run in front of the first tag that is left.
      rcases hmeets.reached.readable readable with ⟨-, rest, hrest, -⟩
      rcases hrest.stretch.cases with ⟨_, _, _, hnone⟩ | ⟨run, other, _, hcut, _, _, hfound, _⟩
      · simp [hmeets.next] at hnone
      · cases hmeets.next.symm.trans hfound
        rw [hcut]
        rfl
  | rest hreached hnone hless =>
      rcases hreached.readable readable with ⟨-, rest, hrest, -⟩
      exact hrest.stretch.isSome_slice?
  | contents hloops =>
      rcases hloops.block readable with ⟨-, -, contents, hcontents, -⟩
      exact hcontents.isSome_slice?
  | gap hloops hfirst =>
      rcases hloops.block readable with ⟨-, -, contents, hcontents, hbalanced⟩
      rcases exists_separator_block hbalanced hfirst hcontents with ⟨gap, _, _, _, hcut, _⟩
      rw [hcut]
      rfl
  | tag hread =>
      rcases Tag.lex?_eq_some_iff.1 hread with ⟨before, after, hsame, -, hlength, hstart, hstop⟩
      have hcut := Text.slice?_eq_some_iff.2
        ⟨before, after, hsame, hlength.trans hstart.symm, (hstart ▸ hstop).symm⟩
      rw [hcut]
      rfl

/-- Reading by byte offsets ends, with the result that reading by lexemes has.  On the way, every nested
call lies strictly inside its caller, comes to no closing tag, and finds the end of every block that is
opened in its range in front of its own end.  No call stands still or goes past its end, and whatever
it cuts out of the text stands between two boundaries in order. -/
theorem calls_nest (text : String) :
    parse text = (Template.parse text).map Template.nodes ∧
    (∀ caller call, Made text caller → Calls text caller call →
      call.Within caller ∧
      ∀ progress span, Meets text call progress span →
        span.tag ≠ .close ∧ (span.tag.opens → ClosedBefore text call.stop span)) ∧
    ∀ call, Made text call →
      (∀ start stop first, Loops text call start stop →
        separator? text start stop = some first → ClosedBefore text stop first) ∧
      (∀ progress, Reached text call progress →
        call.start ≤ progress.position ∧ progress.position ≤ call.stop) ∧
      (∀ progress next, Reached text call progress → Step text call progress next →
        progress.position < next.position) ∧
      ∀ start stop, Cuts text call start stop →
        (IsBoundary text.toList start ∧ IsBoundary text.toList stop ∧ start ≤ stop) ∧
          (slice? text.toList start stop).isSome := by
  refine ⟨parse_eq text, fun caller call hmade hcalls => ?_, fun call hmade => ?_⟩
  · rcases hmade.readable with ⟨lexemes, hreadable⟩
    rcases hcalls.within hreadable with ⟨hwithin, inner, hinner, hbalanced⟩
    exact ⟨hwithin, fun progress span hmeets => hmeets.closed hinner hbalanced⟩
  · rcases hmade.readable with ⟨lexemes, hreadable⟩
    refine ⟨?_, ?_, ?_, ?_⟩
    · intro start stop first hloops hfirst
      rcases hloops.block hreadable with ⟨-, -, contents, hcontents, hbalanced⟩
      rcases exists_separator_block hbalanced hfirst hcontents with ⟨_, _, _, _, _, _, hclosed, _⟩
      exact hclosed
    · intro progress hreached
      rcases hreached.readable hreadable with ⟨hpast, rest, hrest, -⟩
      exact ⟨hpast, hrest.stretch.le⟩
    · intro progress next hreached hstep
      rcases hreached.readable hreadable with ⟨-, rest, hrest, -⟩
      exact (hrest.next hstep).1
    · intro start stop hcuts
      have hsome := hcuts.isSome hreadable
      exact ⟨Text.isSome_slice?_iff.1 hsome, hsome⟩

/-- The contents of a loop behind a two-byte character, with a blank in front of the separator. -/
theorem calls_nest_separator :
    let text := "é" ++ (Tag.loop "k").toText ++ " " ++ Tag.separator.toText ++ "é" ++
      Tag.close.toText ++ Tag.close.toText
    let call : Call := ⟨19, 21, .separator⟩
    Made text (.all text) ∧ Calls text (.all text) call ∧ call.Within (.all text) := by
  intro text call
  have hfound : Tag.next? text.toList 0 (byteLength text.toList) = some ⟨.loop "k", 2, 11⟩ := by
    subst text
    decide +kernel
  have hloop : Block.locateEnd text 2 = .ok 28 := by
    subst text
    decide +kernel
  have hfirst : separator? text 11 28 = some ⟨.separator, 12, 19⟩ := by
    subst text
    decide +kernel
  have hseparator : Block.locateEnd text 12 = .ok 21 := by
    subst text
    decide +kernel
  clear_value text
  have hlocate : locate text 2 = .ok 28 ∧ locate text 12 = .ok 21 := by
    rw [locate_eq, locate_eq, hloop, hseparator]
    exact ⟨rfl, rfl⟩
  have hmeets : Meets text (.all text) (Call.all text).begin ⟨.loop "k", 2, 11⟩ :=
    ⟨.begin, hfound⟩
  have hcall : Calls text (.all text) call :=
    .separator (.met hmeets rfl hlocate.1) hfirst hlocate.2
  exact ⟨.all, hcall, ((calls_nest text).2.1 _ _ .all hcall).1⟩

end Range
end Stencil
