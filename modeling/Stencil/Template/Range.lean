import Stencil.Tag.Search
import Stencil.Template.Basic

/-!
# Ranges — templates read by byte offsets

A text can be read without lexemes.  The next tag is searched for between two byte offsets, the end of
a block is located in the whole text, and the range between its tags is read by a call of its own.  No
call checks that its range is one that can be read, and where no text can be cut out, the empty text is
taken instead.  Reading ends all the same, because the search only goes forward.

* `Range.locate` — the tag that closes a block, by counting the open blocks;
* `Range.proceed`, `Range.repeated` — the nodes of a range from some progress on, and the contents of a
  loop;
* `Range.parse` — the nodes of a text;
* `Range.Step`, `Range.Reached`, `Range.Calls`, `Range.Made` — how a call gets on, and the calls that it
  makes;
* `Range.Cuts` — the ranges that are cut out of the text.
-/

namespace Stencil
namespace Range

open Text (byteLength)
open Stencil.Parser (Branches)

/-! ## Cuts and errors -/

/-- The text between two byte offsets, or the empty text where none can be cut out. -/
def slice (text : String) (start stop : Nat) : List Char :=
  (Text.slice? text.toList start stop).getD []

/-- The text that a tag was read from. -/
def tagText (text : String) (span : Span) : String :=
  String.ofList (slice text span.start span.stop)

/-- An error at a byte offset. -/
def fail {α : Type} (text : String) (offset : Nat) (cause : ParseError.Cause) :
    Except ParseError α :=
  .error (ParseError.atOffset text.toList offset cause)

/-! ## The end of a block -/

/-- The tag that closes a block, from a byte offset on at which `depth` blocks are open. -/
def seek (text : String) (opener : Span) (depth position : Nat) : Except ParseError Nat :=
  match _found : Tag.next? text.toList position (byteLength text.toList) with
  | none => fail text opener.start (.unclosedBlock (tagText text opener))
  | some span =>
      if span.tag.opens then seek text opener (depth + 1) span.stop
      else if span.tag = .close then
        if depth - 1 = 0 then .ok span.start else seek text opener (depth - 1) span.stop
      else seek text opener depth span.stop
termination_by byteLength text.toList - position
decreasing_by
  all_goals
    have := Tag.next?_forward _found
    omega

/-- The byte offset of the tag that closes the block opened at a byte offset. -/
def locate (text : String) (offset : Nat) : Except ParseError Nat :=
  match (Tag.lex? text.toList offset).filter (·.tag.opens) with
  | none =>
      let rest := ((Text.splitBytes? offset text.toList).map Prod.snd).getD []
      fail text offset (.notAnOpeningTag (Block.headText rest))
  | some opener => seek text opener 1 opener.stop

theorem seek_of_none {text : String} {opener : Span} {depth position : Nat}
    (none : Tag.next? text.toList position (byteLength text.toList) = none) :
    seek text opener depth position =
      fail text opener.start (.unclosedBlock (tagText text opener)) := by
  rw [seek]
  split
  · rfl
  · simp_all

theorem seek_of_some {text : String} {opener span : Span} {depth position : Nat}
    (found : Tag.next? text.toList position (byteLength text.toList) = some span) :
    seek text opener depth position =
      if span.tag.opens then seek text opener (depth + 1) span.stop
      else if span.tag = .close then
        if depth - 1 = 0 then .ok span.start else seek text opener (depth - 1) span.stop
      else seek text opener depth span.stop := by
  rw [seek]
  split
  · simp_all
  · rename_i other same
    cases same.symm.trans found
    rfl

theorem seek_forward {text : String} {opener : Span} {depth position close : Nat} :
    seek text opener depth position = .ok close →
      position ≤ close ∧ close < byteLength text.toList := by
  intro h
  fun_induction seek text opener depth position with
  | case1 =>
      cases h
  | case3 depth position span found _ _ _ =>
      cases h
      have hforward := Tag.next?_forward found
      omega
  | case2 depth position span found _ ih | case4 depth position span found _ _ _ ih
  | case5 depth position span found _ _ ih =>
      have hforward := Tag.next?_forward found
      have hlater := ih h
      omega

/-- A block ends behind its opening tag. -/
theorem locate_forward {text : String} {offset close : Nat} :
    locate text offset = .ok close → offset < close ∧ close < byteLength text.toList := by
  intro h
  simp only [locate] at h
  split at h
  · cases h
  · rename_i opener hopener
    have hread := (Option.filter_eq_some_iff.1 hopener).1
    have hstart := Tag.start_eq_of_lex? hread
    have hstop := Tag.start_lt_stop_of_lex? hread
    have hclose := seek_forward h
    omega

/-! ## Calls -/

/-- What a range is read as. -/
inductive Kind where
  | whole
  | loopBody
  | testBody
  | separator
  deriving DecidableEq, Repr

/-- A range of a text, and what it is read as. -/
structure Call where
  start : Nat
  stop : Nat
  kind : Kind
  deriving DecidableEq, Repr

/-- How far a call has come: the byte offset from which it goes on, and the nodes in front of it. -/
structure Progress where
  position : Nat
  branches : Branches

/-- Nothing is read at the start. -/
def Call.begin (call : Call) : Progress := ⟨call.start, ⟨[], none⟩⟩

/-- One more node at the end of the branch that is being read. -/
def push (node : Node) (branches : Branches) : Branches :=
  match branches.otherwise with
  | none => { branches with body := branches.body ++ [node] }
  | some nodes => { branches with otherwise := some (nodes ++ [node]) }

/-- The nodes up to a byte offset, with a literal for what no tag was read from. -/
def Progress.upTo (text : String) (offset : Nat) (progress : Progress) : Branches :=
  if progress.position < offset then
    push (.literal (String.ofList (slice text progress.position offset))) progress.branches
  else
    progress.branches

/-- The progress behind a tag that is a node. -/
def Progress.add (text : String) (span : Span) (node : Node) (stop : Nat) (progress : Progress) :
    Progress :=
  ⟨stop, push node (progress.upTo text span.start)⟩

/-- The progress behind a tag that starts the second branch. -/
def Progress.divide (text : String) (span : Span) (progress : Progress) : Progress :=
  ⟨span.stop, { progress.upTo text span.start with otherwise := some [] }⟩

/-- The byte offset behind a closing tag. -/
def behindClose (close : Nat) : Nat := close + byteLength Tag.close.written

theorem lt_behindClose (close : Nat) : close < behindClose close := by
  have hpositive : 0 < byteLength Tag.close.written := by decide
  rw [behindClose]
  omega

/-- The separator at the start of a range, behind nothing but blanks. -/
def separator? (text : String) (start stop : Nat) : Option Span :=
  let contents := slice text start stop
  let gap := byteLength contents - byteLength (Text.dropBlank contents)
  (Tag.lex? text.toList (start + gap)).filter fun span =>
    span.tag = .separator ∧ span.stop ≤ stop

theorem separator?_forward {text : String} {start stop : Nat} {first : Span} :
    separator? text start stop = some first →
      start ≤ first.start ∧ first.start < first.stop ∧ first.stop ≤ byteLength text.toList := by
  intro h
  have hread := (Option.filter_eq_some_iff.1 h).1
  have hstart := Tag.start_eq_of_lex? hread
  have hstop := Tag.start_lt_stop_of_lex? hread
  have hend := Tag.stop_le_of_lex? hread
  omega

mutual

/-- Reads what is left of a range. -/
def proceed (text : String) (call : Call) (progress : Progress) : Except ParseError Branches :=
  match _found : Tag.next? text.toList progress.position call.stop with
  | none => .ok (progress.upTo text call.stop)
  | some span =>
      match span.tag with
      | .value key => proceed text call (progress.add text span (.value key) span.stop)
      | .loop key =>
          match _located : locate text span.start with
          | .error error => .error error
          | .ok close => do
              let node ← repeated text key span.stop close
              proceed text call (progress.add text span node (behindClose close))
      | .test condition =>
          match _located : locate text span.start with
          | .error error => .error error
          | .ok close => do
              let inner := Call.mk span.stop close .testBody
              let node := (← proceed text inner inner.begin).toNode (Condition.ofText condition)
              proceed text call (progress.add text span node (behindClose close))
      | .otherwise =>
          if call.kind ≠ .testBody then
            fail text span.start (.unexpectedTag (tagText text span))
          else if progress.branches.otherwise.isSome then fail text span.start .duplicateElse
          else proceed text call (progress.divide text span)
      | .separator => fail text span.start .misplacedSeparator
      | .close => fail text span.start (.unexpectedTag (tagText text span))
termination_by (byteLength text.toList + 1 - progress.position, 0)
decreasing_by
  all_goals have := Tag.next?_forward _found
  all_goals try have := locate_forward _located
  all_goals try simp only [Progress.add, Progress.divide, Call.begin, behindClose]
  all_goals
    apply Prod.Lex.left
    omega

/-- Reads the contents of a loop, with the separator that they may start with. -/
def repeated (text : String) (key : String) (start stop : Nat) : Except ParseError Node :=
  match _first : separator? text start stop with
  | none => do
      let whole := Call.mk start stop .loopBody
      let body ← proceed text whole whole.begin
      return .loop key body.body
  | some first =>
      match _located : locate text first.start with
      | .error error => .error error
      | .ok close => do
          let inner := Call.mk first.stop close .separator
          let outer := Call.mk (behindClose close) stop .loopBody
          let between ← proceed text inner inner.begin
          let body ← proceed text outer outer.begin
          return .joined key (String.ofList (slice text start first.start)) between.body body.body
termination_by (byteLength text.toList + 1 - start, 1)
decreasing_by
  · apply Prod.Lex.right
    decide
  · have := separator?_forward _first
    apply Prod.Lex.left
    simp only [Call.begin]
    omega
  · have := separator?_forward _first
    have := locate_forward _located
    apply Prod.Lex.left
    simp only [Call.begin, behindClose]
    omega

end

/-- Reads a range. -/
def nodes (text : String) (call : Call) : Except ParseError Branches :=
  proceed text call call.begin

/-- The call for a whole text. -/
def Call.all (text : String) : Call := ⟨0, byteLength text.toList, .whole⟩

/-- Reads a text. -/
def parse (text : String) : Except ParseError (List Node) :=
  if text = "" then .ok [] else (nodes text (.all text)).map Branches.body

/-! ## One tag -/

section Steps

variable {text key condition : String} {call : Call} {progress : Progress} {span : Span}

theorem proceed_of_none (none : Tag.next? text.toList progress.position call.stop = none) :
    proceed text call progress = .ok (progress.upTo text call.stop) := by
  rw [proceed]
  split
  · rfl
  · simp_all

/-- What is done at a tag. -/
theorem proceed_of_some (found : Tag.next? text.toList progress.position call.stop = some span) :
    proceed text call progress =
      match span.tag with
      | .value key => proceed text call (progress.add text span (.value key) span.stop)
      | .loop key =>
          (locate text span.start).bind fun close =>
            (repeated text key span.stop close).bind fun node =>
              proceed text call (progress.add text span node (behindClose close))
      | .test condition =>
          (locate text span.start).bind fun close =>
            (nodes text ⟨span.stop, close, .testBody⟩).bind fun inner =>
              proceed text call
                (progress.add text span (inner.toNode (Condition.ofText condition))
                  (behindClose close))
      | .otherwise =>
          if call.kind ≠ .testBody then
            fail text span.start (.unexpectedTag (tagText text span))
          else if progress.branches.otherwise.isSome then fail text span.start .duplicateElse
          else proceed text call (progress.divide text span)
      | .separator => fail text span.start .misplacedSeparator
      | .close => fail text span.start (.unexpectedTag (tagText text span)) := by
  rw [proceed]
  split
  · simp_all
  · rename_i other same
    cases same.symm.trans found
    cases span.tag with
    | loop key | test condition =>
        simp only
        split <;> rename_i located <;> rw [located] <;> rfl
    | value key | otherwise | separator | close =>
        rfl

theorem proceed_value (found : Tag.next? text.toList progress.position call.stop = some span)
    (tag : span.tag = .value key) :
    proceed text call progress =
      proceed text call (progress.add text span (.value key) span.stop) := by
  simp only [proceed_of_some found, tag]

theorem proceed_loop (found : Tag.next? text.toList progress.position call.stop = some span)
    (tag : span.tag = .loop key) :
    proceed text call progress =
      (locate text span.start).bind fun close =>
        (repeated text key span.stop close).bind fun node =>
          proceed text call (progress.add text span node (behindClose close)) := by
  simp only [proceed_of_some found, tag]

theorem proceed_test (found : Tag.next? text.toList progress.position call.stop = some span)
    (tag : span.tag = .test condition) :
    proceed text call progress =
      (locate text span.start).bind fun close =>
        (nodes text ⟨span.stop, close, .testBody⟩).bind fun inner =>
          proceed text call
            (progress.add text span (inner.toNode (Condition.ofText condition))
              (behindClose close)) := by
  simp only [proceed_of_some found, tag]

theorem repeated_of_none {start stop : Nat} (none : separator? text start stop = none) :
    repeated text key start stop =
      (nodes text ⟨start, stop, .loopBody⟩).map fun body => .loop key body.body := by
  rw [repeated]
  split
  · simp only [nodes]
    cases proceed text ⟨start, stop, .loopBody⟩ _ <;> rfl
  · simp_all

theorem repeated_of_some {start stop : Nat} {first : Span}
    (found : separator? text start stop = some first) :
    repeated text key start stop =
      (locate text first.start).bind fun close =>
        (nodes text ⟨first.stop, close, .separator⟩).bind fun between =>
          (nodes text ⟨behindClose close, stop, .loopBody⟩).map fun body =>
            .joined key (String.ofList (slice text start first.start)) between.body
              body.body := by
  rw [repeated]
  split
  · simp_all
  · rename_i other same
    cases same.symm.trans found
    split <;> rename_i located <;> rw [located]
    · rfl
    · simp only [nodes, Except.bind]
      cases proceed text _ _ with
      | error error =>
          rfl
      | ok between =>
          cases proceed text _ _ <;> rfl

end Steps

/-! ## What happens on the way -/

/-- One tag of a range is read. -/
inductive Step (text : String) (call : Call) (progress : Progress) : Progress → Prop where
  | value {span : Span} {key : String} :
      Tag.next? text.toList progress.position call.stop = some span →
      span.tag = .value key →
      Step text call progress (progress.add text span (.value key) span.stop)
  | loop {span : Span} {key : String} {close : Nat} {node : Node} :
      Tag.next? text.toList progress.position call.stop = some span →
      span.tag = .loop key → locate text span.start = .ok close →
      repeated text key span.stop close = .ok node →
      Step text call progress (progress.add text span node (behindClose close))
  | test {span : Span} {condition : String} {close : Nat} {inner : Branches} :
      Tag.next? text.toList progress.position call.stop = some span →
      span.tag = .test condition → locate text span.start = .ok close →
      nodes text ⟨span.stop, close, .testBody⟩ = .ok inner →
      Step text call progress
        (progress.add text span (inner.toNode (Condition.ofText condition)) (behindClose close))
  | otherwise {span : Span} :
      Tag.next? text.toList progress.position call.stop = some span →
      span.tag = .otherwise → call.kind = .testBody → progress.branches.otherwise = none →
      Step text call progress (progress.divide text span)

/-- A call comes to some progress. -/
inductive Reached (text : String) (call : Call) : Progress → Prop where
  | begin : Reached text call call.begin
  | next {progress next : Progress} :
      Reached text call progress → Step text call progress next → Reached text call next

/-- A call comes to a tag. -/
structure Meets (text : String) (call : Call) (progress : Progress) (span : Span) : Prop where
  reached : Reached text call progress
  next : Tag.next? text.toList progress.position call.stop = some span

/-- A call comes to a loop, whose contents stand between two byte offsets. -/
inductive Loops (text : String) (call : Call) : (start stop : Nat) → Prop where
  | met {progress : Progress} {span : Span} {key : String} {close : Nat} :
      Meets text call progress span → span.tag = .loop key →
      locate text span.start = .ok close →
      Loops text call span.stop close

/-- The calls that a call makes. -/
inductive Calls (text : String) (caller : Call) : Call → Prop where
  | test {progress : Progress} {span : Span} {condition : String} {close : Nat} :
      Meets text caller progress span → span.tag = .test condition →
      locate text span.start = .ok close →
      Calls text caller ⟨span.stop, close, .testBody⟩
  | body {start stop : Nat} :
      Loops text caller start stop → separator? text start stop = none →
      Calls text caller ⟨start, stop, .loopBody⟩
  | separator {start stop close : Nat} {first : Span} :
      Loops text caller start stop → separator? text start stop = some first →
      locate text first.start = .ok close →
      Calls text caller ⟨first.stop, close, .separator⟩
  | separated {start stop close : Nat} {first : Span} {between : Branches} :
      Loops text caller start stop → separator? text start stop = some first →
      locate text first.start = .ok close →
      nodes text ⟨first.stop, close, .separator⟩ = .ok between →
      Calls text caller ⟨behindClose close, stop, .loopBody⟩

/-- The calls that are made while a text is read. -/
inductive Made (text : String) : Call → Prop where
  | all : Made text (.all text)
  | nested {caller call : Call} : Made text caller → Calls text caller call → Made text call

/-- The ranges that a call cuts out of the text. -/
inductive Cuts (text : String) (call : Call) : (start stop : Nat) → Prop where
  | literal {progress : Progress} {span : Span} :
      Meets text call progress span → progress.position < span.start →
      Cuts text call progress.position span.start
  | rest {progress : Progress} :
      Reached text call progress →
      Tag.next? text.toList progress.position call.stop = none →
      progress.position < call.stop →
      Cuts text call progress.position call.stop
  | contents {start stop : Nat} : Loops text call start stop → Cuts text call start stop
  | gap {start stop : Nat} {first : Span} :
      Loops text call start stop → separator? text start stop = some first →
      Cuts text call start first.start
  /-- The text of a tag, for an error; any tag that can be read at all. -/
  | tag {offset : Nat} {span : Span} :
      Tag.lex? text.toList offset = some span → Cuts text call span.start span.stop

end Range
end Stencil
