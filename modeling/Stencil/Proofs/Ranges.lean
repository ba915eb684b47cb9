import Stencil.Proofs.Stretch
import Stencil.Proofs.Verbatim
import Stencil.Template.Range

/-!
# Ranges — reading by byte offsets is reading by lexemes

The range of a call is read as lexemes, and what the call makes of them is what the parser makes of
them: it comes to the same tags, finds the same ends of blocks and the same separators, and cuts out the
runs in between.  The induction is on the number of lexemes, of which there are fewer between the tags
of a block and fewer behind a tag.

* `Range.locate_eq` — counting the tags behind an opening one leads where splitting lexemes does;
* `Range.separator?_of_some`, `Range.separator?_of_none` — the separator of a loop is found alike;
* `Range.readsOn` — what is left of a range is read as the parser reads its lexemes;
* `Range.parse_eq` — so a text has the nodes, or the error, of its template.
-/

namespace Stencil

open Text (byteLength IsBoundary slice?)

namespace Grammar

theorem Gap.blank {front : List Lexeme} {gap : List Char} :
    Gap front gap → ∀ c ∈ gap, Text.isBlank c := by
  intro h
  cases h with
  | none =>
      simp
  | run blank =>
      exact blank

theorem Gap.ofRun {run : List Char} (blank : ∀ c ∈ run, Text.isBlank c) :
    Gap (Lexeme.ofRun run) run := by
  by_cases hnil : run = []
  · subst hnil
    exact .none
  · rw [Lexeme.ofRun, if_neg hnil]
    exact .run blank

end Grammar

namespace Range

open Block (Balanced split?)
open Stencil.Parser (Branches ElseRule Flaw)

/-! ## The end of a block -/

theorem slice_of_slice? {text : String} {start stop : Nat} {part : List Char} :
    slice? text.toList start stop = some part → slice text start stop = part := by
  intro h
  rw [slice, h]
  rfl

/-- The text of a tag that was read is how the tag is written. -/
theorem tagText_of_lex? {text : String} {offset : Nat} {span : Span} :
    Tag.lex? text.toList offset = some span → tagText text span = span.tag.toText := by
  intro h
  rcases Tag.lex?_eq_some_iff.1 h with ⟨before, after, hsame, -, hlength, hstart, hstop⟩
  have hcut : slice? text.toList span.start span.stop = some span.tag.written :=
    Text.slice?_eq_some_iff.2 ⟨before, after, hsame, by omega, by omega⟩
  rw [tagText, slice_of_slice? hcut, Tag.toText]

/-- A run in front changes nothing about where a block ends. -/
theorem close_split?_ofRun_append (depth : Nat) (run : List Char) (lexemes : List Lexeme) :
    (split? depth (Lexeme.ofRun run ++ lexemes)).map Block.close =
      (split? depth lexemes).map Block.close := by
  by_cases hrun : run = []
  · simp [Lexeme.ofRun, hrun]
  · simp [Lexeme.ofRun, hrun, split?, Function.comp_def, Block.cons]

theorem length_rest_lt (run : List Char) (span : Span) (rest : List Lexeme) :
    rest.length < (Lexeme.ofRun run ++ .tag span.tag span.start :: rest).length := by
  rw [List.length_append, List.length_cons]
  omega

/-- Counting the tags behind an opening one leads to the end of the block. -/
theorem seek_eq {text : String} {opener : Span} {lexemes : List Lexeme} {depth position : Nat} :
    Stretch text.toList position (byteLength text.toList) lexemes →
      seek text opener (depth + 1) position =
        ((split? depth lexemes).map Block.close).elim
          (fail text opener.start (.unclosedBlock (tagText text opener))) .ok := by
  induction hcount : lexemes.length using Nat.strong_induction_on
    generalizing lexemes depth position with
  | _ count ih =>
      subst hcount
      intro h
      rcases h.cases with ⟨run, -, rfl, hnone⟩ | ⟨run, span, rest, -, rfl, -, hfound, hrest⟩
      · have hsplit := close_split?_ofRun_append depth run []
        rw [List.append_nil] at hsplit
        rw [seek_of_none hnone, hsplit]
        simp [split?]
      · have hlater := fun depth =>
          @ih _ (length_rest_lt run span rest) rest depth span.stop rfl hrest
        rw [close_split?_ofRun_append, seek_of_some hfound]
        rcases span with ⟨tag, start, stop⟩
        cases tag with
        | loop key | test condition | separator =>
            simp only [Tag.opens, if_true, hlater]
            simp [split?, Function.comp_def, Block.cons]
        | close =>
            cases depth with
            | zero =>
                simp [Tag.opens, split?]
            | succ depth =>
                simp only [Tag.opens, Bool.false_eq_true, if_false, if_true]
                simp [hlater, split?, Function.comp_def, Block.cons]
        | value key | otherwise =>
            simp only [Tag.opens, Bool.false_eq_true, if_false]
            simp [hlater, split?, Function.comp_def, Block.cons]

/-- The end of a block is located where the tags of the text say. -/
theorem locate_eq (text : String) (offset : Nat) :
    locate text offset = Block.locateEnd text offset := by
  cases hcut : Text.splitBytes? offset text.toList with
  | none =>
      simp only [locate, Tag.lex?, Block.locateEnd, hcut, Option.bind_eq_bind, Option.bind_none,
        Option.filter_none, Option.map_none, Option.getD_none]
      rfl
  | some parts =>
      rcases parts with ⟨before, rest⟩
      cases hread : Tag.at? rest with
      | none =>
          simp only [locate, Tag.lex?, Block.locateEnd, hcut, hread, Option.bind_eq_bind,
            Option.bind_some, Option.bind_none, Option.filter_none, Option.map_some,
            Option.getD_some]
          rfl
      | some tag =>
          have hlex : Tag.lex? text.toList offset =
              some ⟨tag, offset, offset + byteLength tag.written⟩ := by
            simp [Tag.lex?, hcut, hread]
          by_cases hopens : tag.opens
          · rcases Text.append_of_splitBytes? hcut with ⟨hwhole, rfl⟩
            rcases (Tag.at?_eq_some_iff.1 hread).2 with ⟨behind, rfl⟩
            have hstretch := Stretch.behind (before ++ tag.written) behind
            rw [List.append_assoc, ← hwhole, Text.byteLength_append] at hstretch
            simp only [locate, hlex, Option.filter_some, hopens, if_true, Block.locateEnd, hcut,
              hread, seek_eq hstretch, tagText_of_lex? hlex, List.drop_left]
            cases split? 0 (Lexeme.ofText (byteLength before + byteLength tag.written) behind) <;>
              rfl
          · simp only [locate, hlex, Option.filter_some, hopens, Bool.false_eq_true, if_false,
              Block.locateEnd, hcut, hread]
            rfl

/-! ## The separator of a loop -/

/-- What is left of a text without the blanks at its start is shorter by their bytes. -/
theorem byteLength_sub_dropBlank (text : List Char) :
    byteLength text - byteLength (Text.dropBlank text) =
      byteLength (text.takeWhile Text.isBlank) := by
  have hparts : byteLength (text.takeWhile Text.isBlank) + byteLength (Text.dropBlank text) =
      byteLength text := by
    rw [← Text.byteLength_append, Text.dropBlank, List.takeWhile_append_dropWhile]
  omega

theorem takeWhile_isBlank_append {gap rest : List Char} {tag : Tag} :
    (∀ c ∈ gap, Text.isBlank c) →
      (gap ++ (tag.written ++ rest)).takeWhile Text.isBlank = gap := by
  intro hblank
  rcases tag.head_written with ⟨word, hword⟩
  rw [List.takeWhile_append_of_pos hblank, hword, List.cons_append,
    List.takeWhile_cons_of_neg (by simp [Text.isBlank_openBrace]), List.append_nil]

/-- A separator among the lexemes is found in the text. -/
theorem separator?_of_some {text : String} {start stop : Nat} {contents : List Lexeme}
    {separator : Parser.Separator} (first : Parser.separator? contents = some separator) :
    Stretch text.toList start stop contents →
      separator? text start stop = some ⟨.separator, separator.offset,
        separator.offset + byteLength Tag.separator.written⟩ ∧
      slice? text.toList start separator.offset = some separator.gap ∧
      Stretch text.toList (separator.offset + byteLength Tag.separator.written) stop
        separator.behind := by
  intro h
  rcases Grammar.separator?_eq_some_iff.1 first with ⟨front, hgap, rfl⟩
  rcases h.at_tag with ⟨hfront, hread, hbehind⟩
  have hcut := hfront.slice?_eq
  rw [hgap.concat_eq] at hcut
  rcases Text.slice?_eq_some_iff.1 hcut with ⟨_, _, _, _, hoffset⟩
  refine ⟨?_, hcut, hbehind⟩
  have hcontents := slice_of_slice? h.slice?_eq
  rw [Lexeme.concat_append, hgap.concat_eq, Lexeme.concat_cons, Lexeme.written] at hcontents
  simp only [separator?, hcontents, byteLength_sub_dropBlank, takeWhile_isBlank_append hgap.blank,
    hoffset, hread, Option.filter_some, hbehind.le, decide_true, true_and, if_true]

/-- Conversely, a separator in the text is among the lexemes. -/
theorem separator?_of_none {text : String} {start stop : Nat} {contents : List Lexeme}
    (none : Parser.separator? contents = none) :
    Stretch text.toList start stop contents → separator? text start stop = .none := by
  intro h
  refine Option.eq_none_iff_forall_ne_some.2 fun span hfound => ?_
  rcases h with ⟨inside, hcut, hreads⟩
  simp only [separator?, slice_of_slice? hcut, byteLength_sub_dropBlank,
    Option.filter_eq_some_iff, decide_eq_true_eq] at hfound
  rcases hfound with ⟨hread, htag, hstop⟩
  have hstart := Tag.start_eq_of_lex? hread
  have hinside : span.Inside text.toList start stop :=
    ⟨hstart ▸ hread, hstart ▸ Nat.le_add_right .., hstop⟩
  rcases hinside.exists_split hcut with ⟨left, right, hsplit, -, hleft⟩
  rw [htag, List.append_assoc] at hsplit
  -- The separator stands right behind the blanks, so the run in front of it is blank.
  have hsame : inside.takeWhile Text.isBlank = left := by
    have hlength : byteLength (inside.takeWhile Text.isBlank) = byteLength left := by omega
    have hblanks := Text.splitBytes?_append (inside.takeWhile Text.isBlank)
      (inside.dropWhile Text.isBlank)
    rw [List.takeWhile_append_dropWhile, hlength] at hblanks
    have hcutLeft := Text.splitBytes?_append left (Tag.separator.written ++ right)
    rw [← hsplit, hblanks] at hcutLeft
    exact (Prod.mk.inj (Option.some.inj hcutLeft)).1
  have hblank : ∀ c ∈ left, Text.isBlank c := by
    rw [← hsame]
    exact List.all_eq_true.1 List.all_takeWhile
  have hcontents := Lexeme.reads_iff.1 hreads
  rw [hsplit, Lexeme.ofText_blank_append Tag.valid_separator hblank] at hcontents
  have hsome : Parser.separator? contents = some ⟨left, start + byteLength left, _⟩ :=
    Grammar.separator?_eq_some_iff.2 ⟨_, .ofRun hblank, hcontents⟩
  rw [none] at hsome
  cases hsome

/-! ## Reading a stretch -/

/-- The end of a block is located in the stretch behind its opening tag. -/
theorem locate_of_stretch {text : String} {opener : Span} {stop : Nat} {back : List Lexeme}
    (opens : opener.tag.opens) (read : Tag.lex? text.toList opener.start = some opener)
    (ends : Balanced (.tag opener.tag opener.start :: back) ∨ stop = byteLength text.toList) :
    Stretch text.toList opener.stop stop back →
      locate text opener.start =
        (split? 0 back).elim (fail text opener.start (.unclosedBlock opener.tag.toText))
          fun block => .ok block.close := by
  intro h
  have hends : (split? 0 back).isSome ∨ stop = byteLength text.toList := by
    refine ends.imp_left fun hbalanced => ?_
    rcases hbalanced.exists_split? (Block.deepen_of_opens 1 opener.start opens) with
      ⟨block, hfound, -⟩
    rw [hfound]
    rfl
  rw [locate_eq]
  exact h.locateEnd_eq opens read hends

/-- The error where a flaw is. -/
def located (text : String) (flaw : Flaw) : ParseError :=
  ParseError.atOffset text.toList flaw.offset flaw.cause

/-- Whether an else tag is legal behind the branches that have been read. -/
def rule (kind : Kind) (branches : Branches) : ElseRule :=
  match kind with
  | .testBody => if branches.otherwise.isSome then .taken else .allowed
  | .whole | .loopBody | .separator => .refused

/-- The branches with more at the end of the one that is being read. -/
def extend (branches more : Branches) : Branches :=
  match branches.otherwise with
  | none => ⟨branches.body ++ more.body, more.otherwise⟩
  | some nodes => ⟨branches.body, some (nodes ++ more.body)⟩

/-- What the parser makes of lexemes behind the branches that have been read. -/
def outcome (text : String) (kind : Kind) (branches : Branches) (lexemes : List Lexeme) :
    Except ParseError Branches :=
  ((Parser.nodes (rule kind branches) lexemes).mapError (located text)).map (extend branches)

theorem rule_push (kind : Kind) (node : Node) (branches : Branches) :
    rule kind (push node branches) = rule kind branches := by
  rcases branches with ⟨body, _ | nodes⟩ <;> rfl

theorem extend_push (node : Node) (branches more : Branches) :
    extend (push node branches) more = extend branches (more.cons node) := by
  rcases branches with ⟨body, _ | nodes⟩ <;> simp [extend, push, Branches.cons]

theorem extend_nil (branches : Branches) : extend branches ⟨[], none⟩ = branches := by
  rcases branches with ⟨body, _ | nodes⟩ <;> simp [extend]

theorem nil_extend (branches : Branches) : extend ⟨[], none⟩ branches = branches := by
  simp [extend]

theorem isSome_upTo (text : String) (offset : Nat) (progress : Progress) :
    (progress.upTo text offset).otherwise.isSome = progress.branches.otherwise.isSome := by
  rcases progress with ⟨position, body, _ | nodes⟩ <;> rw [Progress.upTo] <;> split <;> rfl

theorem outcome_nil (text : String) (kind : Kind) (branches : Branches) :
    outcome text kind branches [] = .ok branches := by
  simp [outcome, Except.mapError, Except.map, extend_nil]

/-- A node in front of what the parser reads is a node behind what has been read. -/
theorem outcome_push {text : String} {kind : Kind} {branches : Branches} {node : Node}
    {lexemes rest : List Lexeme}
    (step : Parser.nodes (rule kind branches) lexemes =
      (Parser.nodes (rule kind branches) rest).map (Branches.cons node)) :
    outcome text kind branches lexemes = outcome text kind (push node branches) rest := by
  rw [outcome, outcome, rule_push, step]
  cases Parser.nodes (rule kind branches) rest with
  | error flaw =>
      rfl
  | ok more =>
      simp only [Except.map, Except.mapError, extend_push]

/-- So is a node that is read from a block. -/
theorem outcome_block {text : String} {kind : Kind} {branches : Branches}
    {result : Except Flaw Node} {lexemes rest : List Lexeme}
    (step : Parser.nodes (rule kind branches) lexemes =
      result.bind fun node =>
        (Parser.nodes (rule kind branches) rest).map (Branches.cons node)) :
    outcome text kind branches lexemes =
      (result.mapError (located text)).bind fun node =>
        outcome text kind (push node branches) rest := by
  cases result with
  | error flaw =>
      rw [outcome, step]
      rfl
  | ok node =>
      exact outcome_push step

theorem outcome_test {text condition : String} {kind : Kind} {branches : Branches} {offset : Nat}
    {rest : List Lexeme} {block : Block} (found : split? 0 rest = some block) :
    outcome text kind branches (.tag (.test condition) offset :: rest) =
      ((Parser.nodes .allowed block.contents).mapError (located text)).bind fun inner =>
        outcome text kind (push (inner.toNode (Condition.ofText condition)) branches)
          block.rest := by
  have hnode : ∀ rule, Parser.nodes rule (.tag (.test condition) offset :: rest) =
      ((Parser.nodes .allowed block.contents).map
        (·.toNode (Condition.ofText condition))).bind fun node =>
          (Parser.nodes rule block.rest).map (Branches.cons node) := by
    intro rule
    rw [Parser.nodes_test found]
    cases Parser.nodes .allowed block.contents <;> rfl
  rw [outcome_block (hnode _), Parser.mapError_map]
  cases Parser.nodes .allowed block.contents <;> rfl

/-- What follows an else tag is read into the second branch, if there may be one. -/
theorem outcome_otherwise (text : String) (kind : Kind) (branches : Branches) (offset : Nat)
    (rest : List Lexeme) :
    outcome text kind branches (.tag .otherwise offset :: rest) =
      if kind ≠ .testBody then fail text offset (.unexpectedTag Tag.otherwise.toText)
      else if branches.otherwise.isSome then fail text offset .duplicateElse
      else outcome text kind { branches with otherwise := some [] } rest := by
  cases kind with
  | testBody =>
      rcases branches with ⟨body, _ | nodes⟩
      · have hallowed : outcome text .testBody ⟨body, none⟩ (.tag .otherwise offset :: rest) =
            outcome text .testBody ⟨body, some []⟩ rest := by
          simp only [outcome, rule, Option.isSome_none, Option.isSome_some, if_true,
            Bool.false_eq_true, if_false, Parser.nodes_otherwise_allowed]
          cases Parser.nodes .taken rest <;> simp [Except.mapError, Except.map, extend]
        exact hallowed
      · simp only [outcome, rule, Option.isSome_some, if_true, Parser.nodes_otherwise_taken]
        rfl
  | whole | loopBody | separator =>
      simp only [outcome, rule, Parser.nodes_otherwise_refused]
      rfl

/-- The run in front of a tag, or of the end, is the literal that is read up to it. -/
theorem outcome_upTo {text : String} {kind : Kind} {progress : Progress} {offset : Nat}
    {run : List Char} (rest : List Lexeme)
    (cut : slice? text.toList progress.position offset = some run) :
    outcome text kind progress.branches (Lexeme.ofRun run ++ rest) =
      outcome text kind (progress.upTo text offset) rest := by
  rcases Text.slice?_eq_some_iff.1 cut with ⟨_, _, _, _, hoffset⟩
  by_cases hrun : run = []
  · have hempty : ¬ progress.position < offset := by
      rw [← hoffset, hrun, Text.byteLength_nil]
      omega
    rw [Progress.upTo, if_neg hempty, hrun, Lexeme.ofRun, if_pos rfl, List.nil_append]
  · have hpositive : byteLength run ≠ 0 := fun hzero =>
      hrun (Text.eq_nil_of_byteLength_eq_zero hzero)
    rw [Progress.upTo, if_pos (by omega), slice_of_slice? cut, Lexeme.ofRun, if_neg hrun]
    exact outcome_push (Parser.nodes_literal run)

/-- Whatever is read in front of lexemes, reading on is what the parser makes of them. -/
def ReadsOn (text : String) (lexemes : List Lexeme) : Prop :=
  ∀ (call : Call) (progress : Progress),
    Stretch text.toList progress.position call.stop lexemes →
    Balanced lexemes ∨ call.stop = byteLength text.toList →
      proceed text call progress = outcome text call.kind progress.branches lexemes

theorem ReadsOn.nodes_eq {text : String} {lexemes : List Lexeme} (call : Call) :
    ReadsOn text lexemes → Stretch text.toList call.start call.stop lexemes →
      Balanced lexemes ∨ call.stop = byteLength text.toList →
        nodes text call =
          (Parser.nodes (rule call.kind ⟨[], none⟩) lexemes).mapError (located text) := by
  intro h hstretch hends
  have hread := h call call.begin hstretch hends
  rw [nodes, hread]
  simp only [outcome, Call.begin]
  cases Parser.nodes (rule call.kind ⟨[], none⟩) lexemes with
  | error flaw =>
      rfl
  | ok branches =>
      simp only [Except.mapError, Except.map, nil_extend]

/-- The contents of a loop, of which the parts are read as the parser does. -/
theorem repeated_eq {text : String} {contents : List Lexeme} (key : String) {start stop : Nat}
    (parts : ∀ inner : List Lexeme, inner.length ≤ contents.length → ReadsOn text inner) :
    Stretch text.toList start stop contents → Balanced contents →
      repeated text key start stop = (Parser.loop key contents).mapError (located text) := by
  intro h hbalanced
  cases hfirst : Parser.separator? contents with
  | none =>
      have hbody : nodes text ⟨start, stop, .loopBody⟩ =
          (Parser.nodes .refused contents).mapError (located text) :=
        (parts contents (Nat.le_refl _)).nodes_eq _ h (.inl hbalanced)
      rw [repeated_of_none (separator?_of_none hfirst h), hbody,
        Parser.loop_of_no_separator hfirst, Parser.mapError_map]
  | some separator =>
      rcases Grammar.separator?_eq_some_iff.1 hfirst with ⟨front, hgap, rfl⟩
      rcases separator?_of_some hfirst h with ⟨hfound, hcut, hbehind⟩
      -- The separator is a block in contents that close all of theirs.
      have hseparator := hgap.balanced_append.1 hbalanced
      rcases hseparator.exists_split? rfl with ⟨block, hblock, hrest⟩
      have hlocate : locate text separator.offset = .ok block.close := by
        have h := @locate_of_stretch _ ⟨.separator, _, _⟩ _ _ rfl h.at_tag.2.1
          (.inl hseparator) hbehind
        rw [hblock] at h
        exact h
      rcases hbehind.of_block hblock with ⟨hinside, hbody⟩
      have hcontentsLength := Block.length_contents_lt hblock
      have hrestLength := Block.length_rest_lt hblock
      have hbetween : nodes text
          ⟨separator.offset + byteLength Tag.separator.written, block.close, .separator⟩ =
            (Parser.nodes .refused block.contents).mapError (located text) := by
        refine (parts _ ?_).nodes_eq _ hinside (.inl (Block.balanced_contents hblock))
        simp only [List.length_append, List.length_cons]
        omega
      have hbody : nodes text ⟨behindClose block.close, stop, .loopBody⟩ =
          (Parser.nodes .refused block.rest).mapError (located text) := by
        refine (parts _ ?_).nodes_eq _ hbody (.inl hrest)
        simp only [List.length_append, List.length_cons]
        omega
      rw [repeated_of_some hfound, hlocate, Parser.loop_of_separator hfirst hblock,
        Parser.mapError_bind, ← hbetween, Except.bind]
      simp only [hbody, slice_of_slice? hcut, Parser.mapError_map]

/-- One tag, and what is left of the range behind it or behind the block that it opens. -/
theorem proceed_at_tag {text : String} {call : Call} {progress : Progress} {span : Span}
    {rest : List Lexeme} (parts : ∀ inner : List Lexeme, inner.length ≤ rest.length →
      ReadsOn text inner)
    (found : Tag.next? text.toList progress.position call.stop = some span)
    (ends : Balanced (.tag span.tag span.start :: rest) ∨ call.stop = byteLength text.toList) :
    Stretch text.toList span.stop call.stop rest →
      proceed text call progress =
        outcome text call.kind (progress.upTo text span.start)
          (.tag span.tag span.start :: rest) := by
  intro h
  have hread := (Tag.next?_inside found).read
  have hlocate := fun hopens => locate_of_stretch hopens hread ends h
  have hbehind : ∀ {block : Block} (node : Node), split? 0 rest = some block → span.tag.opens →
      proceed text call (progress.add text span node (behindClose block.close)) =
        outcome text call.kind (push node (progress.upTo text span.start)) block.rest := by
    intro block node hblock hopens
    refine parts _ (Nat.le_of_lt (Block.length_rest_lt hblock)) call (progress.add ..)
      (h.of_block hblock).2 (ends.imp_left ?_)
    exact Balanced.rest (Block.deepen_of_opens 1 span.start hopens) hblock
  cases htag : span.tag with
  | value key =>
      rw [htag] at ends
      rw [proceed_value found htag, outcome_push Parser.nodes_value]
      exact parts rest (Nat.le_refl _) call (progress.add ..) h
        (ends.imp_left (Balanced.cons_iff rfl).1)
  | loop key =>
      rw [proceed_loop found htag, hlocate (by rw [htag]; rfl), htag]
      cases hblock : split? 0 rest with
      | none =>
          rw [outcome, Parser.nodes_loop_of_unclosed hblock]
          rfl
      | some block =>
          have hlength := Nat.le_of_lt (Block.length_contents_lt hblock)
          have hnode := repeated_eq key (fun inner hle => parts inner (Nat.le_trans hle hlength))
            (h.of_block hblock).1 (Block.balanced_contents hblock)
          rw [outcome_block (Parser.nodes_loop hblock), ← hnode]
          simp only [← hbehind _ hblock (by rw [htag]; rfl)]
          rfl
  | test condition =>
      rw [proceed_test found htag, hlocate (by rw [htag]; rfl), htag]
      cases hblock : split? 0 rest with
      | none =>
          rw [outcome, Parser.nodes_test_of_unclosed hblock]
          rfl
      | some block =>
          have hlength := Nat.le_of_lt (Block.length_contents_lt hblock)
          have hinner : nodes text ⟨span.stop, block.close, .testBody⟩ =
              (Parser.nodes .allowed block.contents).mapError (located text) :=
            (parts _ hlength).nodes_eq _ (h.of_block hblock).1
              (.inl (Block.balanced_contents hblock))
          rw [outcome_test hblock, ← hinner]
          simp only [← hbehind _ hblock (by rw [htag]; rfl), Option.elim_some, Except.bind]
  | otherwise =>
      rw [htag] at ends
      have hlater := fun branches => parts rest (Nat.le_refl _) call ⟨span.stop, branches⟩ h
        (ends.imp_left (Balanced.cons_iff rfl).1)
      simp only [proceed_of_some found, htag, tagText_of_lex? hread, Progress.divide, hlater,
        outcome_otherwise, isSome_upTo]
  | separator =>
      simp only [proceed_of_some found, htag, outcome, Parser.nodes_separator]
      rfl
  | close =>
      simp only [proceed_of_some found, outcome, Parser.nodes_close, tagText_of_lex? hread, htag]
      rfl

theorem balanced_ofRun_append {run : List Char} {lexemes : List Lexeme} :
    Balanced (Lexeme.ofRun run ++ lexemes) ↔ Balanced lexemes := by
  by_cases hrun : run = []
  · simp [Lexeme.ofRun, hrun]
  · rw [Lexeme.ofRun, if_neg hrun]
    exact Balanced.cons_iff rfl

theorem readsOn (text : String) (lexemes : List Lexeme) : ReadsOn text lexemes := by
  -- Every call is for fewer lexemes, and so is every step behind a tag.
  induction hcount : lexemes.length using Nat.strong_induction_on generalizing lexemes with
  | _ count ih =>
      subst hcount
      intro call progress h hends
      rcases h.cases with
        ⟨run, hcut, rfl, hnone⟩ | ⟨run, span, rest, hcut, rfl, -, hfound, hrest⟩
      · rw [proceed_of_none hnone, ← List.append_nil (Lexeme.ofRun run), outcome_upTo [] hcut,
          outcome_nil]
      · rw [outcome_upTo _ hcut]
        have hparts : ∀ inner : List Lexeme, inner.length ≤ rest.length → ReadsOn text inner :=
          fun inner hle => ih _ (Nat.lt_of_le_of_lt hle (length_rest_lt run span rest)) inner rfl
        exact proceed_at_tag hparts hfound (hends.imp_left balanced_ofRun_append.1) hrest

theorem stretch_all (text : String) :
    Stretch text.toList 0 (byteLength text.toList) (Lexeme.ofText 0 text.toList) :=
  Stretch.behind [] text.toList

/-- Reading by byte offsets gives the nodes of the template, or the error. -/
theorem parse_eq (text : String) :
    parse text = (Template.parse text).map Template.nodes := by
  have hparse : (Template.parse text).map Template.nodes =
      (Template.parseNodes text.toList).mapError (located text) := by
    rw [Template.parse]
    cases Template.parseNodes text.toList <;> rfl
  rw [hparse, parse]
  by_cases hempty : text = ""
  · subst hempty
    simp only [if_true, Template.parseNodes, String.toList_empty, Lexeme.ofText_nil,
      Parser.nodes_nil]
    rfl
  · have hnodes := (readsOn text _).nodes_eq (.all text) (stretch_all text) (.inr rfl)
    rw [if_neg hempty, hnodes, ← Parser.mapError_map]
    rfl

end Range
end Stencil
