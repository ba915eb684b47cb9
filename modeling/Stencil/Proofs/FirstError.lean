import Stencil.Proofs.Pass

/-!
# First errors — which tag of a text is blamed

Two things can be wrong with a tag: it may not stand where it stands, or it opens a block that is
never closed.  The first illegal tag of a text is found by the pass over it.  A block that is never
closed counts only if no other block is open where it starts.  Of the two, the one that stands
further to the left is reported, so an unclosed block hides everything inside it.

* `Pass.Place`, with `Illegal` and `Unclosed` — a tag of a sequence, and what is wrong with it;
* `Pass.Reported` — the flaw that is reported, and `Pass.Reported.unique`;
* `Pass.nodes_eq_error_iff` — the parser reports that flaw and no other;
* `Template.parse_error_iff` — so the error of a text is found in one pass.
-/

namespace Stencil
namespace Pass

open Block (Balanced StaysOpen deepen depth split?)
open Lexeme (Clean)
open Stencil.Parser (ElseRule Flaw nodes)

/-! ## Places -/

/-- A tag of a sequence of lexemes, with what stands before and behind it. -/
structure Place (lexemes : List Lexeme) where
  before : List Lexeme
  tag : Tag
  offset : Nat
  behind : List Lexeme
  eq : lexemes = before ++ .tag tag offset :: behind

namespace Place

variable {lexemes : List Lexeme}

/-- How many lexemes stand before the tag. -/
def index (place : Place lexemes) : Nat := place.before.length

/-- The tag may not stand in the innermost block that is open there, and it is the first such
tag. -/
def Illegal (place : Place lexemes) (flaw : Flaw) : Prop :=
  ∃ stack, run [] place.before = .ok stack ∧
    step stack (.tag place.tag place.offset) = .error flaw

/-- The tag opens a block where no other is open, and the number of open blocks never returns to
zero behind it. -/
def Unclosed (place : Place lexemes) : Prop :=
  place.tag.opens ∧ depth 0 place.before = 0 ∧ StaysOpen 1 place.behind

theorem eq_of_index_eq {left right : Place lexemes} : left.index = right.index → left = right := by
  intro h
  rcases left with ⟨before, tag, offset, behind, heq⟩
  rcases right with ⟨before', tag', offset', behind', heq'⟩
  have hsame := List.append_inj (heq.symm.trans heq') h
  simp_all

theorem exists_between {left right : Place lexemes} :
    left.index < right.index →
      ∃ between, right.before = left.before ++ .tag left.tag left.offset :: between ∧
        left.behind = between ++ .tag right.tag right.offset :: right.behind := by
  intro h
  have hshort : left.before.length < right.before.length := h
  have hwhole := left.eq.symm.trans right.eq
  rcases List.append_eq_append_iff.1 hwhole with ⟨middle, hbefore, hmiddle⟩ | ⟨middle, hbefore, _⟩
  · cases middle with
    | nil =>
        simp [hbefore] at hshort
    | cons first between =>
        simp only [List.cons_append, List.cons.injEq] at hmiddle
        rcases hmiddle with ⟨rfl, hbehind⟩
        exact ⟨between, hbefore, hbehind⟩
  · rw [hbefore, List.length_append] at hshort
    exact absurd (Nat.le_add_right _ _) (Nat.not_le.2 hshort)

theorem eq_of_not_before {left right : Place lexemes} :
    ¬ left.index < right.index → ¬ right.index < left.index → left = right := by
  intro hleft hright
  exact eq_of_index_eq (Nat.le_antisymm (Nat.le_of_not_lt hright) (Nat.le_of_not_lt hleft))

/-- The pass stops at an illegal tag, so no later one is the first. -/
theorem Illegal.not_before {early late : Place lexemes} {flaw other : Flaw} :
    early.Illegal flaw → late.Illegal other → ¬ early.index < late.index := by
  rintro ⟨stack, hrun, hstep⟩ ⟨later, hlater, _⟩ hlt
  rcases exists_between hlt with ⟨between, hbefore, _⟩
  have hstop : run stack (.tag early.tag early.offset :: between) = .error flaw :=
    run_cons_of_error between hstep
  rw [hbefore, run_append, hrun] at hlater
  simp [Except.bind, hstop] at hlater

theorem Illegal.unique {left right : Place lexemes} {flaw other : Flaw} :
    left.Illegal flaw → right.Illegal other → flaw = other := by
  intro hleft hright
  cases eq_of_not_before (hleft.not_before hright) (hright.not_before hleft)
  rcases hleft with ⟨stack, hrun, hstep⟩
  rcases hright with ⟨stack', hrun', hstep'⟩
  cases hrun.symm.trans hrun'
  exact Except.error.inj (hstep.symm.trans hstep')

theorem depth_of_opens {tag : Tag} (opens : tag.opens) (start offset : Nat) :
    deepen start (.tag tag offset) = start + 1 := by
  cases tag <;> first | rfl | cases opens

/-- Behind a block that is never closed a block is open at every place. -/
theorem Unclosed.not_before {early late : Place lexemes} :
    early.Unclosed → late.Unclosed → ¬ early.index < late.index := by
  rintro ⟨hopens, hdepth, hstays⟩ ⟨_, hlater, _⟩ hlt
  rcases exists_between hlt with ⟨between, hbefore, hbehind⟩
  rw [hbehind, Block.staysOpen_append] at hstays
  have hcount : depth 0 late.before = depth 1 between := by
    rw [hbefore, Block.depth_append, hdepth, Block.depth_cons, depth_of_opens hopens]
  have hpos : 0 < depth 1 between := hstays.1.pos_depth
  exact Nat.ne_of_gt hpos (hcount.symm.trans hlater)

theorem Unclosed.unique {left right : Place lexemes} :
    left.Unclosed → right.Unclosed → left = right := by
  intro hleft hright
  exact eq_of_not_before (hleft.not_before hright) (hright.not_before hleft)

end Place

/-- The flaw that is reported for a sequence of lexemes. -/
inductive Reported (lexemes : List Lexeme) : Flaw → Prop where
  /-- A block that is never closed, if no illegal tag stands before it. -/
  | unclosed (place : Place lexemes) :
      place.Unclosed →
      (∀ (other : Place lexemes) (flaw : Flaw), other.Illegal flaw → place.index < other.index) →
      Reported lexemes ⟨place.offset, .unclosedBlock place.tag.toText⟩
  /-- An illegal tag, if no block that is never closed starts before it. -/
  | illegal (place : Place lexemes) {flaw : Flaw} :
      place.Illegal flaw →
      (∀ other : Place lexemes, other.Unclosed → ¬ other.index < place.index) →
      Reported lexemes flaw

/-- Only one flaw is reported. -/
theorem Reported.unique {lexemes : List Lexeme} {flaw other : Flaw} :
    Reported lexemes flaw → Reported lexemes other → flaw = other := by
  intro hleft hright
  cases hleft with
  | unclosed place hunclosed hbefore =>
      cases hright with
      | unclosed place' hunclosed' _ =>
          rw [hunclosed.unique hunclosed']
      | illegal place' hillegal' hnone' =>
          exact absurd (hbefore place' _ hillegal') (hnone' place hunclosed)
  | illegal place hillegal hnone =>
      cases hright with
      | unclosed place' hunclosed' hbefore' =>
          exact absurd (hbefore' place _ hillegal) (hnone place' hunclosed')
      | illegal place' hillegal' _ =>
          exact hillegal.unique hillegal'

/-! ## What the parser reports -/

section Prefixes

variable {front lexemes : List Lexeme}

/-- A place behind a sequence in front. -/
def Place.shift (front : List Lexeme) (place : Place lexemes) : Place (front ++ lexemes) where
  before := front ++ place.before
  tag := place.tag
  offset := place.offset
  behind := place.behind
  eq := by
    rw [List.append_assoc, ← place.eq]

/-- A place in a sequence, with more behind it. -/
def Place.extend (more : List Lexeme) (place : Place front) : Place (front ++ more) where
  before := place.before
  tag := place.tag
  offset := place.offset
  behind := place.behind ++ more
  eq := by
    rw [← List.cons_append, ← List.append_assoc, ← place.eq]

theorem Place.extend_or_shift (place : Place (front ++ lexemes)) :
    (∃ inside : Place front, place = inside.extend lexemes) ∨
      ∃ later : Place lexemes, place = later.shift front := by
  rcases place with ⟨before, tag, offset, behind, heq⟩
  rcases List.append_eq_append_iff.1 heq with ⟨middle, rfl, hlater⟩ | ⟨middle, hfront, hbehind⟩
  · exact Or.inr ⟨⟨middle, tag, offset, behind, hlater⟩, rfl⟩
  · cases middle with
    | nil =>
        have hlater : lexemes = [] ++ .tag tag offset :: behind := by simpa using hbehind.symm
        have hbefore : before = front ++ [] := by simpa using hfront.symm
        subst hbefore
        exact Or.inr ⟨⟨[], tag, offset, behind, hlater⟩, rfl⟩
    | cons first middle =>
        simp only [List.cons_append, List.cons.injEq] at hbehind
        rcases hbehind with ⟨rfl, rfl⟩
        exact Or.inl ⟨⟨before, tag, offset, middle, hfront⟩, rfl⟩

theorem Place.index_shift (place : Place lexemes) :
    (place.shift front).index = front.length + place.index :=
  List.length_append

theorem Place.index_shift_lt_iff {left right : Place lexemes} :
    (left.shift front).index < (right.shift front).index ↔ left.index < right.index := by
  simp [Place.index_shift]

theorem Place.index_extend_lt (place : Place front) :
    (place.extend lexemes).index < front.length := by
  have hlength : front.length = place.before.length + (place.behind.length + 1) := by
    simpa using congrArg List.length place.eq
  rw [hlength]
  exact Nat.lt_add_of_pos_right (Nat.succ_pos _)

theorem Place.illegal_shift_iff {place : Place lexemes} {flaw : Flaw}
    (complete : run [] front = .ok []) : (place.shift front).Illegal flaw ↔ place.Illegal flaw := by
  have hrun : run [] (place.shift front).before = run [] place.before := by
    have hsplit := run_append [] front place.before
    rw [complete] at hsplit
    exact hsplit
  unfold Illegal
  rw [hrun]
  rfl

theorem Place.not_illegal {place : Place front} {flaw : Flaw} {last : List Frame}
    (complete : run [] front = .ok last) : ¬ place.Illegal flaw := by
  rintro ⟨stack, hrun, hstep⟩
  have hstop : run stack (.tag place.tag place.offset :: place.behind) = .error flaw :=
    run_cons_of_error place.behind hstep
  rw [place.eq, run_append, hrun] at complete
  simp [Except.bind, hstop] at complete

theorem Place.unclosed_shift_iff {place : Place lexemes} (level : depth 0 front = 0) :
    (place.shift front).Unclosed ↔ place.Unclosed := by
  have hdepth : depth 0 (place.shift front).before = depth 0 place.before := by
    have hsplit := Block.depth_append 0 front place.before
    rw [level] at hsplit
    exact hsplit
  unfold Unclosed
  rw [hdepth]
  rfl

/-- A block that starts outside all others in a sequence is closed in it, if no block is open at its
end. -/
theorem Place.not_unclosed {place : Place front} (level : depth 0 front = 0) :
    ¬ place.Unclosed := by
  rintro ⟨hopens, hdepth, hstays⟩
  have hcount : depth 0 front = depth 1 place.behind := by
    calc
      depth 0 front
          = depth 0 (place.before ++ .tag place.tag place.offset :: place.behind) :=
            congrArg (depth 0) place.eq
      _ = depth (deepen 0 (.tag place.tag place.offset)) place.behind := by
            rw [Block.depth_append, hdepth, Block.depth_cons]
      _ = depth 1 place.behind := by rw [depth_of_opens hopens]
  have hpos : 0 < depth 1 place.behind := hstays.pos_depth
  exact Nat.ne_of_gt hpos (hcount.symm.trans level)

theorem Place.Unclosed.of_extend {place : Place front} :
    (place.extend lexemes).Unclosed → place.Unclosed := by
  rintro ⟨hopens, hdepth, hstays⟩
  exact ⟨hopens, hdepth, (Block.staysOpen_append.1 hstays).1⟩

/-- What is in order at the front of a sequence does not change what is reported behind it. -/
theorem Reported.shift {flaw : Flaw} (complete : run [] front = .ok []) :
    Reported lexemes flaw → Reported (front ++ lexemes) flaw := by
  have hlevel : depth 0 front = 0 := (length_of_run complete).symm
  intro h
  cases h with
  | unclosed place hunclosed hbefore =>
      refine .unclosed (place.shift front) ((Place.unclosed_shift_iff hlevel).2 hunclosed) ?_
      intro other flaw hillegal
      rcases other.extend_or_shift with ⟨inside, rfl⟩ | ⟨later, rfl⟩
      · have hinside : inside.Illegal flaw := hillegal
        exact absurd hinside (Place.not_illegal complete)
      · have hlater : later.Illegal flaw := (Place.illegal_shift_iff complete).1 hillegal
        exact Place.index_shift_lt_iff.2 (hbefore later flaw hlater)
  | illegal place hillegal hnone =>
      refine .illegal (place.shift front) ((Place.illegal_shift_iff complete).2 hillegal) ?_
      intro other hunclosed
      rcases other.extend_or_shift with ⟨inside, rfl⟩ | ⟨later, rfl⟩
      · exact absurd hunclosed.of_extend (Place.not_unclosed hlevel)
      · have hlater : later.Unclosed := (Place.unclosed_shift_iff hlevel).1 hunclosed
        exact fun hlt => hnone later hlater (Place.index_shift_lt_iff.1 hlt)

theorem exists_illegal {stack : List Frame} {flaw : Flaw} :
    run stack lexemes = .error flaw →
      ∃ (place : Place lexemes) (last : List Frame), run stack place.before = .ok last ∧
        step last (.tag place.tag place.offset) = .error flaw := by
  intro h
  induction lexemes generalizing stack with
  | nil =>
      cases h
  | cons first lexemes ih =>
      cases hstep : step stack first with
      | ok next =>
          rw [run_cons_of_ok _ hstep] at h
          rcases ih h with ⟨place, last, hrun, hlast⟩
          refine ⟨place.shift [first], last, ?_, hlast⟩
          exact (run_cons_of_ok place.before hstep).trans hrun
      | error other =>
          rw [run_cons_of_error _ hstep] at h
          cases h
          cases first with
          | literal text =>
              cases hstep
          | tag tag offset =>
              exact ⟨⟨[], tag, offset, lexemes, rfl⟩, stack, rfl, hstep⟩

/-- An illegal tag in blocks that are closed is reported, whatever follows. -/
theorem reported_of_run {flaw : Flaw} (level : depth 0 front = 0) :
    run [] front = .error flaw → Reported (front ++ lexemes) flaw := by
  intro h
  rcases exists_illegal h with ⟨place, hillegal⟩
  refine .illegal (place.extend lexemes) hillegal ?_
  intro other hunclosed hlt
  rcases other.extend_or_shift with ⟨inside, rfl⟩ | ⟨later, rfl⟩
  · exact Place.not_unclosed level hunclosed.of_extend
  · have hinside : (place.extend lexemes).index < front.length := place.index_extend_lt
    rw [Place.index_shift] at hlt
    exact Nat.not_lt.2 (Nat.le_add_right _ _) (hlt.trans hinside)

end Prefixes

/-- What a result of the parser says about the whole of a sequence. -/
def Judged (lexemes : List Lexeme) : Except Flaw Parser.Branches → Prop
  | .ok _ => run [] lexemes = .ok []
  | .error flaw => Reported lexemes flaw

theorem Judged.shift {front lexemes : List Lexeme} {result : Except Flaw Parser.Branches}
    (f : Parser.Branches → Parser.Branches) (complete : run [] front = .ok []) :
    Judged lexemes result → Judged (front ++ lexemes) (result.map f) := by
  intro h
  cases result with
  | ok branches =>
      have hrest : run [] lexemes = .ok [] := h
      have hwhole := run_append [] front lexemes
      rw [complete] at hwhole
      exact hwhole.trans hrest
  | error flaw =>
      exact Reported.shift complete h

/-- An illegal tag at the start of a sequence is reported. -/
theorem reported_of_step {tag : Tag} {offset : Nat} {flaw : Flaw} (lexemes : List Lexeme) :
    step [] (.tag tag offset) = .error flaw → Reported (.tag tag offset :: lexemes) flaw := by
  intro h
  refine .illegal ⟨[], tag, offset, lexemes, rfl⟩ ⟨[], rfl, h⟩ ?_
  intro other _
  exact Nat.not_lt_zero _

/-- So is a block that starts there and is never closed. -/
theorem reported_of_unclosed {tag : Tag} {offset : Nat} {lexemes : List Lexeme}
    {next : List Frame} (opens : tag.opens) (legal : step [] (.tag tag offset) = .ok next) :
    split? 0 lexemes = none →
      Reported (.tag tag offset :: lexemes) ⟨offset, .unclosedBlock tag.toText⟩ := by
  intro h
  refine .unclosed ⟨[], tag, offset, lexemes, rfl⟩
    ⟨opens, rfl, Block.split?_eq_none_iff.1 h⟩ ?_
  intro other flaw hillegal
  -- The tag itself is legal, so the illegal one is another.
  rcases Nat.eq_zero_or_pos other.index with hzero | hpos
  · have hfirst : other = ⟨[], tag, offset, lexemes, rfl⟩ := Place.eq_of_index_eq hzero
    rcases hillegal with ⟨stack, hrun, hstep⟩
    subst hfirst
    cases hrun
    simp [legal] at hstep
  · exact hpos

/-- A block outside all others is judged by its contents, and then by what follows. -/
theorem judged_block {α : Type} {opener : Lexeme} {lexemes : List Lexeme} {block : Block}
    {top : Frame} {inner : Except Flaw α} (f : α → Parser.Branches → Parser.Branches)
    (opened : step [] opener = .ok [top]) (found : split? 0 lexemes = some block)
    (inside : run [top] (block.contents ++ [.tag .close block.close]) = outcome [] inner) :
    Judged block.rest (nodes .refused block.rest) →
      Judged (opener :: lexemes)
        (inner.bind fun a => (nodes .refused block.rest).map (f a)) := by
  intro hrest
  have hwhole : opener :: lexemes =
      (opener :: (block.contents ++ [.tag .close block.close])) ++ block.rest := by
    simp [← Block.eq_of_split? found]
  have hfront : run [] (opener :: (block.contents ++ [.tag .close block.close])) =
      outcome [] inner :=
    (run_cons_of_ok _ opened).trans inside
  rw [hwhole]
  cases inner with
  | ok a =>
      exact hrest.shift (f a) hfront
  | error flaw =>
      -- The block is closed, so the illegal tag in it comes before any that is behind it.
      have hopen : deepen 0 opener = 1 := (length_of_step opened).symm
      have hcontents : depth 1 block.contents = 1 := (Block.balanced_contents found).depth_eq
      refine reported_of_run ?_ hfront
      simp [Block.depth_append, hopen, hcontents]

/-- The parser reports what the definition says. -/
theorem judged_nodes :
    ∀ (rule : ElseRule) (lexemes : List Lexeme), rule = .refused → Clean lexemes →
      Judged lexemes (nodes .refused lexemes) := by
  -- Only sequences outside all blocks are judged: what is inside a block is left to the pass over
  -- it, so nothing is claimed of the contents of a loop.
  refine Parser.nodes.induct
    (fun rule lexemes => rule = .refused → Clean lexemes →
      Judged lexemes (nodes .refused lexemes))
    (fun _ _ => True)
    ?nil ?literal ?value ?loopUnclosed ?loop ?testUnclosed ?test ?otherwiseRefused ?otherwiseTaken
    ?otherwiseAllowed ?separator ?close ?plain ?joinedUnclosed ?joined
  case nil =>
    intro rule _ _
    rw [Parser.nodes_nil]
    rfl
  case literal =>
    intro rule text lexemes ih hrule hclean
    have hstep : run [] [.literal text] = .ok [] := by
      simp [step, settle, Except.bind]
    rw [Parser.nodes_literal]
    exact (ih hrule hclean.tail).shift _ hstep
  case value =>
    intro rule key offset lexemes ih hrule hclean
    have hstep : run [] [.tag (.value key) offset] = .ok [] := rfl
    rw [Parser.nodes_value]
    exact (ih hrule hclean.tail).shift _ hstep
  case loopUnclosed =>
    intro rule key offset lexemes hnone _ _
    rw [Parser.nodes_loop_of_unclosed hnone]
    exact reported_of_unclosed rfl rfl hnone
  case loop =>
    intro rule key offset lexemes block hfound _ ih hrule hclean
    rcases clean_of_split? hfound hclean.tail with ⟨hinside, hbehind⟩
    have hcontents := run_descent.2 key block.contents [] block.close
      (Block.balanced_contents hfound) hinside
    rw [Parser.nodes_loop hfound]
    exact judged_block Parser.Branches.cons rfl hfound hcontents (ih hrule hbehind)
  case testUnclosed =>
    intro rule condition offset lexemes hnone _ _
    rw [Parser.nodes_test_of_unclosed hnone]
    exact reported_of_unclosed rfl rfl hnone
  case test =>
    intro rule condition offset lexemes block hfound _ ih hrule hclean
    rcases clean_of_split? hfound hclean.tail with ⟨hinside, hbehind⟩
    have hcontents := run_descent.1 .allowed block.contents (.test false) [] block.close trivial
      (Block.balanced_contents hfound) hinside
    have hopened : step [] (.tag (.test condition) offset) = .ok [.test false] := rfl
    rw [Parser.nodes_test hfound]
    exact judged_block
      (fun branches => Parser.Branches.cons (branches.toNode (Condition.ofText condition)))
      hopened hfound hcontents (ih hrule hbehind)
  case otherwiseRefused =>
    intro offset lexemes _ _
    rw [Parser.nodes_otherwise_refused]
    exact reported_of_step lexemes rfl
  case otherwiseTaken =>
    intro offset lexemes hrule _
    cases hrule
  case otherwiseAllowed =>
    intro offset lexemes _ hrule _
    cases hrule
  case separator =>
    intro rule offset lexemes _ _
    rw [Parser.nodes_separator]
    exact reported_of_step lexemes rfl
  case close =>
    intro rule offset lexemes _ _
    rw [Parser.nodes_close]
    exact reported_of_step lexemes rfl
  all_goals
    intros
    trivial

/-- Nothing is reported for a sequence that the pass reads to its end with no block left open. -/
theorem not_reported_of_run {lexemes : List Lexeme} {flaw : Flaw} :
    run [] lexemes = .ok [] → ¬ Reported lexemes flaw := by
  intro hrun h
  cases h with
  | unclosed place hunclosed _ =>
      have hlevel : depth 0 lexemes = 0 := (length_of_run hrun).symm
      exact Place.not_unclosed hlevel hunclosed
  | illegal place hillegal _ =>
      exact Place.not_illegal hrun hillegal

theorem nodes_eq_error_iff {lexemes : List Lexeme} (clean : Clean lexemes) {flaw : Flaw} :
    nodes .refused lexemes = .error flaw ↔ Reported lexemes flaw := by
  have hjudged := judged_nodes .refused lexemes rfl clean
  cases hnodes : nodes .refused lexemes with
  | ok branches =>
      rw [hnodes] at hjudged
      have hnone : ¬ Reported lexemes flaw := not_reported_of_run hjudged
      simp [hnone]
  | error other =>
      rw [hnodes] at hjudged
      constructor
      · rintro ⟨rfl⟩
        exact hjudged
      · intro h
        rw [hjudged.unique h]

end Pass

namespace Template

/-- The error in a text is found in one pass over its tags: it is about the first illegal one, or
about a block that is never closed and was opened before that outside all others. -/
theorem parse_error_iff (text : String) (error : ParseError) :
    parse text = .error error ↔
      ∃ lexemes flaw, Lexeme.Reads 0 text.toList lexemes ∧ Pass.Reported lexemes flaw ∧
        error = ParseError.atOffset text.toList flaw.offset flaw.cause := by
  rw [parse_eq_error_iff]
  constructor
  · rintro ⟨flaw, hnodes, rfl⟩
    have hreported := (Pass.nodes_eq_error_iff (Lexeme.clean_ofText 0 text.toList)).1 hnodes
    exact ⟨_, flaw, Lexeme.reads_ofText 0 text.toList, hreported, rfl⟩
  · rintro ⟨lexemes, flaw, hreads, hreported, rfl⟩
    rw [Lexeme.reads_iff.1 hreads] at hreported
    exact ⟨flaw, (Pass.nodes_eq_error_iff (Lexeme.clean_ofText 0 text.toList)).2 hreported, rfl⟩

end Template
end Stencil
