import Stencil.Proofs.Grammar

/-!
# Pass — reading the tags once, with a stack of open blocks

The parser goes down into every block and looks for its end before it looks inside.  The error it
reports can nevertheless be found by reading the tags once, from left to right, with the open blocks
on a stack: it is about the first tag that may not stand where it stands, unless a block that is
never closed was opened before that tag outside all others.

* `Pass.Frame`, `Pass.step`, `Pass.run` — the open blocks, and how a lexeme changes them;
* `Pass.run_descent` — over a block the pass agrees with the parser's descent into it.
-/

namespace Stencil
namespace Pass

open Block (Balanced StaysOpen deepen depth split?)
open Lexeme (Clean)
open Stencil.Parser (ElseRule Flaw nodes separator?)

/-! ## The open blocks -/

/-- A block that is open at some place of a text. -/
inductive Frame where
  /-- A loop, which is fresh as long as nothing but blanks stands behind its tag. -/
  | loop (fresh : Bool)
  /-- A block under a condition, which is divided once it has an `else` tag. -/
  | test (divided : Bool)
  | separator
  deriving DecidableEq, Repr

/-- The innermost block is not fresh any more. -/
def settle : List Frame → List Frame
  | .loop _ :: outer => .loop false :: outer
  | stack => stack

/-- Reads one lexeme; the innermost open block is the top of the stack. -/
def step (stack : List Frame) : Lexeme → Except Flaw (List Frame)
  | .literal run => .ok (if run.all Text.isBlank then stack else settle stack)
  | .tag (.value _) _ => .ok (settle stack)
  | .tag (.loop _) _ => .ok (.loop true :: settle stack)
  | .tag (.test _) _ => .ok (.test false :: settle stack)
  | .tag .separator offset =>
      match stack with
      | .loop true :: outer => .ok (.separator :: .loop false :: outer)
      | _ => .error ⟨offset, .misplacedSeparator⟩
  | .tag .otherwise offset =>
      match stack with
      | .test false :: outer => .ok (.test true :: outer)
      | .test true :: _ => .error ⟨offset, .duplicateElse⟩
      | _ => .error ⟨offset, .unexpectedTag Tag.otherwise.toText⟩
  | .tag .close offset =>
      match stack with
      | _ :: outer => .ok outer
      | [] => .error ⟨offset, .unexpectedTag Tag.close.toText⟩

/-- Reads lexemes from left to right and stops at the first one that is illegal. -/
def run (stack : List Frame) (lexemes : List Lexeme) : Except Flaw (List Frame) :=
  lexemes.foldlM step stack

@[simp] theorem run_nil (stack : List Frame) : run stack [] = .ok stack := rfl

@[simp] theorem run_cons (stack : List Frame) (lexeme : Lexeme) (lexemes : List Lexeme) :
    run stack (lexeme :: lexemes) = (step stack lexeme).bind fun next => run next lexemes :=
  List.foldlM_cons

theorem run_cons_of_ok {stack next : List Frame} {lexeme : Lexeme} (lexemes : List Lexeme) :
    step stack lexeme = .ok next → run stack (lexeme :: lexemes) = run next lexemes := by
  intro h
  rw [run_cons, h]
  rfl

theorem run_cons_of_error {stack : List Frame} {lexeme : Lexeme} {flaw : Flaw}
    (lexemes : List Lexeme) :
    step stack lexeme = .error flaw → run stack (lexeme :: lexemes) = .error flaw := by
  intro h
  rw [run_cons, h]
  rfl

theorem run_append (stack : List Frame) (left right : List Lexeme) :
    run stack (left ++ right) = (run stack left).bind fun next => run next right :=
  List.foldlM_append

/-- The length of the stack is the number of open blocks. -/
theorem length_of_step {stack next : List Frame} {lexeme : Lexeme} :
    step stack lexeme = .ok next → next.length = deepen stack.length lexeme := by
  have hsettle : (settle stack).length = stack.length := by
    unfold settle
    split <;> rfl
  intro h
  cases lexeme with
  | literal run =>
      have hnext : (if run.all Text.isBlank then stack else settle stack) = next := by
        simpa [step] using h
      rw [← hnext]
      split
      · rfl
      · exact hsettle
  | tag tag offset =>
      cases tag with
      | value key =>
          cases h
          exact hsettle
      | loop key =>
          cases h
          simp [deepen, hsettle]
      | test condition =>
          cases h
          simp [deepen, hsettle]
      | _ =>
          simp only [step] at h
          split at h <;> cases h
          simp [deepen]

theorem length_of_run {stack last : List Frame} {lexemes : List Lexeme} :
    run stack lexemes = .ok last → last.length = depth stack.length lexemes := by
  intro h
  induction lexemes generalizing stack with
  | nil =>
      cases h
      rfl
  | cons lexeme lexemes ih =>
      rw [run_cons] at h
      rcases Parser.bind_eq_ok_iff.1 h with ⟨next, hstep, hrest⟩
      calc
        last.length = depth next.length lexemes := ih hrest
        _ = depth (deepen stack.length lexeme) lexemes := by rw [length_of_step hstep]

/-! ## The pass over a block -/

/-- A frame stands for a block in which the parser follows a rule for `else` tags. -/
def Fits : ElseRule → Frame → Prop
  | .refused, .separator | .refused, .loop false => True
  | .allowed, .test false | .taken, .test true => True
  | _, _ => False

theorem settle_of_fits {rule : ElseRule} {top : Frame} (outer : List Frame) :
    Fits rule top → settle (top :: outer) = top :: outer := by
  intro h
  cases top with
  | loop fresh =>
      cases fresh
      · rfl
      · cases rule <;> cases h
  | _ =>
      rfl

theorem step_blank {text : List Char} (blank : ∀ c ∈ text, Text.isBlank c) (stack : List Frame) :
    step stack (.literal text) = .ok stack := by
  have hall : text.all Text.isBlank := List.all_eq_true.2 blank
  simp [step, hall]

/-- Only a separator makes a difference between a fresh loop and any other. -/
theorem step_fresh {tag : Tag} (offset : Nat) (outer : List Frame) :
    tag ≠ .separator →
      step (.loop true :: outer) (.tag tag offset) =
        step (.loop false :: outer) (.tag tag offset) := by
  intro h
  cases tag with
  | separator =>
      exact absurd rfl h
  | _ =>
      rfl

/-- A loop that starts with no separator might as well not be fresh. -/
theorem run_fresh {contents : List Lexeme} (outer : List Frame) (offset : Nat) :
    separator? contents = none → Clean contents →
      run (.loop true :: outer) (contents ++ [.tag .close offset]) =
        run (.loop false :: outer) (contents ++ [.tag .close offset]) := by
  intro hnone hclean
  cases contents with
  | nil =>
      simp [step]
  | cons first contents =>
      cases first with
      | tag tag place =>
          have hother : tag ≠ .separator := by
            rintro rfl
            simp [separator?] at hnone
          simp [step_fresh place outer hother]
      | literal run =>
          by_cases hblank : run.all Text.isBlank
          · have hkeep := step_blank (List.all_eq_true.1 hblank)
            simp only [List.cons_append, run_cons_of_ok _ (hkeep _)]
            cases contents with
            | nil =>
                simp [step]
            | cons second contents =>
                cases second with
                | literal other =>
                    have := hclean.apart
                    simp [Lexeme.Apart] at this
                | tag tag place =>
                    have hother : tag ≠ .separator := by
                      rintro rfl
                      simp [separator?, hblank] at hnone
                    simp [step_fresh place outer hother]
          · simp [step, hblank, settle]

/-- The gap before a separator leaves the stack alone. -/
theorem run_gap {front : List Lexeme} {gap : List Char} (stack : List Frame)
    (lexemes : List Lexeme) :
    Grammar.Gap front gap → run stack (front ++ lexemes) = run stack lexemes := by
  intro h
  cases h with
  | none =>
      rfl
  | run blank =>
      exact run_cons_of_ok lexemes (step_blank blank stack)

theorem clean_of_split? {lexemes : List Lexeme} {block : Block} :
    split? 0 lexemes = some block → Clean lexemes → Clean block.contents ∧ Clean block.rest := by
  intro hfound hclean
  rw [Block.eq_of_split? hfound] at hclean
  exact hclean.sides

/-- The flaw in a result of the parser, or else the stack that is left. -/
def outcome {α : Type} (left : List Frame) (result : Except Flaw α) : Except Flaw (List Frame) :=
  result.map fun _ => left

@[simp] theorem outcome_map {α β : Type} (left : List Frame) (f : α → β)
    (result : Except Flaw α) : outcome left (result.map f) = outcome left result := by
  cases result <;> rfl

theorem outcome_bind {α β : Type} {left middle : List Frame} {first : Except Flaw α}
    {second : α → Except Flaw β} {next : List Frame → Except Flaw (List Frame)}
    (follows : ∀ a, first = .ok a → next middle = outcome left (second a)) :
    (outcome middle first).bind next = outcome left (first.bind second) := by
  cases first with
  | error flaw =>
      rfl
  | ok a =>
      exact follows a rfl

/-- A block is read up to its closing tag, and what follows it with the stack that is left. -/
theorem run_block {α β : Type} {stack next left last : List Frame} {opener : Lexeme}
    {lexemes more : List Lexeme} {block : Block} {inner : Except Flaw α}
    {second : α → Except Flaw β}
    (opened : step stack opener = .ok next) (found : split? 0 lexemes = some block)
    (inside : run next (block.contents ++ [.tag .close block.close]) = outcome left inner)
    (behind : ∀ a, inner = .ok a → run left (block.rest ++ more) = outcome last (second a)) :
    run stack (opener :: (lexemes ++ more)) = outcome last (inner.bind second) := by
  have hsplit : lexemes ++ more =
      (block.contents ++ [.tag .close block.close]) ++ (block.rest ++ more) := by
    simp [Block.eq_of_split? found]
  calc
    run stack (opener :: (lexemes ++ more))
        = run next (lexemes ++ more) := run_cons_of_ok _ opened
    _ = (run next (block.contents ++ [.tag .close block.close])).bind fun stack =>
          run stack (block.rest ++ more) := by rw [hsplit, run_append]
    _ = (outcome left inner).bind fun stack => run stack (block.rest ++ more) := by rw [inside]
    _ = outcome last (inner.bind second) := outcome_bind behind

/-- Up to the closing tag of a block, the pass and the parser's descent find the same flaw, or none;
in that case the block is no longer on the stack. -/
theorem run_descent :
    (∀ (rule : ElseRule) (contents : List Lexeme) (top : Frame) (outer : List Frame) (offset : Nat),
      Fits rule top → Balanced contents → Clean contents →
        run (top :: outer) (contents ++ [.tag .close offset]) =
          outcome outer (nodes rule contents)) ∧
      ∀ (key : String) (contents : List Lexeme) (outer : List Frame) (offset : Nat),
        Balanced contents → Clean contents →
          run (.loop true :: outer) (contents ++ [.tag .close offset]) =
            outcome outer (Parser.loop key contents) := by
  -- The induction follows the descent; what the frame on top of the stack stands for is `Fits`.
  refine Parser.nodes.mutual_induct
    (fun rule contents => ∀ (top : Frame) (outer : List Frame) (offset : Nat),
      Fits rule top → Balanced contents → Clean contents →
        run (top :: outer) (contents ++ [.tag .close offset]) =
          outcome outer (nodes rule contents))
    (fun key contents => ∀ (outer : List Frame) (offset : Nat),
      Balanced contents → Clean contents →
        run (.loop true :: outer) (contents ++ [.tag .close offset]) =
          outcome outer (Parser.loop key contents))
    ?nil ?literal ?value ?loopUnclosed ?loop ?testUnclosed ?test ?otherwiseRefused ?otherwiseTaken
    ?otherwiseAllowed ?separator ?close ?plain ?joinedUnclosed ?joined
  case nil =>
    intro rule top outer offset _ _ _
    rw [Parser.nodes_nil]
    rfl
  case literal =>
    intro rule text lexemes ih top outer offset hfits hbalanced hclean
    have hstep : step (top :: outer) (.literal text) = .ok (top :: outer) := by
      simp [step, settle_of_fits outer hfits]
    rw [List.cons_append, run_cons_of_ok _ hstep, Parser.nodes_literal, outcome_map]
    exact ih top outer offset hfits ((Balanced.cons_iff rfl).1 hbalanced) hclean.tail
  case value =>
    intro rule key place lexemes ih top outer offset hfits hbalanced hclean
    have hstep : step (top :: outer) (.tag (.value key) place) = .ok (top :: outer) := by
      simp [step, settle_of_fits outer hfits]
    rw [List.cons_append, run_cons_of_ok _ hstep, Parser.nodes_value, outcome_map]
    exact ih top outer offset hfits ((Balanced.cons_iff rfl).1 hbalanced) hclean.tail
  case loopUnclosed =>
    intro rule key place lexemes hnone top outer offset _ hbalanced _
    rcases hbalanced.exists_split? rfl with ⟨block, hfound, _⟩
    simp [hnone] at hfound
  case loop =>
    intro rule key place lexemes block hfound ihLoop ih top outer offset hfits hbalanced hclean
    have hstep : step (top :: outer) (.tag (.loop key) place) =
        .ok (.loop true :: top :: outer) := by
      simp [step, settle_of_fits outer hfits]
    rcases clean_of_split? hfound hclean.tail with ⟨hinside, hbehind⟩
    have hcontents := ihLoop (top :: outer) block.close (Block.balanced_contents hfound) hinside
    rw [Parser.nodes_loop hfound]
    apply run_block hstep hfound hcontents
    intro node _
    rw [outcome_map]
    exact ih top outer offset hfits (hbalanced.rest rfl hfound) hbehind
  case testUnclosed =>
    intro rule condition place lexemes hnone top outer offset _ hbalanced _
    rcases hbalanced.exists_split? rfl with ⟨block, hfound, _⟩
    simp [hnone] at hfound
  case test =>
    intro rule condition place lexemes block hfound ihContents ih top outer offset hfits hbalanced
      hclean
    have hstep : step (top :: outer) (.tag (.test condition) place) =
        .ok (.test false :: top :: outer) := by
      simp [step, settle_of_fits outer hfits]
    rcases clean_of_split? hfound hclean.tail with ⟨hinside, hbehind⟩
    have hcontents := ihContents (.test false) (top :: outer) block.close trivial
      (Block.balanced_contents hfound) hinside
    rw [Parser.nodes_test hfound]
    apply run_block hstep hfound hcontents
    intro branches _
    rw [outcome_map]
    exact ih top outer offset hfits (hbalanced.rest rfl hfound) hbehind
  case otherwiseRefused =>
    intro place lexemes top outer offset hfits _ _
    have hstep : step (top :: outer) (.tag .otherwise place) =
        .error ⟨place, .unexpectedTag Tag.otherwise.toText⟩ := by
      cases top with
      | test divided =>
          cases divided <;> cases hfits
      | _ =>
          rfl
    rw [List.cons_append, run_cons_of_error _ hstep, Parser.nodes_otherwise_refused]
    rfl
  case otherwiseTaken =>
    intro place lexemes top outer offset hfits _ _
    have hstep : step (top :: outer) (.tag .otherwise place) = .error ⟨place, .duplicateElse⟩ := by
      cases top with
      | test divided =>
          cases divided
          · cases hfits
          · rfl
      | _ =>
          cases hfits
    rw [List.cons_append, run_cons_of_error _ hstep, Parser.nodes_otherwise_taken]
    rfl
  case otherwiseAllowed =>
    intro place lexemes ih top outer offset hfits hbalanced hclean
    have hstep : step (top :: outer) (.tag .otherwise place) = .ok (.test true :: outer) := by
      cases top with
      | test divided =>
          cases divided
          · rfl
          · cases hfits
      | _ =>
          cases hfits
    rw [List.cons_append, run_cons_of_ok _ hstep, Parser.nodes_otherwise_allowed, outcome_map]
    exact ih (.test true) outer offset trivial ((Balanced.cons_iff rfl).1 hbalanced) hclean.tail
  case separator =>
    intro rule place lexemes top outer offset hfits _ _
    have hstep : step (top :: outer) (.tag .separator place) =
        .error ⟨place, .misplacedSeparator⟩ := by
      cases top with
      | loop fresh =>
          cases fresh
          · rfl
          · cases rule <;> cases hfits
      | _ =>
          rfl
    rw [List.cons_append, run_cons_of_error _ hstep, Parser.nodes_separator]
    rfl
  case close =>
    intro rule place lexemes top outer offset _ hbalanced _
    exact absurd hbalanced (Balanced.not_close place lexemes)
  case plain =>
    intro key contents hfirst ih outer offset hbalanced hclean
    rw [run_fresh outer offset hfirst hclean, Parser.loop_of_no_separator hfirst, outcome_map]
    exact ih (.loop false) outer offset trivial hbalanced hclean
  case joinedUnclosed =>
    intro key contents separator hfirst hnone outer offset hbalanced _
    rcases Grammar.separator?_eq_some_iff.1 hfirst with ⟨front, hgap, rfl⟩
    rcases (hgap.balanced_append.1 hbalanced).exists_split? rfl with ⟨block, hfound, _⟩
    simp [hnone] at hfound
  case joined =>
    intro key contents separator hfirst block hfound ihBetween ihBody outer offset hbalanced hclean
    have hloop := @Parser.loop_of_separator key _ _ _ hfirst hfound
    rcases Grammar.separator?_eq_some_iff.1 hfirst with ⟨front, hgap, rfl⟩
    have hbalanced := hgap.balanced_append.1 hbalanced
    rcases clean_of_split? hfound hclean.sides.2 with ⟨hinside, hbehind⟩
    have hstep : step (.loop true :: outer) (.tag .separator separator.offset) =
        .ok (.separator :: .loop false :: outer) := rfl
    have hcontents := ihBetween .separator (.loop false :: outer) block.close trivial
      (Block.balanced_contents hfound) hinside
    -- The gap leaves the loop fresh, so the separator is taken, and behind it the loop is not.
    rw [hloop, List.append_assoc, run_gap _ _ hgap]
    apply run_block hstep hfound hcontents
    intro between _
    rw [outcome_map]
    exact ihBody (.loop false) outer offset trivial (hbalanced.rest rfl hfound) hbehind

end Pass
end Stencil
