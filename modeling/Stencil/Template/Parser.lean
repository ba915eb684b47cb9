import Stencil.Tag.Block
import Stencil.Template.Node
import Stencil.Text.Blank

/-!
# Parsing — from lexemes to the tree of a template

Lexemes are read from left to right.  At a tag that opens a block, the block is split off first, so
an unclosed block is reported before anything inside it; then its contents are read, then what
follows.

* `Parser.nodes` — a sequence of nodes, with the part behind an `else` tag where one is allowed;
* `Parser.loop` — the contents of a loop, with the separator they may start with.
-/

namespace Stencil
namespace Parser

/-- Whether an `else` tag may stand in a sequence of nodes. -/
inductive ElseRule where
  | refused
  | allowed
  | taken
  deriving DecidableEq, Repr

/-- A parse error before its byte offset is turned into a position. -/
structure Flaw where
  offset : Nat
  cause : ParseError.Cause
  deriving DecidableEq, Repr

/-- A sequence of nodes, and the one behind an `else` tag. -/
structure Branches where
  body : List Node
  otherwise : Option (List Node)

/-- The same branches with one more node at the start. -/
def Branches.cons (node : Node) (branches : Branches) : Branches :=
  { branches with body := node :: branches.body }

/-- The node of a block under a condition. -/
def Branches.toNode (branches : Branches) (condition : Condition) : Node :=
  match branches.otherwise with
  | none => .guarded condition branches.body
  | some otherwise => .choice condition branches.body otherwise

/-- A separator's tag at the start of the contents of a loop, behind nothing but blanks. -/
structure Separator where
  gap : List Char
  offset : Nat
  behind : List Lexeme

/-- The separator that the contents of a loop start with. -/
def separator? : List Lexeme → Option Separator
  | .tag .separator offset :: lexemes => some ⟨[], offset, lexemes⟩
  | .literal run :: .tag .separator offset :: lexemes =>
      if run.all Text.isBlank then some ⟨run, offset, lexemes⟩ else none
  | _ => none

theorem length_behind_lt {lexemes : List Lexeme} {separator : Separator}
    (h : separator? lexemes = some separator) : separator.behind.length < lexemes.length := by
  unfold separator? at h
  split at h
  · cases h; simp
  · split at h
    · cases h; simp only [List.length_cons]; omega
    · cases h
  · cases h

mutual

/-- Reads a sequence of nodes. -/
def nodes (rule : ElseRule) : (lexemes : List Lexeme) → Except Flaw Branches
  | [] => .ok ⟨[], none⟩
  | .literal run :: lexemes => do
      return (← nodes rule lexemes).cons (.literal (String.ofList run))
  | .tag (.value key) _ :: lexemes => do
      return (← nodes rule lexemes).cons (.value key)
  -- A block is split off before anything inside it is looked at.
  | .tag (.loop key) offset :: lexemes =>
      match _found : Block.split? 0 lexemes with
      | none => .error ⟨offset, .unclosedBlock (Tag.loop key).toText⟩
      | some block => do
          let node ← loop key block.contents
          return (← nodes rule block.rest).cons node
  | .tag (.test condition) offset :: lexemes =>
      match _found : Block.split? 0 lexemes with
      | none => .error ⟨offset, .unclosedBlock (Tag.test condition).toText⟩
      | some block => do
          let branches ← nodes .allowed block.contents
          return (← nodes rule block.rest).cons (branches.toNode (Condition.ofText condition))
  | .tag .otherwise offset :: lexemes =>
      match rule with
      | .refused => .error ⟨offset, .unexpectedTag Tag.otherwise.toText⟩
      | .taken => .error ⟨offset, .duplicateElse⟩
      | .allowed => do
          -- What follows belongs to the second branch, up to the end of the block.
          return ⟨[], some (← nodes .taken lexemes).body⟩
  | .tag .separator offset :: _ => .error ⟨offset, .misplacedSeparator⟩
  | .tag .close offset :: _ => .error ⟨offset, .unexpectedTag Tag.close.toText⟩
termination_by lexemes => 2 * lexemes.length
decreasing_by
  all_goals try have := Block.length_contents_lt _found
  all_goals try have := Block.length_rest_lt _found
  all_goals simp only [List.length_cons]; omega

/-- Reads the contents of a loop over a key. -/
def loop (key : String) (contents : List Lexeme) : Except Flaw Node :=
  match _first : separator? contents with
  | none => do
      return .loop key (← nodes .refused contents).body
  | some separator =>
      match _found : Block.split? 0 separator.behind with
      | none => .error ⟨separator.offset, .unclosedBlock Tag.separator.toText⟩
      | some block => do
          let between ← nodes .refused block.contents
          let body ← nodes .refused block.rest
          return .joined key (String.ofList separator.gap) between.body body.body
termination_by 2 * contents.length + 1
decreasing_by
  all_goals try have := length_behind_lt _first
  all_goals try have := Block.length_contents_lt _found
  all_goals try have := Block.length_rest_lt _found
  all_goals omega

end

/-! ## One step of reading -/

theorem map_eq_return {α β : Type} (f : α → β) (result : Except Flaw α) :
    (do return f (← result)) = result.map f := by
  cases result <;> rfl

theorem map_eq_ok_iff {α β : Type} {f : α → β} {result : Except Flaw α} {b : β} :
    result.map f = .ok b ↔ ∃ a, result = .ok a ∧ f a = b := by
  cases result <;> simp [Except.map]

theorem bind_eq_ok_iff {α β : Type} {f : α → Except Flaw β} {result : Except Flaw α} {b : β} :
    result.bind f = .ok b ↔ ∃ a, result = .ok a ∧ f a = .ok b := by
  cases result <;> simp [Except.bind]

section Steps

variable {rule : ElseRule} {key condition : String} {offset : Nat} {lexemes : List Lexeme}

@[simp] theorem nodes_nil : nodes rule [] = .ok ⟨[], none⟩ := by
  simp [nodes]

@[simp] theorem nodes_literal (run : List Char) :
    nodes rule (.literal run :: lexemes) =
      (nodes rule lexemes).map (Branches.cons (.literal (String.ofList run))) := by
  rw [nodes, map_eq_return]

@[simp] theorem nodes_value :
    nodes rule (.tag (.value key) offset :: lexemes) =
      (nodes rule lexemes).map (Branches.cons (.value key)) := by
  rw [nodes, map_eq_return]

theorem nodes_loop_of_unclosed (unclosed : Block.split? 0 lexemes = none) :
    nodes rule (.tag (.loop key) offset :: lexemes) =
      .error ⟨offset, .unclosedBlock (Tag.loop key).toText⟩ := by
  rw [nodes]
  split
  · rfl
  · simp_all

theorem nodes_loop {block : Block} (found : Block.split? 0 lexemes = some block) :
    nodes rule (.tag (.loop key) offset :: lexemes) =
      (loop key block.contents).bind fun node =>
        (nodes rule block.rest).map (Branches.cons node) := by
  rw [nodes]
  split
  · simp_all
  · rename_i other same
    cases same.symm.trans found
    simp only [map_eq_return]
    rfl

theorem nodes_test_of_unclosed (unclosed : Block.split? 0 lexemes = none) :
    nodes rule (.tag (.test condition) offset :: lexemes) =
      .error ⟨offset, .unclosedBlock (Tag.test condition).toText⟩ := by
  rw [nodes]
  split
  · rfl
  · simp_all

theorem nodes_test {block : Block} (found : Block.split? 0 lexemes = some block) :
    nodes rule (.tag (.test condition) offset :: lexemes) =
      (nodes .allowed block.contents).bind fun branches =>
        (nodes rule block.rest).map
          (Branches.cons (branches.toNode (Condition.ofText condition))) := by
  rw [nodes]
  split
  · simp_all
  · rename_i other same
    cases same.symm.trans found
    simp only [map_eq_return]
    rfl

@[simp] theorem nodes_otherwise_refused :
    nodes .refused (.tag .otherwise offset :: lexemes) =
      .error ⟨offset, .unexpectedTag Tag.otherwise.toText⟩ := by
  simp [nodes]

@[simp] theorem nodes_otherwise_taken :
    nodes .taken (.tag .otherwise offset :: lexemes) = .error ⟨offset, .duplicateElse⟩ := by
  simp [nodes]

@[simp] theorem nodes_otherwise_allowed :
    nodes .allowed (.tag .otherwise offset :: lexemes) =
      (nodes .taken lexemes).map fun branches => ⟨[], some branches.body⟩ := by
  rw [nodes]
  exact map_eq_return _ _

@[simp] theorem nodes_separator :
    nodes rule (.tag .separator offset :: lexemes) = .error ⟨offset, .misplacedSeparator⟩ := by
  simp [nodes]

@[simp] theorem nodes_close :
    nodes rule (.tag .close offset :: lexemes) =
      .error ⟨offset, .unexpectedTag Tag.close.toText⟩ := by
  simp [nodes]

theorem loop_of_no_separator (first : separator? lexemes = none) :
    loop key lexemes = (nodes .refused lexemes).map fun branches => .loop key branches.body := by
  rw [loop]
  split
  · exact map_eq_return _ _
  · simp_all

theorem loop_of_unclosed_separator {separator : Separator}
    (first : separator? lexemes = some separator)
    (unclosed : Block.split? 0 separator.behind = none) :
    loop key lexemes = .error ⟨separator.offset, .unclosedBlock Tag.separator.toText⟩ := by
  rw [loop]
  split
  · simp_all
  · rename_i other same
    cases same.symm.trans first
    split
    · rfl
    · simp_all

theorem loop_of_separator {separator : Separator} {block : Block}
    (first : separator? lexemes = some separator)
    (found : Block.split? 0 separator.behind = some block) :
    loop key lexemes =
      (nodes .refused block.contents).bind fun between =>
        (nodes .refused block.rest).map fun body =>
          .joined key (String.ofList separator.gap) between.body body.body := by
  rw [loop]
  split
  · simp_all
  · rename_i other same
    cases same.symm.trans first
    split
    · simp_all
    · rename_i other same
      cases same.symm.trans found
      simp only [map_eq_return]
      rfl

end Steps

end Parser
end Stencil
