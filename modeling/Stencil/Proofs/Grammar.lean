import Stencil.Proofs.Balance
import Stencil.Proofs.Reading
import Stencil.Template.Basic

/-!
# Grammar — which texts are templates

The grammar of templates is stated over lexemes, as a relation between a sequence of them and the
tree it derives.  Where the tags stand makes no difference to it.

* `Grammar.Derives` — the derivations of the grammar;
* `Grammar.Derives.nodes_append` — the parser follows a derivation, whatever comes behind it;
* `Grammar.derived_of_nodes` — and what it accepts has one;
* `Grammar.nodes_eq_ok_iff`, `Template.parse_eq_ok_iff` — so it accepts what the grammar derives.
-/

namespace Stencil
namespace Grammar

open Stencil.Parser (ElseRule Branches Flaw nodes separator?)

/-- What may stand between a loop's tag and its separator: nothing, or a run of blanks. -/
inductive Gap : List Lexeme → List Char → Prop where
  | none : Gap [] []
  | run {run : List Char} (blank : ∀ c ∈ run, Text.isBlank c) : Gap [.literal run] run

/-- The derivations of the template grammar. -/
inductive Derives : List Lexeme → List Node → Prop where
  | nil : Derives [] []
  | literal {run : List Char} {lexemes : List Lexeme} {tree : List Node} :
      Derives lexemes tree →
      Derives (.literal run :: lexemes) (.literal (String.ofList run) :: tree)
  | value {key : String} {offset : Nat} {lexemes : List Lexeme} {tree : List Node} :
      Derives lexemes tree →
      Derives (.tag (.value key) offset :: lexemes) (.value key :: tree)
  | loop {key : String} {offset close : Nat} {body lexemes : List Lexeme}
      {bodyTree tree : List Node} :
      Derives body bodyTree → Derives lexemes tree →
      Derives (.tag (.loop key) offset :: (body ++ .tag .close close :: lexemes))
        (.loop key bodyTree :: tree)
  | joined {key : String} {gap : List Char} {offset separatorOffset separatorClose close : Nat}
      {front separator body lexemes : List Lexeme} {separatorTree bodyTree tree : List Node} :
      Gap front gap →
      Derives separator separatorTree → Derives body bodyTree → Derives lexemes tree →
      Derives
        (.tag (.loop key) offset ::
          ((front ++ .tag .separator separatorOffset ::
            (separator ++ .tag .close separatorClose :: body)) ++ .tag .close close :: lexemes))
        (.joined key (String.ofList gap) separatorTree bodyTree :: tree)
  | guarded {condition : String} {offset close : Nat} {body lexemes : List Lexeme}
      {bodyTree tree : List Node} :
      Derives body bodyTree → Derives lexemes tree →
      Derives (.tag (.test condition) offset :: (body ++ .tag .close close :: lexemes))
        (.guarded (Condition.ofText condition) bodyTree :: tree)
  | choice {condition : String} {offset otherwiseOffset close : Nat}
      {body otherwise lexemes : List Lexeme} {bodyTree otherwiseTree tree : List Node} :
      Derives body bodyTree → Derives otherwise otherwiseTree → Derives lexemes tree →
      Derives
        (.tag (.test condition) offset ::
          ((body ++ .tag .otherwise otherwiseOffset :: otherwise) ++ .tag .close close :: lexemes))
        (.choice (Condition.ofText condition) bodyTree otherwiseTree :: tree)

/-! ## Derivable sequences are balanced -/

theorem Gap.balanced_append {front lexemes : List Lexeme} {gap : List Char} :
    Gap front gap → (Block.Balanced (front ++ lexemes) ↔ Block.Balanced lexemes) := by
  intro h
  cases h with
  | none =>
      rfl
  | run =>
      exact Block.Balanced.cons_iff rfl

theorem Derives.balanced {lexemes : List Lexeme} {tree : List Node} :
    Derives lexemes tree → Block.Balanced lexemes := by
  intro h
  induction h with
  | nil =>
      exact .nil
  | literal _ ih =>
      exact (Block.Balanced.cons_iff rfl).2 ih
  | value _ ih =>
      exact (Block.Balanced.cons_iff rfl).2 ih
  | loop _ _ ihBody ih =>
      exact ihBody.block _ rfl ih
  | joined hgap _ _ _ ihSeparator ihBody ih =>
      refine Block.Balanced.block _ rfl ?_ ih
      exact hgap.balanced_append.2 (ihSeparator.block _ rfl ihBody)
  | guarded _ _ ihBody ih =>
      exact ihBody.block _ rfl ih
  | choice _ _ _ ihBody ihOtherwise ih =>
      refine Block.Balanced.block _ rfl ?_ ih
      exact ihBody.append ((Block.Balanced.cons_iff rfl).2 ihOtherwise)

/-! ## The parser follows a derivation -/

/-- No derivable sequence starts with a separator. -/
theorem Derives.separator?_eq_none {lexemes : List Lexeme} {tree : List Node} :
    Derives lexemes tree → separator? lexemes = none := by
  intro h
  cases h with
  | literal h =>
      cases h <;> rfl
  | _ =>
      rfl

/-- A separator is found exactly behind a gap. -/
theorem separator?_eq_some_iff {contents : List Lexeme} {separator : Parser.Separator} :
    separator? contents = some separator ↔
      ∃ front, Gap front separator.gap ∧
        contents = front ++ .tag .separator separator.offset :: separator.behind := by
  constructor
  · intro h
    unfold separator? at h
    split at h
    · cases h
      exact ⟨[], .none, rfl⟩
    · split at h
      · rename_i hblank
        cases h
        exact ⟨_, .run (List.all_eq_true.1 hblank), rfl⟩
      · cases h
    · cases h
  · rintro ⟨front, hgap, rfl⟩
    rcases separator with ⟨gap, offset, behind⟩
    cases hgap with
    | none =>
        rfl
    | run blank =>
        have hall : gap.all Text.isBlank := List.all_eq_true.2 blank
        simp [separator?, hall]

/-- The branches with more nodes at the start of the first. -/
def prepend (tree : List Node) (branches : Branches) : Branches :=
  { branches with body := tree ++ branches.body }

@[simp] theorem prepend_nil (branches : Branches) : prepend [] branches = branches := rfl

theorem map_cons_map_prepend (node : Node) (tree : List Node) (result : Except Flaw Branches) :
    (result.map (prepend tree)).map (Branches.cons node) = result.map (prepend (node :: tree)) := by
  cases result <;> rfl

theorem nodes_eq_ok_of_append {lexemes : List Lexeme} {tree : List Node}
    (follows : ∀ rule rest, nodes rule (lexemes ++ rest) = (nodes rule rest).map (prepend tree))
    (rule : ElseRule) : nodes rule lexemes = .ok ⟨tree, none⟩ := by
  simpa [prepend, Except.map] using follows rule []

/-- The parser reads a derivable sequence as the derived tree and goes on behind it. -/
theorem Derives.nodes_append {lexemes : List Lexeme} {tree : List Node} (rule : ElseRule)
    (rest : List Lexeme) :
    Derives lexemes tree →
      nodes rule (lexemes ++ rest) = (nodes rule rest).map (prepend tree) := by
  intro h
  -- The induction leaves open what follows: nothing follows the contents of a block once it is
  -- split off, while the rest of the text follows the block.
  induction h generalizing rule rest with
  | nil =>
      cases hrest : nodes rule rest <;> simp [hrest, Except.map]
  | literal _ ih =>
      simp [ih, map_cons_map_prepend]
  | value _ ih =>
      simp [ih, map_cons_map_prepend]
  | loop hbody hrest ihBody ih =>
      rename_i key offset close body lexemes bodyTree tree
      have hfound := hbody.balanced.split?_append_close close (lexemes ++ rest)
      have hnodes := nodes_eq_ok_of_append ihBody .refused
      have hloop : Parser.loop key body = .ok (.loop key bodyTree) := by
        simp [Parser.loop_of_no_separator hbody.separator?_eq_none, hnodes, Except.map]
      simp [Parser.nodes_loop hfound, hloop, ih, Except.bind, map_cons_map_prepend]
  | joined hgap hseparator hbody hrest ihSeparator ihBody ih =>
      rename_i key gap offset separatorOffset separatorClose close front separator body lexemes
        separatorTree bodyTree tree
      have hcontents : Block.Balanced (front ++ .tag .separator separatorOffset ::
          (separator ++ .tag .close separatorClose :: body)) :=
        hgap.balanced_append.2 (hseparator.balanced.block _ rfl hbody.balanced)
      have hfound := hcontents.split?_append_close close (lexemes ++ rest)
      have hfirst : separator? (front ++ .tag .separator separatorOffset ::
          (separator ++ .tag .close separatorClose :: body)) =
            some ⟨gap, separatorOffset, separator ++ .tag .close separatorClose :: body⟩ :=
        separator?_eq_some_iff.2 ⟨front, hgap, rfl⟩
      have hinner := hseparator.balanced.split?_append_close separatorClose body
      have hbetween := nodes_eq_ok_of_append ihSeparator .refused
      have hnodes := nodes_eq_ok_of_append ihBody .refused
      have hloop : Parser.loop key (front ++ .tag .separator separatorOffset ::
          (separator ++ .tag .close separatorClose :: body)) =
            .ok (.joined key (String.ofList gap) separatorTree bodyTree) := by
        simp [Parser.loop_of_separator hfirst hinner, hbetween, hnodes, Except.bind, Except.map]
      simp only [List.cons_append, List.append_assoc] at hfound hloop ⊢
      simp [Parser.nodes_loop hfound, hloop, ih, Except.bind, map_cons_map_prepend]
  | guarded hbody hrest ihBody ih =>
      rename_i condition offset close body lexemes bodyTree tree
      have hfound := hbody.balanced.split?_append_close close (lexemes ++ rest)
      have hnodes := nodes_eq_ok_of_append ihBody .allowed
      simp [Parser.nodes_test hfound, hnodes, ih, Except.bind, Parser.Branches.toNode,
        map_cons_map_prepend]
  | choice hbody hotherwise hrest ihBody ihOtherwise ih =>
      rename_i condition offset otherwiseOffset close body otherwise lexemes bodyTree
        otherwiseTree tree
      have hcontents : Block.Balanced (body ++ .tag .otherwise otherwiseOffset :: otherwise) :=
        hbody.balanced.append ((Block.Balanced.cons_iff rfl).2 hotherwise.balanced)
      have hfound := hcontents.split?_append_close close (lexemes ++ rest)
      have htaken := nodes_eq_ok_of_append ihOtherwise .taken
      have hnodes : nodes .allowed (body ++ .tag .otherwise otherwiseOffset :: otherwise) =
          .ok ⟨bodyTree, some otherwiseTree⟩ := by
        simp [ihBody, htaken, prepend, Except.map]
      simp only [List.cons_append, List.append_assoc] at hfound hnodes ⊢
      simp [Parser.nodes_test hfound, hnodes, ih, Except.bind, Parser.Branches.toNode,
        map_cons_map_prepend]

/-! ## Every result of the parser is derived -/

/-- What a successful read of a sequence says about it. -/
inductive Derived : ElseRule → List Lexeme → Branches → Prop where
  | whole {rule : ElseRule} {lexemes : List Lexeme} {tree : List Node} :
      Derives lexemes tree → Derived rule lexemes ⟨tree, none⟩
  | divided {offset : Nat} {before behind : List Lexeme} {tree otherwiseTree : List Node} :
      Derives before tree → Derives behind otherwiseTree →
      Derived .allowed (before ++ .tag .otherwise offset :: behind) ⟨tree, some otherwiseTree⟩

/-- A node that can stand before any derived tree can stand before the first of two branches. -/
theorem Derived.cons {rule : ElseRule} {lexemes front : List Lexeme} {branches : Branches}
    {node : Node}
    (derives : ∀ {rest : List Lexeme} {tree : List Node},
      Derives rest tree → Derives (front ++ rest) (node :: tree)) :
    Derived rule lexemes branches → Derived rule (front ++ lexemes) (branches.cons node) := by
  intro h
  cases h with
  | whole h =>
      exact .whole (derives h)
  | divided h hbehind =>
      rw [← List.append_assoc]
      exact .divided (derives h) hbehind

/-- Where no branch may be divided, the one that is read is derived. -/
theorem Derived.derives {rule : ElseRule} {lexemes : List Lexeme} {branches : Branches}
    (undivided : rule ≠ .allowed) :
    Derived rule lexemes branches → Derives lexemes branches.body ∧ branches.otherwise = none := by
  intro h
  cases h with
  | whole h =>
      exact ⟨h, rfl⟩
  | divided =>
      exact absurd rfl undivided

/-- The contents of a block under a condition can be put between its tags. -/
theorem Derived.test {condition : String} {offset close : Nat} {contents lexemes : List Lexeme}
    {branches : Branches} {tree : List Node} :
    Derived .allowed contents branches → Derives lexemes tree →
      Derives (.tag (.test condition) offset :: (contents ++ .tag .close close :: lexemes))
        (branches.toNode (Condition.ofText condition) :: tree) := by
  intro h hrest
  cases h with
  | whole hbody =>
      exact .guarded hbody hrest
  | divided hbody hotherwise =>
      exact .choice hbody hotherwise hrest

/-- The contents of a loop can be put between its tags. -/
def LoopDerived (key : String) (contents : List Lexeme) (node : Node) : Prop :=
  ∀ {offset close : Nat} {rest : List Lexeme} {tree : List Node}, Derives rest tree →
    Derives (.tag (.loop key) offset :: (contents ++ .tag .close close :: rest)) (node :: tree)

theorem derived_of_nodes :
    ∀ (rule : ElseRule) (lexemes : List Lexeme) (branches : Branches),
      nodes rule lexemes = .ok branches → Derived rule lexemes branches := by
  -- The induction is the parser's, which reads the contents of a loop with a second function.
  refine Parser.nodes.induct
    (fun rule lexemes => ∀ branches, nodes rule lexemes = .ok branches →
      Derived rule lexemes branches)
    (fun key contents => ∀ node, Parser.loop key contents = .ok node →
      LoopDerived key contents node)
    ?nil ?literal ?value ?loopUnclosed ?loop ?testUnclosed ?test ?otherwiseRefused ?otherwiseTaken
    ?otherwiseAllowed ?separator ?close ?plain ?joinedUnclosed ?joined
  case nil =>
    intro rule branches h
    have hnil : branches = ⟨[], none⟩ := by simpa using h.symm
    exact hnil ▸ .whole .nil
  case literal =>
    intro rule run lexemes ih branches h
    rw [Parser.nodes_literal] at h
    rcases Parser.map_eq_ok_iff.1 h with ⟨rest, hrest, rfl⟩
    have hcons : Derived rule ([.literal run] ++ lexemes)
        (rest.cons (.literal (String.ofList run))) :=
      (ih rest hrest).cons Derives.literal
    exact hcons
  case value =>
    intro rule key offset lexemes ih branches h
    rw [Parser.nodes_value] at h
    rcases Parser.map_eq_ok_iff.1 h with ⟨rest, hrest, rfl⟩
    have hcons : Derived rule ([.tag (.value key) offset] ++ lexemes) (rest.cons (.value key)) :=
      (ih rest hrest).cons Derives.value
    exact hcons
  case loopUnclosed =>
    intro rule key offset lexemes hnone branches h
    simp [Parser.nodes_loop_of_unclosed hnone] at h
  case loop =>
    intro rule key offset lexemes block hfound ihLoop ih branches h
    rw [Parser.nodes_loop hfound] at h
    rcases Parser.bind_eq_ok_iff.1 h with ⟨node, hnode, h⟩
    rcases Parser.map_eq_ok_iff.1 h with ⟨rest, hrest, rfl⟩
    have hcons : Derived rule
        ((.tag (.loop key) offset :: (block.contents ++ [.tag .close block.close])) ++ block.rest)
        (rest.cons node) := by
      refine (ih rest hrest).cons ?_
      intro rest tree hderives
      simpa using ihLoop node hnode hderives
    simpa [Block.eq_of_split? hfound] using hcons
  case testUnclosed =>
    intro rule condition offset lexemes hnone branches h
    simp [Parser.nodes_test_of_unclosed hnone] at h
  case test =>
    intro rule condition offset lexemes block hfound ihContents ih branches h
    rw [Parser.nodes_test hfound] at h
    rcases Parser.bind_eq_ok_iff.1 h with ⟨inner, hinner, h⟩
    rcases Parser.map_eq_ok_iff.1 h with ⟨rest, hrest, rfl⟩
    have hcons : Derived rule
        ((.tag (.test condition) offset :: (block.contents ++ [.tag .close block.close])) ++
          block.rest)
        (rest.cons (inner.toNode (Condition.ofText condition))) := by
      refine (ih rest hrest).cons ?_
      intro rest tree hderives
      simpa using (ihContents inner hinner).test hderives
    simpa [Block.eq_of_split? hfound] using hcons
  case otherwiseRefused =>
    intro offset lexemes branches h
    simp at h
  case otherwiseTaken =>
    intro offset lexemes branches h
    simp at h
  case otherwiseAllowed =>
    intro offset lexemes ih branches h
    rw [Parser.nodes_otherwise_allowed] at h
    rcases Parser.map_eq_ok_iff.1 h with ⟨rest, hrest, rfl⟩
    have hbehind := (ih rest hrest).derives (by simp)
    exact Derived.divided .nil hbehind.1
  case separator =>
    intro rule offset lexemes branches h
    simp at h
  case close =>
    intro rule offset lexemes branches h
    simp at h
  case plain =>
    intro key contents hfirst ih node h
    rw [Parser.loop_of_no_separator hfirst] at h
    rcases Parser.map_eq_ok_iff.1 h with ⟨body, hbody, rfl⟩
    intro offset close rest tree hderives
    exact .loop ((ih body hbody).derives (by simp)).1 hderives
  case joinedUnclosed =>
    intro key contents separator hfirst hnone node h
    simp [Parser.loop_of_unclosed_separator hfirst hnone] at h
  case joined =>
    intro key contents separator hfirst block hfound ihBetween ihBody node h
    rw [Parser.loop_of_separator hfirst hfound] at h
    rcases Parser.bind_eq_ok_iff.1 h with ⟨between, hbetween, h⟩
    rcases Parser.map_eq_ok_iff.1 h with ⟨body, hbody, rfl⟩
    rcases separator?_eq_some_iff.1 hfirst with ⟨front, hgap, rfl⟩
    intro offset close rest tree hderives
    have hseparatorTree := ((ihBetween between hbetween).derives (by simp)).1
    have hbodyTree := ((ihBody body hbody).derives (by simp)).1
    rw [Block.eq_of_split? hfound]
    exact .joined hgap hseparatorTree hbodyTree hderives

/-- The parser accepts a sequence as a whole exactly when it is derived. -/
theorem nodes_eq_ok_iff {lexemes : List Lexeme} {tree : List Node} :
    nodes .refused lexemes = .ok ⟨tree, none⟩ ↔ Derives lexemes tree := by
  constructor
  · intro h
    exact ((derived_of_nodes .refused lexemes _ h).derives (by simp)).1
  · intro h
    exact nodes_eq_ok_of_append (fun rule rest => h.nodes_append rule rest) .refused

theorem Derives.unique {lexemes : List Lexeme} {left right : List Node} :
    Derives lexemes left → Derives lexemes right → left = right := by
  intro hleft hright
  have heq := (nodes_eq_ok_iff.2 hleft).symm.trans (nodes_eq_ok_iff.2 hright)
  simpa using heq

end Grammar

/-! ## Literals in a tree -/

namespace Node

def IsLiteral : Node → Prop
  | literal _ => True
  | value _ | loop _ _ | joined _ _ _ _ | guarded _ _ | choice _ _ _ => False

mutual

/-- No literal inside a node is empty, and no two stand side by side. -/
def Tidy : Node → Prop
  | literal text => text ≠ ""
  | value _ => True
  | loop _ body => AllTidy body
  | joined _ _ separator body => AllTidy separator ∧ AllTidy body
  | guarded _ body => AllTidy body
  | choice _ body otherwise => AllTidy body ∧ AllTidy otherwise

/-- No literal among nodes or inside them is empty, and no two stand side by side. -/
def AllTidy : List Node → Prop
  | [] => True
  | node :: nodes =>
      Tidy node ∧ AllTidy nodes ∧ (IsLiteral node → ∀ next ∈ nodes.head?, ¬ IsLiteral next)

end

end Node

namespace Grammar

open Lexeme (Clean)

/-- Behind a run stands no other run, so no other literal stands behind its node. -/
theorem Derives.not_isLiteral_head {run : List Char} {lexemes : List Lexeme} {tree : List Node} :
    Clean (.literal run :: lexemes) → Derives lexemes tree →
      ∀ next ∈ tree.head?, ¬ next.IsLiteral := by
  intro hclean h next hnext
  cases h with
  | nil =>
      simp at hnext
  | literal h =>
      have := hclean.apart
      simp [Lexeme.Apart] at this
  | _ =>
      have heq := Option.some.inj hnext
      simp [← heq, Node.IsLiteral]

theorem Derives.allTidy {lexemes : List Lexeme} {tree : List Node} :
    Derives lexemes tree → Clean lexemes → Node.AllTidy tree := by
  intro h
  induction h with
  | nil =>
      intro _
      simp [Node.AllTidy]
  | literal hrest ih =>
      rename_i run lexemes tree
      intro hclean
      have hrun : run ≠ [] := hclean.run_ne_nil run (by simp)
      have htail := ih hclean.tail
      exact ⟨by simpa [Node.Tidy] using hrun, htail, fun _ => hrest.not_isLiteral_head hclean⟩
  | value hrest ih =>
      intro hclean
      exact ⟨trivial, ih hclean.tail, False.elim⟩
  | loop hbody hrest ihBody ih =>
      intro hclean
      rcases hclean.tail.sides with ⟨hinside, hbehind⟩
      exact ⟨ihBody hinside, ih hbehind, False.elim⟩
  | joined hgap hseparator hbody hrest ihSeparator ihBody ih =>
      intro hclean
      rcases hclean.tail.sides with ⟨hinside, hbehind⟩
      rcases hinside.sides with ⟨_, hafterGap⟩
      rcases hafterGap.sides with ⟨hbetween, hcontents⟩
      exact ⟨⟨ihSeparator hbetween, ihBody hcontents⟩, ih hbehind, False.elim⟩
  | guarded hbody hrest ihBody ih =>
      intro hclean
      rcases hclean.tail.sides with ⟨hinside, hbehind⟩
      exact ⟨ihBody hinside, ih hbehind, False.elim⟩
  | choice hbody hotherwise hrest ihBody ihOtherwise ih =>
      intro hclean
      rcases hclean.tail.sides with ⟨hinside, hbehind⟩
      rcases hinside.sides with ⟨hfirst, hsecond⟩
      exact ⟨⟨ihBody hfirst, ihOtherwise hsecond⟩, ih hbehind, False.elim⟩

end Grammar

/-! ## Templates -/

namespace Template

open Grammar (Derives)

/-- A tree is derived from the lexemes that a text is read as. -/
def Derivation (text : String) (tree : List Node) : Prop :=
  ∃ lexemes, Lexeme.Reads 0 text.toList lexemes ∧ Derives lexemes tree

theorem derivation_iff {text : String} {tree : List Node} :
    Derivation text tree ↔ Derives (Lexeme.ofText 0 text.toList) tree := by
  constructor
  · rintro ⟨lexemes, hreads, hderives⟩
    exact Lexeme.reads_iff.1 hreads ▸ hderives
  · intro h
    exact ⟨_, Lexeme.reads_ofText 0 text.toList, h⟩

theorem parseNodes_eq_ok_iff {text : List Char} {tree : List Node} :
    parseNodes text = .ok tree ↔ Derives (Lexeme.ofText 0 text) tree := by
  unfold parseNodes
  rw [Parser.map_eq_ok_iff, ← Grammar.nodes_eq_ok_iff]
  constructor
  · rintro ⟨branches, hnodes, rfl⟩
    have hwhole := (Grammar.derived_of_nodes _ _ _ hnodes).derives (by simp)
    rw [hnodes, ← hwhole.2]
  · intro h
    exact ⟨_, h, rfl⟩

theorem parse_eq_ok_iff {text : String} {template : Template} :
    parse text = .ok template ↔ template.content = text ∧ Derivation text template.nodes := by
  rw [derivation_iff, ← parseNodes_eq_ok_iff]
  rcases template with ⟨content, tree⟩
  unfold parse
  cases parseNodes text.toList with
  | ok nodes =>
      simp [eq_comm]
  | error flaw =>
      simp

theorem parse_of_nodes {text : String} {branches : Parser.Branches} :
    Parser.nodes .refused (Lexeme.ofText 0 text.toList) = .ok branches →
      parse text = .ok ⟨text, branches.body⟩ := by
  intro h
  simp [parse, parseNodes, h, Except.map]

theorem parse_eq_error_iff {text : String} {error : ParseError} :
    parse text = .error error ↔
      ∃ flaw, Parser.nodes .refused (Lexeme.ofText 0 text.toList) = .error flaw ∧
        error = ParseError.atOffset text.toList flaw.offset flaw.cause := by
  unfold parse parseNodes
  cases Parser.nodes .refused (Lexeme.ofText 0 text.toList) with
  | ok branches =>
      simp [Except.map]
  | error flaw =>
      simp [Except.map, eq_comm]

/-- Exactly the texts of the grammar are templates.  The tree of a template is its one derivation,
and its literals are as long as they can be. -/
theorem parse_derivation (text : String) :
    ((∃ template, parse text = .ok template) ↔ ∃ tree, Derivation text tree) ∧
      ∀ template, parse text = .ok template →
        template.content = text ∧ Derivation text template.nodes ∧
          (∀ tree, Derivation text tree → tree = template.nodes) ∧
          Node.AllTidy template.nodes := by
  refine ⟨⟨?_, ?_⟩, ?_⟩
  · rintro ⟨template, hparse⟩
    exact ⟨template.nodes, (parse_eq_ok_iff.1 hparse).2⟩
  · rintro ⟨tree, hderivation⟩
    exact ⟨⟨text, tree⟩, parse_eq_ok_iff.2 ⟨rfl, hderivation⟩⟩
  · intro template hparse
    rcases parse_eq_ok_iff.1 hparse with ⟨hcontent, hderivation⟩
    have hderives := derivation_iff.1 hderivation
    refine ⟨hcontent, hderivation, ?_, hderives.allTidy (Lexeme.clean_ofText 0 text.toList)⟩
    intro tree hother
    exact (derivation_iff.1 hother).unique hderives

theorem parse_derivation_joined :
    let text := "\x7b" ++ (Tag.loop "a").toText ++ " " ++ Tag.separator.toText ++ "," ++
      Tag.close.toText ++ (Tag.value "b").toText ++ Tag.close.toText
    let tree : List Node := [.literal "\x7b", .joined "a" " " [.literal ","] [.value "b"]]
    parse text = .ok ⟨text, tree⟩ ∧ Node.AllTidy tree ∧
      ∀ other, Derivation text other → other = tree := by
  intro text tree
  have hparse : parse text = .ok ⟨text, tree⟩ := by
    subst text tree
    with_unfolding_all rfl
  rcases (parse_derivation text).2 _ hparse with ⟨_, _, hunique, htidy⟩
  exact ⟨hparse, htidy, hunique⟩

end Template
end Stencil
