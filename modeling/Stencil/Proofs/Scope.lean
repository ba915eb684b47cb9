import Stencil.Dict.Lemmas
import Stencil.Template.Basic

/-!
# Scope — which keys of its context a template reads

A template reads its context in three ways: it shows the text of a value, goes through the items of
one, or tests one under a condition.  The keys inside a loop are those of the items, and a separator
is not rendered at all, so neither reads anything of the context.

* `Use`, `Node.uses`, `Template.uses` — the keys that are read, and how;
* `Agree` — two contexts hold the same under the keys that are read;
* `Template.render_eq_of_agree` — a template is rendered alike in both.
-/

namespace Stencil

/-- How a template reads a key of its context. -/
inductive Use where
  /-- The text of the value is inserted. -/
  | shown
  /-- The items of the value are gone through. -/
  | looped
  /-- The value is tested, or compared, by a condition. -/
  | tested
  deriving DecidableEq, Repr

/-- The keys that a condition reads; each side of a comparison may be one. -/
def Condition.keys : Condition → List String
  | truthy key => [key]
  | compare left _ right => [left, right]

namespace Node

mutual

/-- The keys of the context that a node reads. -/
def uses : Node → List (Use × String)
  | literal _ => []
  | value key => [(.shown, key)]
  -- The keys inside a loop are those of its items.
  | loop key _ | joined key _ _ _ => [(.looped, key)]
  | guarded condition body => condition.keys.map (.tested, ·) ++ allUses body
  | choice condition body otherwise =>
      condition.keys.map (.tested, ·) ++ (allUses body ++ allUses otherwise)

/-- The keys of the context that a sequence of nodes reads. -/
def allUses : List Node → List (Use × String)
  | [] => []
  | node :: nodes => uses node ++ allUses nodes

end

end Node

namespace Condition

theorem ofSide_congr {left right : Context} {side : String} :
    left.get? side = right.get? side → Operand.ofSide left side = Operand.ofSide right side := by
  intro h
  simp [Operand.ofSide, h]

/-- A condition depends on the keys it reads and on no other. -/
theorem holds_congr {condition : Condition} {left right : Context} :
    (∀ key ∈ condition.keys, left.get? key = right.get? key) →
      condition.holds left = condition.holds right := by
  intro h
  cases condition with
  | truthy key =>
      have hkey : left.get? key = right.get? key := h key (by simp [keys])
      simp [holds, hkey]
  | compare first comparison second =>
      have hfirst := ofSide_congr (h first (by simp [keys]))
      have hsecond := ofSide_congr (h second (by simp [keys]))
      simp [holds, hfirst, hsecond]

end Condition

/-- Two contexts hold the same under all keys that are read. -/
def Agree (uses : List (Use × String)) (left right : Context) : Prop :=
  ∀ use key, (use, key) ∈ uses → left.get? key = right.get? key

theorem agree_append {first second : List (Use × String)} {left right : Context} :
    Agree (first ++ second) left right ↔ Agree first left right ∧ Agree second left right := by
  simp [Agree, or_imp, forall_and]

theorem holds_eq_of_agree {condition : Condition} {left right : Context} :
    Agree (condition.keys.map (.tested, ·)) left right →
      condition.holds left = condition.holds right := by
  intro h
  apply Condition.holds_congr
  intro key hmem
  exact h .tested key (List.mem_map_of_mem hmem)

namespace Node

/-- Nodes are rendered alike in contexts that agree on the keys they read. -/
theorem render_congr {left right : Context} :
    (∀ node, Agree (uses node) left right → render left node = render right node) ∧
      ∀ nodes, Agree (allUses nodes) left right →
        renderAll (some left) nodes = renderAll (some right) nodes := by
  -- Loops are rendered alike because their items are the same, whatever the body reads of them.
  refine uses.mutual_induct
    (fun node => Agree (uses node) left right → render left node = render right node)
    (fun nodes => Agree (allUses nodes) left right →
      renderAll (some left) nodes = renderAll (some right) nodes)
    ?literal ?value ?loop ?joined ?guarded ?choice ?nil ?cons
  case literal =>
    intro text _
    simp [render]
  case value =>
    intro key h
    have hkey : left.get? key = right.get? key := h .shown key (by simp [uses])
    simp [render, hkey]
  case loop =>
    intro key body h
    have hkey : left.get? key = right.get? key := h .looped key (by simp [uses])
    simp [render, hkey]
  case joined =>
    intro key gap separator body h
    have hkey : left.get? key = right.get? key := h .looped key (by simp [uses])
    simp [render, hkey]
  case guarded =>
    intro condition body ih h
    rcases agree_append.1 h with ⟨htested, hbody⟩
    simp [render, holds_eq_of_agree htested, ih hbody]
  case choice =>
    intro condition body otherwise ihBody ihOtherwise h
    rcases agree_append.1 h with ⟨htested, hbranches⟩
    rcases agree_append.1 hbranches with ⟨hbody, hotherwise⟩
    simp [render, holds_eq_of_agree htested, ihBody hbody, ihOtherwise hotherwise]
  case nil =>
    intro _
    simp
  case cons =>
    intro node nodes ihNode ih h
    rcases agree_append.1 h with ⟨hnode, hnodes⟩
    simp [ihNode hnode, ih hnodes]

end Node

namespace Template

/-- The keys of its context that a template reads. -/
def uses (template : Template) : List (Use × String) := Node.allUses template.nodes

/-- Two contexts that hold the same under every key that a template reads outside its loops are the
same to it, whatever they hold under other keys. -/
theorem render_eq_of_agree (template : Template) {left right : Context}
    (agree : Agree template.uses left right) :
    template.render (some left) = template.render (some right) :=
  Node.render_congr.2 template.nodes agree

theorem render_eq_of_agree_loop :
    let text := (Tag.value "a").toText ++ (Tag.loop "l").toText ++ (Tag.value "x").toText ++
      Tag.close.toText ++ (Tag.test "b>c").toText ++ (Tag.value "a").toText ++ Tag.close.toText
    let shared : List (String × Value) :=
      [("a", .text "A"), ("b", .bool true), ("l", .list [.bool true, .null])]
    let left := (Dict.ofList shared).insert "x" (.text "outer")
    let right := (Dict.ofList shared).insert "z" .null
    ∃ template, parse text = .ok template ∧ Agree template.uses left right ∧
      left.get? "x" ≠ right.get? "x" ∧
      template.render (some left) = template.render (some right) := by
  intro text shared left right
  have hparse : parse text = .ok ⟨text, [.value "a", .loop "l" [.value "x"],
      .guarded (.compare "b" .greater "c") [.value "a"]]⟩ := by
    subst text
    with_unfolding_all rfl
  have hagree : Agree [(.shown, "a"), (.looped, "l"), (.tested, "b"), (.tested, "c"),
      (.shown, "a")] left right := by
    intro use key hmem
    simp only [List.mem_cons, List.not_mem_nil, or_false, Prod.mk.injEq] at hmem
    rcases hmem with ⟨_, rfl⟩ | ⟨_, rfl⟩ | ⟨_, rfl⟩ | ⟨_, rfl⟩ | ⟨_, rfl⟩ <;>
      simp [left, right, Dict.get?_insert]
  have hdiffer : left.get? "x" ≠ right.get? "x" := by
    have hmissing : (Dict.ofList shared).get? "x" = none := rfl
    simp [left, right, Dict.get?_insert, hmissing]
  exact ⟨_, hparse, hagree, hdiffer, render_eq_of_agree _ hagree⟩

end Template
end Stencil
