import Stencil.Template.Node

/-!
# Rendering — the text of a template in a context

Keys are looked up in the innermost context only: the body of a loop sees the entries of the item it
is repeated for and nothing else.  Nodes without a context come back as they were written, and so do
values whose key is missing.
-/

namespace Stencil
namespace Node

mutual

/-- The text of a node in a context. -/
def render (context : Context) : Node → String
  | literal text => text
  | value key => ((context.get? key).map Value.toText).getD (Tag.value key).toText
  | loop key body =>
      match (context.get? key).bind Value.items? with
      | none => ""
      | some items => String.join (items.map fun item => renderAll item.scope body)
  | joined key _ separator body =>
      match (context.get? key).bind Value.items? with
      | none => ""
      | some items =>
          -- The separator is not rendered: it stands between the bodies as it was written.
          String.intercalate (sources separator) (items.map fun item => renderAll item.scope body)
  | guarded condition body =>
      if condition.holds context then renderAll (some context) body else ""
  | choice condition body otherwise =>
      if condition.holds context then renderAll (some context) body
      else renderAll (some context) otherwise

/-- The text of a sequence of nodes; without a context it is the text they were read from. -/
def renderAll : Option Context → List Node → String
  | none, nodes => sources nodes
  | some _, [] => ""
  | some context, node :: nodes => render context node ++ renderAll (some context) nodes

end

@[simp] theorem renderAll_none (nodes : List Node) : renderAll none nodes = sources nodes := by
  simp [renderAll]

@[simp] theorem renderAll_nil (context : Context) : renderAll (some context) [] = "" := by
  simp [renderAll]

@[simp] theorem renderAll_cons (context : Context) (node : Node) (nodes : List Node) :
    renderAll (some context) (node :: nodes) =
      render context node ++ renderAll (some context) nodes := by
  simp [renderAll]

theorem renderAll_append (context : Option Context) (left right : List Node) :
    renderAll context (left ++ right) = renderAll context left ++ renderAll context right := by
  cases context with
  | none => simp [sources_append]
  | some context =>
      induction left with
      | nil => simp
      | cons node left ih => simp [ih, String.append_assoc]

end Node
end Stencil
