import Stencil.Condition.Basic
import Stencil.Tag.Basic

/-!
# Nodes — the tree of a template

A template is a sequence of literal runs, values, loops and conditional parts; the last two hold
sequences of their own.

* `Node` — the tree;
* `Node.source`, `Node.sources` — the text that a node, or a sequence of nodes, was read from.
-/

namespace Stencil

/-- A part of a template. -/
inductive Node where
  /-- Text that stands for itself. -/
  | literal (text : String)
  /-- The text of the value under a key. -/
  | value (key : String)
  /-- A body repeated for the items under a key. -/
  | loop (key : String) (body : List Node)
  /-- A loop whose repetitions are joined by a separator; the gap is the blank text before the
  separator's tag. -/
  | joined (key : String) (gap : String) (separator body : List Node)
  /-- A body shown when a condition is true. -/
  | guarded (condition : Condition) (body : List Node)
  /-- Two bodies, of which the first is shown when a condition is true, else the second. -/
  | choice (condition : Condition) (body otherwise : List Node)

namespace Node

mutual

/-- The text a node was read from. -/
def source : Node → String
  | literal text => text
  | value key => (Tag.value key).toText
  | loop key body => (Tag.loop key).toText ++ sources body ++ Tag.close.toText
  | joined key gap separator body =>
      (Tag.loop key).toText ++ gap ++ Tag.separator.toText ++ sources separator ++
        Tag.close.toText ++ sources body ++ Tag.close.toText
  | guarded condition body =>
      (Tag.test condition.toText).toText ++ sources body ++ Tag.close.toText
  | choice condition body otherwise =>
      (Tag.test condition.toText).toText ++ sources body ++ Tag.otherwise.toText ++
        sources otherwise ++ Tag.close.toText

/-- The text a sequence of nodes was read from. -/
def sources : List Node → String
  | [] => ""
  | node :: nodes => source node ++ sources nodes

end

theorem sources_append (left right : List Node) :
    sources (left ++ right) = sources left ++ sources right := by
  induction left with
  | nil => simp [sources]
  | cons node left ih => simp [sources, ih, String.append_assoc]

end Node
end Stencil
