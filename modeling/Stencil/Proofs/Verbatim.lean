import Stencil.Engine.Basic
import Stencil.Proofs.Grammar

/-!
# Verbatim — a template without data comes back as it was written

The tree of a template keeps every character of the text it was parsed from: literals, keys and
conditions, the gap before a separator, and whether a condition has a second branch.  Rendering
without a context writes the tree back and so loses nothing.

* `Grammar.Derives.toList_sources` — a derived tree is written as the lexemes it is derived from;
* `Template.render_none` — a template is rendered without a context as its own text;
* `render_without_data` — and an engine without data gives back the localized text.
-/

namespace Stencil

namespace Grammar

theorem Gap.concat_eq {front : List Lexeme} {gap : List Char} :
    Gap front gap → Lexeme.concat front = gap := by
  intro h
  cases h <;> simp [Lexeme.written]

/-- A tree is written as the lexemes it is derived from. -/
theorem Derives.toList_sources {lexemes : List Lexeme} {tree : List Node} :
    Derives lexemes tree → (Node.sources tree).toList = Lexeme.concat lexemes := by
  intro h
  induction h with
  | nil =>
      simp [Node.sources]
  | literal _ ih =>
      simp [Node.sources, Node.source, Lexeme.written, ih]
  | value _ ih =>
      simp [Node.sources, Node.source, Lexeme.written, ih]
  | loop _ _ ihBody ih =>
      simp [Node.sources, Node.source, Lexeme.written, ihBody, ih]
  | joined hgap _ _ _ ihSeparator ihBody ih =>
      simp [Node.sources, Node.source, Lexeme.written, hgap.concat_eq, ihSeparator, ihBody, ih]
  | guarded _ _ ihBody ih =>
      simp [Node.sources, Node.source, Lexeme.written, Condition.toText_ofText, ihBody, ih]
  | choice _ _ _ ihBody ihOtherwise ih =>
      simp [Node.sources, Node.source, Lexeme.written, Condition.toText_ofText, ihBody,
        ihOtherwise, ih]

end Grammar

namespace Template

theorem sources_nodes {text : String} {template : Template} :
    parse text = .ok template → Node.sources template.nodes = text := by
  intro h
  have hderives := derivation_iff.1 (parse_eq_ok_iff.1 h).2
  apply String.toList_injective
  rw [hderives.toList_sources, Lexeme.concat_ofText]

theorem render_none {text : String} {template : Template} :
    parse text = .ok template → template.render none = text := by
  intro h
  simpa [render] using sources_nodes h

end Template

namespace Engine

variable {L : Type} {M : Type → Type} [OrderedMap M] [Localizer L]

theorem resolve_eq_ok_iff {engine : Engine L M} {text html : String} {data : Option Context} :
    engine.resolve text data = .ok html ↔
      ∃ template, Template.parse (localize engine.localizer text) = .ok template ∧
        template.render data = html := by
  unfold resolve renderText
  cases Template.parse (localize engine.localizer text) with
  | ok template =>
      simp [Except.map, Except.mapError]
  | error error =>
      simp [Except.map, Except.mapError]

end Engine

/-- Without data, a template is rendered as the text it was parsed from, and an engine gives back
the localized form of the text it resolves. -/
theorem render_without_data :
    (∀ text template, Template.parse text = .ok template → template.render none = text) ∧
      ∀ (L : Type) [Localizer L] (M : Type → Type) [OrderedMap M] (engine : Engine L M)
        (text html : String),
        engine.resolve text none = .ok html → html = localize engine.localizer text := by
  constructor
  · intro text template h
    exact Template.render_none h
  · intro L _ M _ engine text html h
    rcases Engine.resolve_eq_ok_iff.1 h with ⟨template, hparse, rfl⟩
    exact Template.render_none hparse

theorem render_without_data_localized :
    let text := (Tag.loop "a").toText ++ "\n" ++ Tag.separator.toText ++ Tag.close.toText ++
      (Tag.test "n>=2").toText ++ Tag.otherwise.toText ++ Tag.close.toText ++ Tag.close.toText
    let engine : Engine Catalog := { localizer := (∅ : Catalog).insert "en" "hi" "Hello" }
    let greeting := String.ofList (Reference.written ⟨"hi"⟩) ++ (Tag.value "x").toText
    (∃ template, Template.parse text = .ok template ∧ template.render none = text) ∧
      ∃ html, engine.resolve greeting none = .ok html ∧
        html = localize engine.localizer greeting := by
  intro text engine greeting
  have hparse : ∃ template, Template.parse text = .ok template := by
    subst text
    exact ⟨⟨_, _⟩, by with_unfolding_all rfl⟩
  have hresolve : ∃ html, engine.resolve greeting none = .ok html := by
    subst engine greeting
    exact ⟨_, by with_unfolding_all rfl⟩
  rcases hparse with ⟨template, hparse⟩
  rcases hresolve with ⟨html, hresolve⟩
  exact ⟨⟨template, hparse, render_without_data.1 text template hparse⟩,
    html, hresolve, render_without_data.2 Catalog KeyedList engine greeting html hresolve⟩

end Stencil
