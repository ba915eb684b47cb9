import Stencil.Localization.Expansion

/-!
# Localizers — where the texts of keys come from

* `localizeWithin` — a text with every reference expanded, from any source of texts whose texts nest no
  deeper than a limit inside that text;
* `Localizer` — a source of texts that tells such a limit for every text;
* `localize` — a text with every reference expanded.
-/

namespace Stencil

/-- The text with every reference replaced, if no more than `limit` texts of keys stand inside one
another in it. -/
def localizeWithin (textOf : String → String) (limit : Nat) (text : String)
    (enough : (Reference.expand? textOf limit [] text.toList).isSome) : String :=
  String.ofList ((Reference.expand? textOf limit [] text.toList).get enough)

/-- A source of texts for keys that expands every text.  One that expands only some of them can be
asked for those with `localizeWithin`. -/
class Localizer (L : Type) where
  /-- The text for a key; there always is one. -/
  textOf : L → String → String
  /-- How many texts of keys can stand inside one another when a text is expanded. -/
  nesting : L → String → Nat
  /-- Expansion gets by with that depth. -/
  enough : ∀ localizer text,
    (Reference.expand? (textOf localizer) (nesting localizer text) [] text.toList).isSome

/-- The text with every reference replaced. -/
def localize {L : Type} [Localizer L] (localizer : L) (text : String) : String :=
  localizeWithin (Localizer.textOf localizer) (Localizer.nesting localizer text) text
    (Localizer.enough localizer text)

end Stencil
