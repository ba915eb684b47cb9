import Stencil.Proofs.Scope
import Stencil.Proofs.Verbatim

/-!
# Insertion — the text of a value is copied and not read again

A template shows a value by copying its text.  What is rendered around the copies depends on the
template and on the other keys of the context, and nothing that is written in the text changes it:
tags and references in it are characters like all others.

* `Node.Shows` — contexts that are alike but for what the tag of one key gives way to;
* `Node.Copies` — a text that is the same in all of them but for copies of that;
* `Node.copies_renderAll` — nodes are rendered as such a text if they only show the key;
* `Engine.resolve_copies_text` — so an engine copies the text of a value and does not read it.
-/

namespace Stencil

namespace Node

/-- A context that is like another but for one key, whose tag gives way to a text. -/
structure Shows (base : Context) (key shown : String) (context : Context) : Prop where
  here : render context (.value key) = shown
  elsewhere : ∀ other, other ≠ key → context.get? other = base.get? other

/-- A text that is the same in all contexts that are alike but for one key, up to copies of what
they show for the key. -/
def Copies (base : Context) (key : String) (text : Context → String) : Prop :=
  ∃ pieces : List String, pieces ≠ [] ∧
    ∀ shown context, Shows base key shown context → text context = String.intercalate shown pieces

section Copies

variable {base : Context} {key : String}

/-! ## Texts with copies -/

theorem Copies.congr {left right : Context → String} :
    (∀ shown context, Shows base key shown context → left context = right context) →
      Copies base key right → Copies base key left := by
  rintro hsame ⟨pieces, hpieces, hright⟩
  refine ⟨pieces, hpieces, ?_⟩
  intro shown context hshows
  exact (hsame shown context hshows).trans (hright shown context hshows)

theorem copies_const (fixed : String) : Copies base key fun _ => fixed :=
  ⟨[fixed], by simp, by simp⟩

theorem copies_shown : Copies base key fun context => render context (.value key) := by
  refine ⟨["", ""], by simp, ?_⟩
  intro shown context hshows
  simpa using hshows.here

theorem intercalate_append (shown : String) (front back : List String) (last first : String) :
    String.intercalate shown (front ++ [last]) ++ String.intercalate shown (first :: back) =
      String.intercalate shown (front ++ (last ++ first) :: back) := by
  by_cases hfront : front = []
  · simp [hfront]
  · simp [String.intercalate_append_of_ne_nil hfront, String.append_assoc]

theorem Copies.append {left right : Context → String} :
    Copies base key left → Copies base key right →
      Copies base key fun context => left context ++ right context := by
  rintro ⟨pieces, hpieces, hleft⟩ ⟨more, hmore, hright⟩
  -- The last piece of one text and the first of the other become one.
  rcases List.eq_nil_or_concat' pieces with rfl | ⟨front, last, rfl⟩
  · exact absurd rfl hpieces
  · cases more with
    | nil =>
        exact absurd rfl hmore
    | cons first back =>
        refine ⟨front ++ (last ++ first) :: back, by simp, ?_⟩
        intro shown context hshows
        calc
          left context ++ right context
              = String.intercalate shown (front ++ [last]) ++
                  String.intercalate shown (first :: back) := by
                rw [hleft shown context hshows, hright shown context hshows]
          _ = String.intercalate shown (front ++ (last ++ first) :: back) :=
              intercalate_append shown front back last first

theorem Shows.agree {shown : String} {context : Context} {reads : List (Use × String)}
    (unread : ∀ use, (use, key) ∉ reads) :
    Shows base key shown context → Agree reads context base := by
  intro h use other hmem
  apply h.elsewhere
  rintro rfl
  exact unread use hmem

/-- A condition that does not test the key chooses the same branch in all these contexts. -/
theorem Copies.branch {condition : Condition} {left right : Context → String}
    (untested : (.tested, key) ∉ condition.keys.map (Use.tested, ·)) :
    Copies base key left → Copies base key right →
      Copies base key fun context =>
        if condition.holds context then left context else right context := by
  intro hleft hright
  have hholds : ∀ shown context, Shows base key shown context →
      condition.holds context = condition.holds base := by
    intro shown context hshows
    apply holds_eq_of_agree
    apply hshows.agree
    simpa using untested
  cases hbase : condition.holds base with
  | true =>
      refine hleft.congr ?_
      intro shown context hshows
      simp [hholds shown context hshows, hbase]
  | false =>
      refine hright.congr ?_
      intro shown context hshows
      simp [hholds shown context hshows, hbase]

/-! ## Rendered nodes -/

theorem copies_of_unread {node : Node} (unread : ∀ use, (use, key) ∉ uses node) :
    Copies base key fun context => render context node := by
  refine (copies_const (render base node)).congr ?_
  intro shown context hshows
  exact render_congr.1 node (hshows.agree unread)

/-- Nodes are rendered with copies of what is shown for a key, if they neither go through its items
nor test it. -/
theorem copies_renderAll :
    ∀ nodes, (.looped, key) ∉ allUses nodes → (.tested, key) ∉ allUses nodes →
      Copies base key fun context => renderAll (some context) nodes := by
  -- The induction goes into branches and not into loops, like the definition of `uses`.
  refine allUses.induct
    (fun node => (.looped, key) ∉ uses node → (.tested, key) ∉ uses node →
      Copies base key fun context => render context node)
    (fun nodes => (.looped, key) ∉ allUses nodes → (.tested, key) ∉ allUses nodes →
      Copies base key fun context => renderAll (some context) nodes)
    ?literal ?value ?loop ?joined ?guarded ?choice ?nil ?cons
  case literal =>
    intro text _ _
    exact copies_of_unread (by simp [uses])
  case value =>
    intro name _ _
    by_cases hname : name = key
    · rw [hname]
      exact copies_shown
    · exact copies_of_unread (by simp [uses, Ne.symm hname])
  case loop =>
    intro name body hlooped _
    exact copies_of_unread (by simpa [uses] using hlooped)
  case joined =>
    intro name gap separator body hlooped _
    exact copies_of_unread (by simpa [uses] using hlooped)
  case guarded =>
    intro condition body ih hlooped htested
    simp only [uses, List.mem_append, not_or] at hlooped htested
    have hbody := ih hlooped.2 htested.2
    simpa only [render] using hbody.branch htested.1 (copies_const "")
  case choice =>
    intro condition body otherwise ihBody ihOtherwise hlooped htested
    simp only [uses, List.mem_append, not_or] at hlooped htested
    have hbody := ihBody hlooped.2.1 htested.2.1
    have hotherwise := ihOtherwise hlooped.2.2 htested.2.2
    simpa only [render] using hbody.branch htested.1 hotherwise
  case nil =>
    intro _ _
    simpa using copies_const ""
  case cons =>
    intro node nodes ihNode ih hlooped htested
    simp only [allUses, List.mem_append, not_or] at hlooped htested
    simpa using (ihNode hlooped.1 htested.1).append (ih hlooped.2 htested.2)

end Copies

theorem shows_insert {base context : Context} {key : String} (value : String)
    (alike : ∀ other, other ≠ key → context.get? other = base.get? other) :
    Shows base key value (context.insert key (.text value)) := by
  constructor
  · simp [render, Dict.get?_insert, Value.toText]
  · intro other hother
    simpa [Dict.get?_insert, hother] using alike other hother

theorem shows_erase {base context : Context} {key : String}
    (alike : ∀ other, other ≠ key → context.get? other = base.get? other) :
    Shows base key (Tag.value key).toText (context.erase key) := by
  constructor
  · simp [render, Dict.get?_erase]
  · intro other hother
    simpa [Dict.get?_erase, hother] using alike other hother

end Node

namespace Engine

variable {L : Type} {M : Type → Type} [OrderedMap M] [Localizer L]

/-- If a template only shows a key outside its loops, the text under the key is copied between fixed
pieces.  These do not depend on what is under the key, and without a value its tags stand between
them. -/
theorem resolve_copies_text {localizer : L} {text key : String} {template : Template}
    {context : Context} (parsed : Template.parse (localize localizer text) = .ok template)
    (unlooped : (.looped, key) ∉ template.uses) (untested : (.tested, key) ∉ template.uses) :
    ∃ pieces : List String, pieces ≠ [] ∧
      ∀ (engine : Engine L M) (data : Context), engine.localizer = localizer →
        (∀ other, other ≠ key → data.get? other = context.get? other) →
        (∀ value, engine.resolve text (some (data.insert key (.text value))) =
          .ok (String.intercalate value pieces)) ∧
        engine.resolve text (some (data.erase key)) =
          .ok (String.intercalate (Tag.value key).toText pieces) := by
  rcases @Node.copies_renderAll context key template.nodes unlooped untested with
    ⟨pieces, hpieces, hrender⟩
  refine ⟨pieces, hpieces, ?_⟩
  rintro engine data rfl halike
  constructor
  · intro value
    exact resolve_eq_ok_iff.2 ⟨template, parsed, hrender _ _ (Node.shows_insert value halike)⟩
  · exact resolve_eq_ok_iff.2 ⟨template, parsed, hrender _ _ (Node.shows_erase halike)⟩

theorem resolve_copies_text_tags :
    let catalog := (∅ : Catalog).insert "en" "hi" ("Hi " ++ (Tag.value "k").toText)
    let text := String.ofList (Reference.written ⟨"hi"⟩) ++ (Tag.loop "l").toText ++
      (Tag.value "k").toText ++ Tag.close.toText ++ (Tag.value "k").toText
    let engine : Engine Catalog := { localizer := catalog }
    let context : Context := Dict.ofList [("l", .list [.bool true])]
    ∃ template, Template.parse (localize catalog text) = .ok template ∧
      (.looped, "k") ∉ template.uses ∧ (.tested, "k") ∉ template.uses ∧
      ∃ pieces : List String, pieces ≠ [] ∧
        ∀ value, engine.resolve text (some (context.insert "k" (.text value))) =
          .ok (String.intercalate value pieces) := by
  intro catalog text engine context
  have hparse : Template.parse (localize catalog text) = .ok ⟨localize catalog text,
      [.literal "Hi ", .value "k", .loop "l" [.value "k"], .value "k"]⟩ := by
    subst catalog text
    with_unfolding_all rfl
  have hlooped : (.looped, "k") ∉ [(Use.shown, "k"), (.looped, "l"), (.shown, "k")] := by decide
  have htested : (.tested, "k") ∉ [(Use.shown, "k"), (.looped, "l"), (.shown, "k")] := by decide
  rcases @resolve_copies_text Catalog KeyedList _ _ catalog text "k" _ context hparse hlooped htested with
    ⟨pieces, hpieces, hresolve⟩
  have hcopies := hresolve engine context rfl fun _ _ => rfl
  exact ⟨_, hparse, hlooped, htested, pieces, hpieces, hcopies.1⟩

end Engine
end Stencil
