import Stencil.Proofs.Parts
import Stencil.Proofs.Verbatim

/-!
# Loops — what a loop over a list is rendered as

A loop stands for its body, once for each item of a list and in the order of the items.  Its
separator stands between every two of them as it was written, without the blanks in front of its
tag.  Separator and body are texts of their own as long as no tag crosses their ends.

* `Template.itemText` — what the body of a loop is rendered as for one item;
* `Template.Repeats` — a template is rendered as its body for every item under a key;
* `Template.loop_renders_items` — loops are such templates.
-/

namespace Stencil

namespace Grammar

theorem gap_ofRun {run : List Char} (blank : ∀ c ∈ run, Text.isBlank c) :
    Gap (Lexeme.ofRun run) run := by
  by_cases h : run = []
  · simpa [Lexeme.ofRun, h] using Gap.none
  · simpa [Lexeme.ofRun, h] using Gap.run blank

end Grammar

namespace Template

open Grammar (Derives)

/-! ## What a loop is rendered as -/

/-- What the text of a loop's body is rendered as for one item: it comes back as it was written for
null, and is rendered with the entries of an object and with no entries for any other item. -/
def itemText (body : String) (template : Template) : Value → String
  | .null => body
  | .object entries => template.render (some entries)
  | .bool _ | .number _ | .text _ | .list _ => template.render (some ∅)

theorem renderAll_scope {body : String} {template : Template} (item : Value) :
    parse body = .ok template →
      Node.renderAll item.scope template.nodes = itemText body template item := by
  intro h
  cases item with
  | null =>
      simpa [Value.scope, itemText] using sources_nodes h
  | _ =>
      rfl

/-- A template is rendered as the texts of the items of a list under a key, and as nothing if there
is no list under the key. -/
structure Repeats (template : Template) (key : String) (arrange : List String → String)
    (item : Value → String) : Prop where
  listed : ∀ (context : Context) (items : List Value), context.get? key = some (.list items) →
    template.render (some context) = arrange (items.map item)
  unlisted : ∀ context : Context, (∀ items, context.get? key ≠ some (.list items)) →
    template.render (some context) = ""

theorem items?_eq_none {found : Option Value} :
    (∀ items, found ≠ some (.list items)) → found.bind Value.items? = none := by
  intro h
  cases found with
  | none =>
      rfl
  | some value =>
      cases value with
      | list items =>
          exact absurd rfl (h items)
      | _ =>
          rfl

theorem repeats_loop {text key body : String} {inner : Template} :
    parse body = .ok inner →
      Repeats ⟨text, [.loop key inner.nodes]⟩ key String.join (itemText body inner) := by
  intro h
  constructor
  · intro context items hitems
    simp [render, Node.render, hitems, Value.items?, renderAll_scope _ h]
  · intro context hnone
    simp [render, Node.render, items?_eq_none hnone]

theorem repeats_joined {text key gap separator body : String} {between inner : Template} :
    parse separator = .ok between → parse body = .ok inner →
      Repeats ⟨text, [.joined key gap between.nodes inner.nodes]⟩ key
        (String.intercalate separator) (itemText body inner) := by
  intro hseparator hbody
  constructor
  · intro context items hitems
    simp [render, Node.render, hitems, Value.items?, sources_nodes hseparator,
      renderAll_scope _ hbody]
  · intro context hnone
    simp [render, Node.render, items?_eq_none hnone]

/-! ## How a loop is read -/

/-- A loop is read as its tags with the lexemes of its body between them. -/
theorem derives_loop {key body : String} {inner : Template} (valid : Argument.Valid key.toList) :
    parse body = .ok inner → Separate ((Tag.loop key).toText ++ body) Tag.close.toText →
      Derives (Lexeme.ofText 0 ((Tag.loop key).toText ++ body ++ Tag.close.toText).toList)
        [.loop key inner.nodes] := by
  intro hbody hend
  have hvalid : (Tag.loop key).Valid := valid
  rcases ofText_block hvalid hend with ⟨start, close, hblock⟩
  rw [hblock]
  exact Derives.loop (derives_of_parse start hbody) .nil

/-- The start of a loop with a separator is read as two tags, with the blanks between them and the
lexemes of the separator behind them. -/
theorem ofText_opening {key gap separator : String} (valid : Argument.Valid key.toList)
    (blank : ∀ c ∈ gap.toList, Text.isBlank c) :
    ∃ offset start,
      Lexeme.ofText 0
          ((Tag.loop key).toText ++ gap ++ Tag.separator.toText ++ separator).toList =
        .tag (.loop key) 0 :: (Lexeme.ofRun gap.toList ++ .tag .separator offset ::
          Lexeme.ofText start separator.toList) := by
  have hvalid : (Tag.loop key).Valid := valid
  have htext : ((Tag.loop key).toText ++ gap ++ Tag.separator.toText ++ separator).toList =
      (Tag.loop key).written ++ (gap.toList ++ (Tag.separator.written ++ separator.toList)) := by
    simp
  rw [htext, Lexeme.ofText_tag_append hvalid, Lexeme.ofText_blank_append Tag.valid_separator blank]
  exact ⟨_, _, rfl⟩

/-- A loop with a separator is read as its tags with the lexemes of both texts between them. -/
theorem derives_joined {key gap separator body : String} {between inner : Template}
    (valid : Argument.Valid key.toList) (blank : ∀ c ∈ gap.toList, Text.isBlank c) :
    parse separator = .ok between → parse body = .ok inner →
      Separate ((Tag.loop key).toText ++ gap ++ Tag.separator.toText ++ separator)
        (Tag.close.toText ++ body ++ Tag.close.toText) →
      Separate ((Tag.loop key).toText ++ gap ++ Tag.separator.toText ++ separator ++
        Tag.close.toText ++ body) Tag.close.toText →
      Derives
        (Lexeme.ofText 0 ((Tag.loop key).toText ++ gap ++ Tag.separator.toText ++ separator ++
          Tag.close.toText ++ body ++ Tag.close.toText).toList)
        [.joined key gap between.nodes inner.nodes] := by
  intro hseparator hbody hmiddle hend
  -- The text is read from its last tag to its first: what is cut off behind is read by then.
  have hcut : Separate ((Tag.loop key).toText ++ gap ++ Tag.separator.toText ++ separator)
      (Tag.close.toText ++ body) :=
    hmiddle.cut (by simpa only [String.append_assoc] using hend)
  rcases @ofText_opening key gap separator valid blank with ⟨offset, start, hopening⟩
  rcases ofText_tag_behind Tag.valid_close hcut with ⟨separatorClose, bodyStart, hbetween⟩
  rcases ofText_close hend with ⟨close, hclose⟩
  have hjoined := @Derives.joined key gap.toList 0 offset separatorClose close _ _ _ [] _ _ _
    (Grammar.gap_ofRun blank) (derives_of_parse start hseparator)
    (derives_of_parse bodyStart hbody) .nil
  rw [hclose, hbetween, hopening]
  simpa using hjoined

/-! ## Loops -/

/-- A loop over a key is rendered as its body for every item of the list under the key.  Its
separator stands between the bodies as it was written, and the blanks in front of the separator's
tag are dropped. -/
theorem loop_renders_items {key body : String} {inner : Template}
    (valid : Argument.Valid key.toList) (parsed : parse body = .ok inner) :
    (∀ (gap separator : String) (between : Template), (∀ c ∈ gap.toList, Text.isBlank c) →
      parse separator = .ok between →
      Separate ((Tag.loop key).toText ++ gap ++ Tag.separator.toText ++ separator)
        (Tag.close.toText ++ body ++ Tag.close.toText) →
      Separate ((Tag.loop key).toText ++ gap ++ Tag.separator.toText ++ separator ++
        Tag.close.toText ++ body) Tag.close.toText →
      ∃ template,
        parse ((Tag.loop key).toText ++ gap ++ Tag.separator.toText ++ separator ++
          Tag.close.toText ++ body ++ Tag.close.toText) = .ok template ∧
        Repeats template key (String.intercalate separator) (itemText body inner)) ∧
      (Separate ((Tag.loop key).toText ++ body) Tag.close.toText →
        ∃ template,
          parse ((Tag.loop key).toText ++ body ++ Tag.close.toText) = .ok template ∧
          Repeats template key String.join (itemText body inner)) := by
  constructor
  · intro gap separator between hblank hparsed hmiddle hend
    have hderives := derives_joined valid hblank hparsed parsed hmiddle hend
    exact ⟨_, parse_of_derives hderives, repeats_joined hparsed parsed⟩
  · intro hend
    have hderives := derives_loop valid parsed hend
    exact ⟨_, parse_of_derives hderives, repeats_loop parsed⟩

theorem loop_renders_items_mixed :
    let separator := "," ++ (Tag.value "n").toText
    let body := (Tag.test "n").toText ++ "!" ++ Tag.close.toText ++ (Tag.value "n").toText
    let items : List Value := [.null, .object (Dict.ofList [("n", .text "1")]), .bool true]
    let context : Context := Dict.ofList [("k", .list items)]
    (∃ template,
      parse ((Tag.loop "k").toText ++ "\n" ++ Tag.separator.toText ++ separator ++
        Tag.close.toText ++ body ++ Tag.close.toText) = .ok template ∧
      template.render (some context) =
        body ++ separator ++ "!1" ++ separator ++ (Tag.value "n").toText ∧
      template.render (some ∅) = "") ∧
    ∃ template,
      parse ((Tag.loop "k").toText ++ body ++ Tag.close.toText) = .ok template ∧
      template.render (some context) = body ++ "!1" ++ (Tag.value "n").toText := by
  intro separator body items context
  have hbetween : parse separator = .ok ⟨separator, [.literal ",", .value "n"]⟩ := by
    subst separator
    with_unfolding_all rfl
  have hinner : parse body =
      .ok ⟨body, [.guarded (.truthy "n") [.literal "!"], .value "n"]⟩ := by
    subst body
    with_unfolding_all rfl
  have hmiddle : Separate ((Tag.loop "k").toText ++ "\n" ++ Tag.separator.toText ++ separator)
      (Tag.close.toText ++ body ++ Tag.close.toText) := by
    subst separator body
    decide +kernel
  have hend : Separate ((Tag.loop "k").toText ++ "\n" ++ Tag.separator.toText ++ separator ++
      Tag.close.toText ++ body) Tag.close.toText := by
    subst separator body
    decide +kernel
  have hplain : Separate ((Tag.loop "k").toText ++ body) Tag.close.toText := by
    subst body
    decide +kernel
  have hitems : context.get? "k" = some (.list items) := rfl
  have hempty : ∀ items, (∅ : Context).get? "k" ≠ some (.list items) := by
    intro items h
    cases h
  have htexts : items.map (itemText body ⟨body, [.guarded (.truthy "n") [.literal "!"],
      .value "n"]⟩) = [body, "!1", (Tag.value "n").toText] := by
    subst items body
    with_unfolding_all rfl
  have hkey : Argument.Valid "k".toList := by decide
  have hblank : ∀ c ∈ "\n".toList, Text.isBlank c := by
    intro c hmem
    have hc : c = '\n' := by simpa using hmem
    rw [hc]
    decide
  rcases loop_renders_items hkey hinner with ⟨hjoined, hloop⟩
  rcases hjoined "\n" separator _ hblank hbetween hmiddle hend with ⟨template, hparse, hrepeats⟩
  rcases hloop hplain with ⟨plain, hparsePlain, hrepeatsPlain⟩
  refine ⟨⟨template, hparse, ?_, hrepeats.unlisted ∅ hempty⟩, plain, hparsePlain, ?_⟩
  · rw [hrepeats.listed context items hitems, htexts]
    simp [String.append_assoc]
  · rw [hrepeatsPlain.listed context items hitems, htexts]
    simp [String.append_assoc]

end Template
end Stencil
