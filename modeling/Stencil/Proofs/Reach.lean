import Stencil.Engine.Basic
import Stencil.Proofs.Nesting
import Stencil.Proofs.WriteLog

/-!
# Keys in reach — only their texts matter

Expanding a text asks for the texts of the keys it reaches and for no other ones.  So two sources of
texts that agree on these keys cannot be told apart by the text, and texts written under other keys
change nothing about it, whatever was written there before.

* `Reference.reaches_congr` — sources that agree on the keys in reach have the same keys in reach;
* `Reference.expand?_congr` — and expand the text alike, within every limit;
* `RendersAlike` — two localizers cannot be told apart by rendering a text;
* `Catalog.textOf_edits` — writing under other keys leaves the text of a key.
-/

namespace Stencil

/-! ## Expansion -/

namespace Reference

variable {left right : String → String}

theorem Reaches.of_agree {text : List Char} {key : String} :
    (∀ key, Reaches left text key → left key = right key) →
      Reaches left text key → Reaches right text key := by
  intro hagree h
  induction h with
  | direct hmem => exact .direct hmem
  | through hreach hmem ih => exact ih.through (hagree _ hreach ▸ hmem)

/-- Which keys are in reach does not depend on the source that is asked. -/
theorem reaches_congr {text : List Char}
    (agree : ∀ key, Reaches left text key → left key = right key) (key : String) :
    Reaches left text key ↔ Reaches right text key := by
  refine ⟨Reaches.of_agree agree, fun h => ?_⟩
  induction h with
  | direct hmem => exact .direct hmem
  | through _ hmem ih => exact ih.through ((agree _ ih).symm ▸ hmem)

/-- Pieces are expanded alike if the keys they name are. -/
theorem expandPieces?_congr {expandKey? other? : String → Option (List Char)} {active : List String}
    {parts : List (Piece Reference)} :
    (∀ key, Piece.mark ⟨key⟩ ∈ parts → expandKey? key = other? key) →
      expandPieces? expandKey? active parts = expandPieces? other? active parts := by
  intro h
  induction parts with
  | nil => rfl
  | cons piece parts ih =>
      have hrest := ih fun key hmem => h key (List.mem_cons_of_mem _ hmem)
      cases piece with
      | literal run => rw [expandPieces?, expandPieces?, hrest]
      | mark reference =>
          have hkey := h reference.key List.mem_cons_self
          rw [expandPieces?, expandPieces?, hrest, hkey]

/-- A text is expanded alike if the keys it reaches have the same texts. -/
theorem expand?_congr {limit : Nat} {active : List String} {text : List Char} :
    (∀ key, Reaches left text key → left key = right key) →
      expand? left limit active text = expand? right limit active text := by
  intro hagree
  induction limit generalizing active text with
  | zero => rfl
  | succ limit ih =>
      refine expandPieces?_congr fun key hmem => ?_
      have hreach : Reaches left text key := .direct (mem_keys.2 hmem)
      -- What the text of the key reaches is in reach of the whole text.
      have hinner : expand? left limit (key :: active) (left key).toList =
          expand? right limit (key :: active) (left key).toList :=
        ih fun later hlater => hagree later (hreach.trans hlater)
      rw [hinner, hagree key hreach]

end Reference

/-! ## Localizers -/

/-- Two localizers cannot be told apart by a text: it is localized alike and rendered alike, with the
same result or the same error, whether it is given directly or stored on a host, and whatever is drawn
again besides. -/
structure RendersAlike {L N : Type} (M : Type → Type) [OrderedMap M] [Localizer L] [Localizer N]
    (left : L) (right : N) (text : String) : Prop where
  localize : localize left text = localize right text
  resolve : ∀ (engine : Engine L M) (other : Engine N M) (data : Option Context),
    engine.localizer = left → other.localizer = right →
      engine.resolve text data = other.resolve text data
  render : ∀ {H : Type} [Host H] (host : H) (template : String) (engine : Engine L M)
    (other : Engine N M) (data : Option Context),
    engine.localizer = left → other.localizer = right → Host.fetch? host template = some text →
      engine.render host template data = other.render host template data
  fill : ∀ {H : Type} [Host H] (host : H) (target template : String) (engine : Engine L M)
    (other : Engine N M) (data : Option Context),
    engine.localizer = left → other.localizer = right → Host.fetch? host template = some text →
      engine.fill host target template data = other.fill host target template data

variable {L N : Type} {M : Type → Type} [OrderedMap M] [Localizer L] [Localizer N]

theorem localize_congr {left : L} {right : N} {text : String} :
    (∀ key, Reference.Reaches (Localizer.textOf left) text.toList key →
      Localizer.textOf left key = Localizer.textOf right key) →
        localize left text = localize right text := by
  intro hagree
  -- The larger of the two limits is enough for both.
  have hleft := Reference.expand?_mono
    (Nat.le_max_left (Localizer.nesting left text) (Localizer.nesting right text))
    (expand?_localize left text)
  have hright := Reference.expand?_mono
    (Nat.le_max_right (Localizer.nesting left text) (Localizer.nesting right text))
    (expand?_localize right text)
  rw [Reference.expand?_congr hagree, hright] at hleft
  exact (String.toList_injective (Option.some.inj hleft)).symm

theorem RendersAlike.of_localize {left : L} {right : N} {text : String} :
    Stencil.localize left text = Stencil.localize right text →
      RendersAlike M left right text := by
  intro hlocalize
  have hrender (engine : Engine L M) (other : Engine N M) (data : Option Context)
      (hleft : engine.localizer = left) (hright : other.localizer = right) :
      engine.renderText text data = other.renderText text data := by
    rw [Engine.renderText, Engine.renderText, hleft, hright, hlocalize]
  have hstored {H : Type} [Host H] (host : H) (template : String) (engine : Engine L M)
      (other : Engine N M) (data : Option Context) (hleft : engine.localizer = left)
      (hright : other.localizer = right) (hfetch : Host.fetch? host template = some text) :
      engine.render host template data = other.render host template data := by
    rw [Engine.render, Engine.render, hfetch]
    exact congrArg (Except.mapError _) (hrender engine other data hleft hright)
  refine ⟨hlocalize, fun engine other data hleft hright => ?_, hstored, ?_⟩
  · exact congrArg (Except.mapError _) (hrender engine other data hleft hright)
  · intro H _ host target template engine other data hleft hright hfetch
    rw [Engine.fill, Engine.fill, hstored host template engine other data hleft hright hfetch]

/-! ## Catalogs -/

namespace Catalog

theorem lastText_eq_none {writes : List Write} {key : String} (locale : String) :
    (∀ write ∈ writes, write.key ≠ key) → lastText writes locale key = none := by
  intro h
  have hnone : (writes.filter fun write => write.locale = locale ∧ write.key = key) = [] := by
    refine List.filter_eq_nil_iff.2 fun write hmem => ?_
    simp [h write hmem]
  rw [lastText, hnone]
  rfl

/-- Writing under other keys leaves the text of a key. -/
theorem textOf_edit (catalog : Catalog) {last : Edit} {key : String} :
    last.names ≠ none → (∀ write ∈ last.writes, write.key ≠ key) →
      (catalog.edit last).textOf key = catalog.textOf key := by
  intro hnames hwrites
  have htable (locale : String) :
      ((catalog.edit last).table locale).get? key = (catalog.table locale).get? key := by
    rw [get?_table_edit, lastText_eq_none locale hwrites, Option.none_or]
  rw [textOf, textOf, get?, get?, locale_edit catalog hnames, fallback_edit, htable, htable]

theorem textOf_edits (catalog : Catalog) {edits : List Edit} {key : String} :
    (∀ edit ∈ edits, edit.names ≠ none) → (∀ write ∈ log edits, write.key ≠ key) →
      (edits.foldl edit catalog).textOf key = catalog.textOf key := by
  intro hnames hwrites
  induction edits generalizing catalog with
  | nil => rfl
  | cons first edits ih =>
      rcases List.forall_mem_cons.1 hnames with ⟨hfirst, hrest⟩
      have hlater : ∀ write ∈ log edits, write.key ≠ key := by
        intro write hmem
        exact hwrites write (by simp_all [log])
      have hnow : ∀ write ∈ first.writes, write.key ≠ key := by
        intro write hmem
        exact hwrites write (by simp_all [log])
      rw [List.foldl_cons, ih _ hrest hlater, textOf_edit catalog hfirst hnow]

end Catalog

/-- Rendering a text depends on the texts of the keys it reaches alone.  Two sources that agree on them
expand the text alike within every limit, two localizers that agree on them cannot be told apart by it,
and the same keys are in reach for both.  So tables of a catalog may be given other texts, or be added,
under keys that are out of reach. -/
theorem render_depends_on_reach (text : String) :
    (∀ (left right : String → String),
      (∀ key, Reference.Reaches left text.toList key → left key = right key) →
        ∀ limit, Reference.expand? left limit [] text.toList =
          Reference.expand? right limit [] text.toList) ∧
    (∀ (left : L) (right : N),
      (∀ key, Reference.Reaches (Localizer.textOf left) text.toList key →
        Localizer.textOf left key = Localizer.textOf right key) →
          RendersAlike M left right text ∧
          ∀ key, Reference.Reaches (Localizer.textOf left) text.toList key ↔
            Reference.Reaches (Localizer.textOf right) text.toList key) ∧
    ∀ (catalog : Catalog) (edits : List Catalog.Edit),
      (∀ edit ∈ edits, edit.names ≠ none) →
      (∀ write ∈ Catalog.log edits, ¬ Reference.Reaches catalog.textOf text.toList write.key) →
        RendersAlike M (edits.foldl Catalog.edit catalog) catalog text := by
  refine ⟨fun left right hagree limit => Reference.expand?_congr hagree, ?_, ?_⟩
  · intro left right hagree
    exact ⟨.of_localize (localize_congr hagree), Reference.reaches_congr hagree⟩
  · intro catalog edits hnames hunreached
    -- The keys in reach are those from before anything is written.
    refine .of_localize (localize_congr fun key hreach => ?_).symm
    refine (Catalog.textOf_edits catalog hnames fun write hmem hsame => ?_).symm
    exact hunreached write hmem (hsame ▸ hreach)

/-- Keys met in a text of the fallback locale, in a circle and without a text are in reach, and texts
are put over one that is not. -/
theorem render_depends_on_reach_circle :
    let refer := fun key => String.ofList (Reference.written ⟨key⟩)
    let catalog := (((Catalog.ofSettings ⟨"tmpl-", "de", "en"⟩).insert "de" "a" (refer "b")).insert
      "en" "b" (refer "a" ++ refer "c")).insert "en" "d" "old"
    let edits := [Catalog.Edit.insert "de" "d" "new", .insertTable "fr" [("e", refer "a")]]
    let edited := edits.foldl Catalog.edit catalog
    (∀ key, Reference.Reaches catalog.textOf (refer "a").toList key →
        key = "a" ∨ key = "b" ∨ key = "c") ∧
      (catalog.textOf "d", edited.textOf "d") = ("old", "new") ∧
      RendersAlike KeyedList edited catalog (refer "a") ∧
      RendersAlike KeyedList catalog edited (refer "a") ∧
      ∀ limit, Reference.expand? catalog.textOf limit [] (refer "a").toList =
        Reference.expand? edited.textOf limit [] (refer "a").toList := by
  intro refer catalog edits edited
  have htext : Reference.keys (refer "a").toList = ["a"] := by decide +kernel
  have ha : Reference.keys (catalog.textOf "a").toList = ["b"] := by decide +kernel
  have hb : Reference.keys (catalog.textOf "b").toList = ["a", "c"] := by decide +kernel
  have hc : Reference.keys (catalog.textOf "c").toList = [] := by decide +kernel
  have hclosed : ∀ key, Reference.Reaches catalog.textOf (refer "a").toList key →
      key = "a" ∨ key = "b" ∨ key = "c" := by
    intro key h
    induction h with
    | direct hmem => exact .inl (by simpa [htext] using hmem)
    | through _ hmem ih =>
        rcases ih with rfl | rfl | rfl
        · exact .inr (.inl (by simpa [ha] using hmem))
        · rcases (by simpa [hb] using hmem) with hfirst | hsecond
          · exact .inl hfirst
          · exact .inr (.inr hsecond)
        · simp [hc] at hmem
  have hagree : ∀ key, Reference.Reaches catalog.textOf (refer "a").toList key →
      catalog.textOf key = edited.textOf key := by
    intro key h
    rcases hclosed key h with rfl | rfl | rfl
    all_goals decide +kernel
  have hunreached : ∀ write ∈ Catalog.log edits,
      ¬ Reference.Reaches catalog.textOf (refer "a").toList write.key := by
    intro write hmem h
    have hlog : Catalog.log edits = [⟨"de", "d", "new"⟩, ⟨"fr", "e", refer "a"⟩] := rfl
    rw [hlog, List.mem_pair] at hmem
    rcases hmem with rfl | rfl
    all_goals simpa using hclosed _ h
  rcases @render_depends_on_reach Catalog Catalog KeyedList _ _ _ (refer "a") with
    ⟨hsources, hlocalizers, hwrites⟩
  exact ⟨hclosed, by decide +kernel, hwrites catalog edits (by decide) hunreached,
    (hlocalizers catalog edited hagree).1, hsources catalog.textOf edited.textOf hagree⟩

end Stencil
