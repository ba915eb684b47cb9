import Stencil.Json.Catalog
import Stencil.Json.RenderError
import Stencil.Json.Settings
import Stencil.Proofs.Lawful
import Stencil.Proofs.Record

/-!
# Errors, settings and catalogs in documents — each is read back from its document

* `ParseError.Fits` — positions that a document can hold, numbers of 64 bits;
* `Settings.withDefaults`, `Catalog.withDefaults` — settings and catalogs with defaults in place of
  some fields;
* `Catalog.Writes` — the documents of a catalog, whatever the order of tables, texts and fields;
* `RenderError.conveys`, `Settings.exists_members`, `Catalog.Writes.exists_members` — what is read
  where one was written;
* `Settings.ofTree?_without`, `Catalog.ofTree?_without` — fields that are left out of a document have
  their defaults, and the other ones are as before.
-/

namespace Stencil

open Json (Tree Library Faithful Declared Conveys Reads ReadsRecord WritesDict)

section

variable [Library]

/-! ## Parse errors -/

namespace ParseError

/-- Line and column are numbers of 64 bits. -/
def Fits (error : ParseError) : Prop :=
  error.position.line < UInt64.size ∧ error.position.column < UInt64.size

instance Fits.decide (error : ParseError) : Decidable error.Fits :=
  inferInstanceAs (Decidable (_ ∧ _))

section

variable [Faithful] [Declared]

/-- The content of a cause is read as its text. -/
theorem exists_reads_onlyText (name text : String) :
    ∃ tree, Reads (Library.record [(name, .text text)]) tree ∧
      onlyText? name (some tree) = some text := by
  rcases Json.exists_record [name] [(name, .text text)] (by simp) (by simp)
    (by simpa using (Json.conveys_text text).readable) with
      ⟨members, fields, hreads, hfields, hholds⟩
  rw [Declared.record_eq]
  refine ⟨_, hreads.reads, ?_⟩
  have htext := hholds.field? name none (by simp) (Json.conveys_text text)
  simp [onlyText?, hfields, htext]

theorem Cause.conveys (cause : Cause) : Conveys Cause.ofTree? cause.toTree cause := by
  cases cause with
  | unclosedBlock tag =>
      rcases exists_reads_onlyText "tag" tag with ⟨content, hcontent, htag⟩
      rcases Json.exists_reads_alternative "UnclosedBlock" hcontent with ⟨tree, hreads, hvariant⟩
      exact ⟨tree, hreads, by simp [Cause.ofTree?, hvariant, htag]⟩
  | unexpectedTag tag =>
      rcases exists_reads_onlyText "tag" tag with ⟨content, hcontent, htag⟩
      rcases Json.exists_reads_alternative "UnexpectedTag" hcontent with ⟨tree, hreads, hvariant⟩
      exact ⟨tree, hreads, by simp [Cause.ofTree?, hvariant, htag]⟩
  | misplacedSeparator =>
      rcases Json.exists_reads_name "MisplacedSeparator" with ⟨tree, hreads, hvariant⟩
      exact ⟨tree, hreads, by simp [Cause.ofTree?, hvariant, Declared.isBare_none]⟩
  | duplicateElse =>
      rcases Json.exists_reads_name "DuplicateElse" with ⟨tree, hreads, hvariant⟩
      exact ⟨tree, hreads, by simp [Cause.ofTree?, hvariant, Declared.isBare_none]⟩
  | notAnOpeningTag found =>
      rcases exists_reads_onlyText "found" found with ⟨content, hcontent, hfound⟩
      rcases Json.exists_reads_alternative "NotAnOpeningTag" hcontent with ⟨tree, hreads, hvariant⟩
      exact ⟨tree, hreads, by simp [Cause.ofTree?, hvariant, hfound]⟩

theorem conveys {error : ParseError} : error.Fits → Conveys ofTree? error.toTree error := by
  rintro ⟨hline, hcolumn⟩
  have hreadable : ∀ member ∈ [("line", Tree.natural error.position.line),
      ("column", .natural error.position.column), ("kind", error.cause.toTree)],
        ∃ tree, Reads member.2 tree := by
    simp only [List.forall_mem_cons]
    exact ⟨(Json.conveys_word hline).readable, (Json.conveys_word hcolumn).readable,
      error.cause.conveys.readable, List.forall_mem_nil _⟩
  rcases Json.exists_record ["line", "column", "kind"] _ (by simp) (by simp) hreadable with
    ⟨members, fields, hreads, hfields, hholds⟩
  rw [toTree, Declared.record_eq]
  refine ⟨_, hreads.reads, ?_⟩
  have hl := hholds.field? "line" none (by simp) (Json.conveys_word hline)
  have hc := hholds.field? "column" none (by simp) (Json.conveys_word hcolumn)
  have hk := hholds.field? "kind" none (by simp) error.cause.conveys
  simp [ofTree?, hfields, hl, hc, hk]

end

end ParseError

/-! ## Render errors -/

namespace RenderError

theorem conveys [Faithful] [Declared] {error : RenderError} :
    error.parseError.Fits → Conveys ofTree? error.toTree error := by
  intro hfits
  cases error with
  | direct error =>
      rcases ParseError.conveys hfits with ⟨content, hcontent, herror⟩
      rcases Json.exists_reads_alternative "Parse" hcontent with ⟨tree, hreads, hvariant⟩
      exact ⟨tree, hreads, by simp [ofTree?, hvariant, herror, parseError]⟩
  | malformed template error =>
      have herror : Conveys ParseError.ofTree? error.toTree error := ParseError.conveys hfits
      have htemplate := Json.conveys_text template
      have hreadable : ∀ member ∈ [("template_id", Tree.text template), ("source", error.toTree)],
          ∃ tree, Reads member.2 tree := by
        simp only [List.forall_mem_cons]
        exact ⟨htemplate.readable, herror.readable, List.forall_mem_nil _⟩
      rcases Json.exists_record ["template_id", "source"] _ (by simp) (by simp)
        hreadable with ⟨members, fields, hcontent, hfields, hholds⟩
      rw [toTree, Declared.record_eq]
      rcases Json.exists_reads_alternative "Malformed" hcontent.reads with ⟨tree, hreads, hvariant⟩
      have ht := hholds.field? "template_id" none (by simp) htemplate
      have he := hholds.field? "source" none (by simp) herror
      exact ⟨tree, hreads, by simp [ofTree?, hvariant, hfields, ht, he]⟩

end RenderError

/-! ## Settings -/

namespace Settings

/-- Settings with defaults in place of some fields. -/
def withDefaults (dropped : String → Bool) (settings : Settings) : Settings where
  templatePrefix :=
    if dropped "template_prefix" then ({} : Settings).templatePrefix else settings.templatePrefix
  locale := if dropped "locale" then ({} : Settings).locale else settings.locale
  fallback := if dropped "fallback_locale" then ({} : Settings).fallback else settings.fallback

/-- Fields that are left out have their defaults. -/
theorem ofTree?_without [Declared] {members : List (Option String × Tree)} {settings : Settings}
    (dropped : String → Bool) :
    ofTree? (.object members) = some settings →
      ofTree? ((Tree.object members).without dropped) = some (settings.withDefaults dropped) := by
  intro h
  simp only [ofTree?, Option.bind_eq_bind, Option.bind_eq_some_iff, Option.pure_def,
    Option.some.injEq] at h
  rcases h with ⟨fields, hfields, opening, hopening, locale, hlocale, fallback, hfallback, rfl⟩
  rcases Json.fields?_without dropped hfields with ⟨rest, hrest, hleft⟩
  simp [ofTree?, hrest, hleft.field? hopening, hleft.field? hlocale,
    hleft.field? hfallback, withDefaults]

theorem exists_members [Faithful] [Declared] (settings : Settings) :
    ∃ members, ReadsRecord settings.toTree members ∧ ofTree? (.object members) = some settings := by
  have hreadable : ∀ member ∈ [("template_prefix", Tree.text settings.templatePrefix),
      ("locale", .text settings.locale), ("fallback_locale", .text settings.fallback)],
        ∃ tree, Reads member.2 tree := by
    simp only [List.forall_mem_cons]
    exact ⟨(Json.conveys_text _).readable, (Json.conveys_text _).readable,
      (Json.conveys_text _).readable, List.forall_mem_nil _⟩
  rcases Json.exists_record ["template_prefix", "locale", "fallback_locale"] _ (by simp)
    (by simp) hreadable with ⟨members, fields, hreads, hfields, hholds⟩
  rw [toTree, Declared.record_eq]
  refine ⟨members, hreads, ?_⟩
  have hp := hholds.field? "template_prefix" (some ({} : Settings).templatePrefix) (by simp)
    (Json.conveys_text settings.templatePrefix)
  have hl := hholds.field? "locale" (some ({} : Settings).locale) (by simp)
    (Json.conveys_text settings.locale)
  have hf := hholds.field? "fallback_locale" (some ({} : Settings).fallback) (by simp)
    (Json.conveys_text settings.fallback)
  simp [ofTree?, hfields, hp, hl, hf]

end Settings

/-! ## Catalogs -/

namespace Catalog

/-- A catalog with defaults in place of some fields. -/
def withDefaults (dropped : String → Bool) (catalog : Catalog) : Catalog where
  tables := if dropped "tables" then empty.tables else catalog.tables
  locale := if dropped "locale" then empty.locale else catalog.locale
  fallback := if dropped "fallback_locale" then empty.fallback else catalog.fallback

/-- Tables as they are written, with tables and texts in whatever order. -/
def WritesTables : Dict (Dict String) → Tree → Prop :=
  WritesDict (WritesDict fun text source => source = .text text)

/-- A catalog as it is written, with tables, texts and fields in whatever order. -/
def Writes (catalog : Catalog) (source : Tree) : Prop :=
  ∃ tables members, WritesTables catalog.tables tables ∧
    members.Perm [("tables", tables), ("locale", .text catalog.locale),
      ("fallback_locale", .text catalog.fallback)] ∧ source = .record members

theorem writes_toTree [Declared] (catalog : Catalog) : catalog.Writes catalog.toTree := by
  refine ⟨tablesTree catalog.tables, _, ?_, .refl _, Declared.record_eq _⟩
  exact Json.writesDict_ofDict _ fun table => Json.writesDict_ofDict table fun text => rfl

theorem WritesTables.conveys [Faithful] [Declared] {tables : Dict (Dict String)} {source : Tree} :
    WritesTables tables source → Conveys tables? source tables := by
  intro h
  refine WritesDict.conveys h fun table source htable => ?_
  refine WritesDict.conveys htable fun text source htext => ?_
  rw [htext]
  exact Json.conveys_text text

/-- Fields that are left out have their defaults. -/
theorem ofTree?_without [Declared] {members : List (Option String × Tree)} {catalog : Catalog}
    (dropped : String → Bool) :
    ofTree? (.object members) = some catalog →
      ofTree? ((Tree.object members).without dropped) = some (catalog.withDefaults dropped) := by
  intro h
  simp only [ofTree?, Option.bind_eq_bind, Option.bind_eq_some_iff, Option.pure_def,
    Option.some.injEq] at h
  rcases h with ⟨fields, hfields, tables, htables, locale, hlocale, fallback, hfallback, rfl⟩
  rcases Json.fields?_without dropped hfields with ⟨rest, hrest, hleft⟩
  simp [ofTree?, hrest, hleft.field? htables, hleft.field? hlocale,
    hleft.field? hfallback, withDefaults]

theorem Writes.exists_members [Faithful] [Declared] {catalog : Catalog} {source : Tree} :
    catalog.Writes source →
      ∃ members, ReadsRecord source members ∧ ofTree? (.object members) = some catalog := by
  rintro ⟨tables, sources, htables, hperm, rfl⟩
  have hreadable : ∀ member ∈ sources, ∃ tree, Reads member.2 tree := by
    simp only [hperm.mem_iff, List.forall_mem_cons]
    exact ⟨htables.conveys.readable, (Json.conveys_text _).readable,
      (Json.conveys_text _).readable, List.forall_mem_nil _⟩
  have hknown : ∀ member ∈ sources, member.1 ∈ ["tables", "locale", "fallback_locale"] := by
    simp [hperm.mem_iff]
  have hdistinct : (sources.map Prod.fst).Nodup := (hperm.map Prod.fst).nodup_iff.2 (by simp)
  rcases Json.exists_record _ _ hknown hdistinct hreadable with
    ⟨members, fields, hreads, hfields, hholds⟩
  refine ⟨members, hreads, ?_⟩
  have ht := hholds.field? "tables" (some empty.tables) (hperm.mem_iff.2 (by simp)) htables.conveys
  have hl := hholds.field? "locale" (some empty.locale) (hperm.mem_iff.2 (by simp))
    (Json.conveys_text catalog.locale)
  have hf := hholds.field? "fallback_locale" (some empty.fallback) (hperm.mem_iff.2 (by simp))
    (Json.conveys_text catalog.fallback)
  simp [ofTree?, hfields, ht, hl, hf]

end Catalog

/-! ## The round trips -/

/-- Parse errors and render errors with positions of 64 bits, settings and catalogs are read back from
their documents; those of a catalog may list its tables, texts and fields in any order.  A document of
settings or of a catalog may leave out fields, which are read as their defaults then, and this goes for
every document that can be read, whoever wrote it. -/
theorem records_round_trip [Faithful] [Declared] {error : ParseError} {failure : RenderError}
    {catalog : Catalog} {source : Tree} (fits : error.Fits) (failureFits : failure.parseError.Fits)
    (writes : catalog.Writes source) (settings : Settings) (dropped : String → Bool) :
    Json.decode? (Json.encode error) = some error ∧
    Json.decode? (Json.encode failure) = some failure ∧
    Json.decode? (Json.encode settings) = some settings ∧
    Json.decode? (Json.encode catalog) = some catalog ∧
    Json.decode? (Library.write source) = some catalog ∧
    Json.decode? (Library.write (settings.toTree.without dropped)) =
      some (settings.withDefaults dropped) ∧
    Json.decode? (Library.write (source.without dropped)) = some (catalog.withDefaults dropped) ∧
    ∀ (document shorter : String) (members : List (Option String × Tree)),
      Library.read? document = some (.object members) →
      Library.read? shorter = some ((Tree.object members).without dropped) →
        (∀ settings : Settings, Json.decode? document = some settings →
          Json.decode? shorter = some (settings.withDefaults dropped)) ∧
        (∀ catalog : Catalog, Json.decode? document = some catalog →
          Json.decode? shorter = some (catalog.withDefaults dropped)) := by
  -- The catalog is read from the given document and from its own one, where all is in order.
  rcases settings.exists_members with ⟨members, hsettings, hsettingsValue⟩
  rcases writes.exists_members with ⟨others, hcatalog, hcatalogValue⟩
  rcases catalog.writes_toTree.exists_members with ⟨ordered, hordered, horderedValue⟩
  have hleftSettings := Settings.ofTree?_without dropped hsettingsValue
  have hleftCatalog := Catalog.ofTree?_without dropped hcatalogValue
  refine ⟨(ParseError.conveys fits).decode?, (RenderError.conveys failureFits).decode?,
    Conveys.decode? ⟨_, hsettings.reads, hsettingsValue⟩,
    Conveys.decode? ⟨_, hordered.reads, horderedValue⟩,
    Conveys.decode? ⟨_, hcatalog.reads, hcatalogValue⟩,
    Conveys.decode? ⟨_, hsettings dropped, hleftSettings⟩,
    Conveys.decode? ⟨_, hcatalog dropped, hleftCatalog⟩, ?_⟩
  intro document shorter members hdocument hshorter
  constructor
  · intro settings hsome
    rw [Json.decode?, hdocument, Option.bind_some] at hsome
    rw [Json.decode?, hshorter, Option.bind_some]
    exact Settings.ofTree?_without dropped hsome
  · intro catalog hsome
    rw [Json.decode?, hdocument, Option.bind_some] at hsome
    rw [Json.decode?, hshorter, Option.bind_some]
    exact Catalog.ofTree?_without dropped hsome

end

section

attribute [local instance] Json.standard

/-- The largest position, texts that must be escaped, an empty table, members in another order, and
fields that are left out. -/
theorem records_round_trip_escaped :
    let error : ParseError :=
      ⟨⟨UInt64.size - 1, UInt64.size - 1⟩, .unclosedBlock "\"\\\n\x07é"⟩
    let failure : RenderError := .malformed "tile \"1\"" ⟨⟨1, 0⟩, .duplicateElse⟩
    let settings : Settings := ⟨"\t", "de", ""⟩
    let catalog : Catalog :=
      ⟨.ofList [("de", ∅), ("en", .ofList [("a", "\x00"), ("b", "")])], "fr", "de"⟩
    let source : Tree :=
      .record [("tables", .record [("en", .record [("b", .text ""), ("a", .text "\x00")]),
        ("de", .record [])]), ("fallback_locale", .text "de"), ("locale", .text "fr")]
    Json.decode? (Json.encode error) = some error ∧
    Json.decode? (Json.encode failure) = some failure ∧
    Json.decode? (Library.write source) = some catalog ∧
    Json.decode? (Library.write (settings.toTree.without (· ≠ "locale"))) =
      some (⟨"tmpl-", "de", "en"⟩ : Settings) ∧
    Json.decode? (Library.write (source.without (· = "locale"))) =
      some { catalog with locale := "en" } := by
  intro error failure settings catalog source
  have hen : WritesDict (fun text source => source = .text text)
      (.ofList [("a", "\x00"), ("b", "")]) (.record [("b", .text ""), ("a", .text "\x00")]) :=
    ⟨[("b", ""), ("a", "\x00")], _, by decide, .cons ⟨rfl, rfl⟩ (.cons ⟨rfl, rfl⟩ .nil), rfl⟩
  have hde : WritesDict (fun text source => source = .text text) ∅ (.record []) :=
    ⟨[], [], by decide, .nil, rfl⟩
  have hwrites : catalog.Writes source := by
    refine ⟨_, _, ⟨[("en", .ofList [("a", "\x00"), ("b", "")]), ("de", ∅)],
      [("en", .record [("b", .text ""), ("a", .text "\x00")]), ("de", .record [])], by decide,
      .cons ⟨rfl, hen⟩ (.cons ⟨rfl, hde⟩ .nil), rfl⟩, ?_, rfl⟩
    exact .cons _ (.swap _ _ _)
  rcases records_round_trip (by decide : error.Fits) (by decide : failure.parseError.Fits) hwrites
    settings (· ≠ "locale") with ⟨herror, hfailure, hwhole, -, hcatalog, -, -, hleft⟩
  rcases records_round_trip (by decide : error.Fits) (by decide : failure.parseError.Fits) hwrites
    settings (· = "locale") with ⟨-, -, -, -, -, -, hcatalogLeft, -⟩
  rcases settings.exists_members with ⟨members, hmembers, -⟩
  have hsettings := (hleft _ _ members hmembers.reads (hmembers _)).1 settings hwhole
  exact ⟨herror, hfailure, hcatalog, hsettings, hcatalogLeft⟩

end

end Stencil
