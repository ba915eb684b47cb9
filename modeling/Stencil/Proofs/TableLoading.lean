import Stencil.Proofs.RecordRoundTrip
import Stencil.Proofs.WriteLog

/-!
# Tables at once — a document of tables and edits that write them

The tables of a catalog can be read from a document, or written one after the other, or text by text.
What counts in the end is which locales have a table and which texts stand in it, so that no order of
the writes makes a difference.

* `Catalog.Builds`, `Catalog.Builds.ofEdits_eq` — edits that write what stands in tables leave these
  tables;
* `Catalog.TableByTable`, `Catalog.EntryByEntry` — edits for tables, one for each table or one for
  each text, in whatever order;
* `Tree.IsObjectOf`, `Json.isSome_dict?_iff` — the documents that are read as dictionaries;
* `Catalog.ofTables?_eq_inserts` — the catalog that is read from a document of tables is the one that
  edits leave, and other documents are refused.
-/

namespace Stencil

open Json (Tree Library Faithful Declared)

/-! ## Documents of dictionaries -/

namespace Json

/-- A string that denotes a text. -/
def Tree.IsText : Tree → Prop
  | string text => text.isSome
  | _ => False

/-- An object whose keys denote texts and whose values are of a kind. -/
def Tree.IsObjectOf (kind : Tree → Prop) : Tree → Prop
  | object members => ∀ member ∈ members, member.1.isSome ∧ kind member.2
  | _ => False

section

variable {α : Type} {read? : Tree → Option α} {kind : Tree → Prop}

theorem isSome_entries?_iff {members : List (Option String × Tree)} :
    (∀ tree, (read? tree).isSome ↔ kind tree) →
      ((Tree.entries? read? members).isSome ↔
        ∀ member ∈ members, member.1.isSome ∧ kind member.2) := by
  intro h
  induction members with
  | nil =>
      simp [Tree.entries?]
  | cons member members ih =>
      rw [List.forall_mem_cons, ← ih, ← h, Tree.entries?]
      cases member.1 <;> cases read? member.2 <;> cases Tree.entries? read? members <;> simp

variable [Library] [Declared]

theorem isSome_text?_iff {tree : Tree} : (Library.text? tree).isSome ↔ tree.IsText := by
  cases tree with
  | string text => rw [Declared.text?_string, Tree.IsText]
  | _ => simp [Declared.text?_other, Tree.IsText]

/-- A dictionary is read from the objects with texts as keys, if all values can be read. -/
theorem isSome_dict?_iff {tree : Tree} :
    (∀ tree, (read? tree).isSome ↔ kind tree) →
      ((Library.dict? read? tree).isSome ↔ tree.IsObjectOf kind) := by
  intro h
  cases tree with
  | object members =>
      rw [Declared.dict?_object, Option.isSome_map, isSome_entries?_iff h, Tree.IsObjectOf]
  | _ =>
      simp [Declared.dict?_other, Tree.IsObjectOf]

end

end Json

namespace Catalog

/-! ## Edits that write tables -/

/-- Edits that write what stands in tables, and nothing else. -/
structure Builds (edits : List Edit) (tables : Dict (Dict String)) : Prop where
  named_of_mem : ∀ edit ∈ edits, edit.names ≠ none
  locales_iff : ∀ locale, locale ∈ named edits ↔ tables.contains locale
  texts_iff : ∀ locale key text,
    ⟨locale, key, text⟩ ∈ log edits ↔ (tables.get? locale).bind (·.get? key) = some text

/-- The catalog with given tables and the locales of the settings. -/
def ofTables (settings : Settings) (tables : Dict (Dict String)) : Catalog :=
  { ofSettings settings with tables := tables }

/-- If there is at most one text for a key in a locale, it does not matter when it is written. -/
theorem lastText_eq {writes : List Write} {locale key : String} {found : Option String} :
    (∀ text, ⟨locale, key, text⟩ ∈ writes ↔ found = some text) →
      lastText writes locale key = found := by
  intro h
  cases hlast : lastText writes locale key with
  | none =>
      cases found with
      | none =>
          rfl
      | some text =>
          have hnone : (writes.filter fun write => write.locale = locale ∧ write.key = key) = [] := by
            simpa [lastText] using hlast
          have hmem : (⟨locale, key, text⟩ : Write) ∈
              writes.filter fun write => write.locale = locale ∧ write.key = key :=
            List.mem_filter.2 ⟨(h text).2 rfl, by simp⟩
          rw [hnone] at hmem
          cases hmem
  | some text =>
      rcases Option.map_eq_some_iff.1 hlast with ⟨write, hwrite, rfl⟩
      rcases List.mem_filter.1 (List.mem_of_getLast? hwrite) with ⟨hmem, hsame⟩
      rcases of_decide_eq_true hsame with ⟨rfl, rfl⟩
      exact ((h write.text).1 hmem).symm

/-- Edits that only write leave the configured locale. -/
theorem locale_ofEdits {settings : Settings} {edits : List Edit} :
    (∀ edit ∈ edits, edit.names ≠ none) → (ofEdits settings edits).locale = settings.locale := by
  intro h
  induction edits using List.reverseRecOn with
  | nil =>
      rfl
  | append_singleton edits last ih =>
      rw [ofEdits_concat, locale_edit _ (h last (by simp))]
      exact ih fun edit hmem => h edit (by simp [hmem])

/-- Edits that write what stands in tables leave a catalog with these tables. -/
theorem Builds.ofEdits_eq {edits : List Edit} {tables : Dict (Dict String)} (settings : Settings) :
    Builds edits tables → ofEdits settings edits = ofTables settings tables := by
  intro h
  refine Catalog.ext (Dict.ext fun locale => ?_) (locale_ofEdits h.named_of_mem)
    (fallback_ofEdits settings edits)
  -- A table may be empty, so whether it is there and what stands in it are two questions.
  have hlocale : ((ofEdits settings edits).tables.get? locale).isSome ↔
      (tables.get? locale).isSome :=
    (hasLocale_ofEdits settings edits locale).trans (h.locales_iff locale)
  have htexts : ∀ key, ((ofEdits settings edits).table locale).get? key =
      (tables.get? locale).bind (·.get? key) := by
    intro key
    rw [get?_table_ofEdits]
    exact lastText_eq (h.texts_iff locale key)
  change (ofEdits settings edits).tables.get? locale = tables.get? locale
  unfold table at htexts
  cases hwritten : (ofEdits settings edits).tables.get? locale with
  | none =>
      cases htable : tables.get? locale with
      | none =>
          rfl
      | some table =>
          simp [hwritten, htable] at hlocale
  | some written =>
      cases htable : tables.get? locale with
      | none =>
          simp [hwritten, htable] at hlocale
      | some table =>
          simp only [hwritten, htable, Option.getD_some, Option.bind_some] at htexts
          rw [Dict.ext htexts]

/-! ## Table by table, and text by text -/

/-- An edit that writes the table of a locale at once, its texts in whatever order. -/
def WritesTable (entry : String × Dict String) (edit : Edit) : Prop :=
  ∃ texts, texts.Perm entry.2.toList ∧ edit = .insertTable entry.1 texts

/-- Edits that write each table at once, in whatever order. -/
def TableByTable (tables : Dict (Dict String)) (edits : List Edit) : Prop :=
  ∃ entries, entries.Perm tables.toList ∧ List.Forall₂ WritesTable entries edits

/-- Edits that give a table without texts to every locale of the tables. -/
def creations (tables : Dict (Dict String)) : List Edit :=
  tables.keys.map fun locale => .insertTable locale []

/-- Edits that write the texts of the tables one by one. -/
def insertions (tables : Dict (Dict String)) : List Edit :=
  tables.toList.flatMap fun (locale, table) =>
    table.toList.map fun (key, text) => .insert locale key text

deriving instance DecidableEq for Edit

/-- Edits that create each locale and write each text on its own, in whatever order. -/
def TextByText (tables : Dict (Dict String)) (edits : List Edit) : Prop :=
  edits.Perm (creations tables ++ insertions tables)

theorem mem_named_iff {edits : List Edit} {locale : String} :
    locale ∈ named edits ↔ ∃ edit ∈ edits, edit.names = some locale :=
  List.mem_filterMap

theorem mem_log_iff {edits : List Edit} {write : Write} :
    write ∈ log edits ↔ ∃ edit ∈ edits, write ∈ edit.writes :=
  List.mem_flatMap

theorem bind_get?_eq_some_iff {tables : Dict (Dict String)} {locale key text : String} :
    (tables.get? locale).bind (·.get? key) = some text ↔
      ∃ table, (locale, table) ∈ tables.toList ∧ (key, text) ∈ table.toList := by
  simp [Option.bind_eq_some_iff, Dict.mem_toList_iff]

theorem WritesTable.mem_writes_iff {entry : String × Dict String} {edit : Edit} {write : Write} :
    WritesTable entry edit →
      (write ∈ edit.writes ↔ write.locale = entry.1 ∧ (write.key, write.text) ∈ entry.2.toList) := by
  rintro ⟨texts, hperm, rfl⟩
  rw [← hperm.mem_iff, Edit.writes, List.mem_map]
  constructor
  · rintro ⟨text, hmem, rfl⟩
    exact ⟨rfl, hmem⟩
  · rintro ⟨hlocale, hmem⟩
    exact ⟨_, hmem, by rw [← hlocale]⟩

theorem TableByTable.builds {edits : List Edit} {tables : Dict (Dict String)} :
    TableByTable tables edits → Builds edits tables := by
  rintro ⟨entries, hperm, hforall⟩
  -- Each edit has its table and each table its edit, wherever the two stand.
  have hedit : ∀ edit ∈ edits, ∃ entry ∈ tables.toList, WritesTable entry edit := by
    intro edit hmem
    rcases Json.exists_of_forall₂ hforall hmem with ⟨entry, hentry, hwrites⟩
    exact ⟨entry, hperm.mem_iff.1 hentry, hwrites⟩
  have hentry : ∀ entry ∈ tables.toList, ∃ edit ∈ edits, WritesTable entry edit := by
    intro entry hmem
    exact Json.exists_of_forall₂ hforall.flip (hperm.mem_iff.2 hmem)
  refine ⟨?_, fun locale => ?_, fun locale key text => ?_⟩
  · intro edit hmem
    rcases hedit edit hmem with ⟨entry, -, texts, -, rfl⟩
    simp [Edit.names]
  · rw [mem_named_iff, Dict.contains, Dict.isSome_get?_iff, Dict.keys, List.mem_map]
    constructor
    · rintro ⟨edit, hmem, hnames⟩
      rcases hedit edit hmem with ⟨entry, hentry, texts, -, rfl⟩
      exact ⟨entry, hentry, Option.some.inj hnames⟩
    · rintro ⟨entry, hmem, rfl⟩
      rcases hentry entry hmem with ⟨edit, hedit, texts, -, rfl⟩
      exact ⟨_, hedit, rfl⟩
  · rw [mem_log_iff, bind_get?_eq_some_iff]
    constructor
    · rintro ⟨edit, hmem, hwrite⟩
      rcases hedit edit hmem with ⟨⟨_, table⟩, hentry, hwrites⟩
      rcases hwrites.mem_writes_iff.1 hwrite with ⟨rfl, htext⟩
      exact ⟨table, hentry, htext⟩
    · rintro ⟨table, hmem, htext⟩
      rcases hentry _ hmem with ⟨edit, hedit, hwrites⟩
      exact ⟨edit, hedit, hwrites.mem_writes_iff.2 ⟨rfl, htext⟩⟩

theorem mem_insertions_iff {tables : Dict (Dict String)} {edit : Edit} :
    edit ∈ insertions tables ↔ ∃ locale key text, edit = .insert locale key text ∧
      (tables.get? locale).bind (·.get? key) = some text := by
  simp only [insertions, List.mem_flatMap, List.mem_map, bind_get?_eq_some_iff, Prod.exists]
  grind

theorem TextByText.builds {edits : List Edit} {tables : Dict (Dict String)} :
    TextByText tables edits → Builds edits tables := by
  intro h
  have hmem : ∀ edit, edit ∈ edits ↔
      (∃ locale ∈ tables.keys, edit = .insertTable locale []) ∨
        ∃ locale key text, edit = .insert locale key text ∧
          (tables.get? locale).bind (·.get? key) = some text := by
    intro edit
    rw [h.mem_iff, List.mem_append, creations, List.mem_map, mem_insertions_iff]
    simp only [eq_comm]
  refine ⟨?_, fun locale => ?_, fun locale key text => ?_⟩
  · intro edit hedit
    rcases (hmem edit).1 hedit with ⟨locale, -, rfl⟩ | ⟨locale, key, text, rfl, -⟩ <;>
      simp [Edit.names]
  · rw [mem_named_iff, Dict.contains, Dict.isSome_get?_iff]
    constructor
    · rintro ⟨edit, hedit, hnames⟩
      rcases (hmem edit).1 hedit with ⟨other, hkey, rfl⟩ | ⟨other, key, text, rfl, hget⟩
      · cases hnames
        exact hkey
      · cases hnames
        -- A locale with a text has a table.
        rcases Option.bind_eq_some_iff.1 hget with ⟨table, htable, -⟩
        exact (Dict.isSome_get?_iff tables locale).1 (by rw [htable]; rfl)
    · intro hkey
      exact ⟨_, (hmem _).2 (.inl ⟨locale, hkey, rfl⟩), rfl⟩
  · rw [mem_log_iff]
    constructor
    · rintro ⟨edit, hedit, hwrite⟩
      rcases (hmem edit).1 hedit with ⟨other, -, rfl⟩ | ⟨other, otherKey, otherText, rfl, hget⟩
      · cases hwrite
      · cases List.mem_singleton.1 hwrite
        exact hget
    · intro hget
      exact ⟨_, (hmem _).2 (.inr ⟨locale, key, text, rfl, hget⟩), List.mem_cons_self⟩

/-! ## A document of tables -/

section

variable [Library] [Declared]

theorem isSome_tables?_iff {tree : Tree} :
    (tables? tree).isSome ↔ tree.IsObjectOf (Tree.IsObjectOf Tree.IsText) :=
  Json.isSome_dict?_iff fun _ => Json.isSome_dict?_iff fun _ => Json.isSome_text?_iff

/-- A document of tables, with tables and texts in whatever order, is read as the catalog that is left
when the tables are written one after the other, and when the locales are created and the texts are
written one by one, again in whatever order.  This catalog has the locales of the tables, and looks up
keys in them.  Any document but an object of objects of texts is refused. -/
theorem ofTables?_eq_inserts [Faithful] {tables : Dict (Dict String)} {source : Tree}
    (writes : WritesTables tables source) (settings : Settings) :
    let catalog := ofTables settings tables
    ofTables? (Library.write source) settings = some catalog ∧
    (∀ edits, TableByTable tables edits → ofEdits settings edits = catalog) ∧
    (∀ edits, TextByText tables edits → ofEdits settings edits = catalog) ∧
    catalog.locales = tables.keys ∧
    (∀ key, catalog.get? key = ((tables.get? settings.locale).bind (·.get? key)).or
      ((tables.get? settings.fallback).bind (·.get? key))) ∧
    ∀ document, ofTables? document settings = none ↔
      ∀ tree, Library.read? document = some tree →
        ¬ tree.IsObjectOf (Tree.IsObjectOf Tree.IsText) := by
  intro catalog
  rcases writes.conveys with ⟨tree, hreads, htables⟩
  refine ⟨?_, ?_, ?_, locales_eq_keys catalog, fun key => ?_, fun document => ?_⟩
  · have hread : Library.read? (Library.write source) = some tree := hreads
    rw [ofTables?, hread]
    simp [htables, catalog, ofTables]
  · exact fun edits h => h.builds.ofEdits_eq settings
  · exact fun edits h => h.builds.ofEdits_eq settings
  · have htable (locale : String) :
        (catalog.table locale).get? key = (tables.get? locale).bind (·.get? key) := by
      change ((tables.get? locale).getD ∅).get? key = _
      cases tables.get? locale <;> rfl
    rw [get?, htable, htable]
    rfl
  · have hnone : ofTables? document settings = none ↔
        (Library.read? document).bind tables? = none := by
      rw [ofTables?]
      cases (Library.read? document).bind tables? <;> simp
    rw [hnone, Option.bind_eq_none_iff]
    simp only [← isSome_tables?_iff, Option.not_isSome_iff_eq_none]

end

section

attribute [local instance] Json.standard

/-- Tables of which one is empty, in documents and edits of another order, and with a fallback locale
that has no table. -/
theorem ofTables?_eq_inserts_reordered :
    let tables : Dict (Dict String) :=
      .ofList [("de", ∅), ("en", .ofList [("a", "\"1\""), ("b", "")])]
    let settings : Settings := ⟨"tmpl-", "en", "fr"⟩
    let source : Tree :=
      .record [("en", .record [("b", .text ""), ("a", .text "\"1\"")]), ("de", .record [])]
    WritesTables tables source ∧
    ofTables? (Library.write source) settings = some ⟨tables, "en", "fr"⟩ ∧
    ofEdits settings [.insertTable "en" [("b", ""), ("a", "\"1\"")], .insertTable "de" []] =
      ⟨tables, "en", "fr"⟩ ∧
    ofEdits settings [.insertTable "en" [], .insert "en" "b" "", .insertTable "de" [],
      .insert "en" "a" "\"1\""] = ⟨tables, "en", "fr"⟩ := by
  intro tables settings source
  have hen : Json.WritesDict (fun text source => source = .text text)
      (.ofList [("a", "\"1\""), ("b", "")])
      (.record [("b", .text ""), ("a", .text "\"1\"")]) :=
    ⟨[("b", ""), ("a", "\"1\"")], _, by decide, .cons ⟨rfl, rfl⟩ (.cons ⟨rfl, rfl⟩ .nil), rfl⟩
  have hde : Json.WritesDict (fun text source => source = .text text) ∅ (.record []) :=
    ⟨[], [], by decide, .nil, rfl⟩
  have hwrites : WritesTables tables source :=
    ⟨[("en", .ofList [("a", "\"1\""), ("b", "")]), ("de", ∅)], _, by decide,
      .cons ⟨rfl, hen⟩ (.cons ⟨rfl, hde⟩ .nil), rfl⟩
  rcases ofTables?_eq_inserts hwrites settings with ⟨hloaded, htables, htexts, -⟩
  refine ⟨hwrites, hloaded, htables _ ?_, htexts _ ?_⟩
  · exact ⟨[("en", .ofList [("a", "\"1\""), ("b", "")]), ("de", ∅)], by decide,
      .cons ⟨_, by decide, rfl⟩ (.cons ⟨_, by decide, rfl⟩ .nil)⟩
  · unfold TextByText
    decide

end

end Catalog
end Stencil
