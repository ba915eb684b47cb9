import Mathlib.Data.List.Induction
import Stencil.Localization.Catalog

/-!
# Write logs — what any sequence of edits leaves in a catalog

The edits of a catalog are written down one after the other.  The log tells which locales have a
table, which of them is active, and what the text of a key is: the one that was written last.

* `Catalog.Edit`, `Catalog.ofEdits` — edits, and the catalog that a sequence of them leaves;
* `Catalog.named` — the locales that were given a table;
* `Catalog.Switch`, `Catalog.Active` — a switch to a locale that had a table, and the latest of them;
* `Catalog.Write`, `Catalog.log`, `Catalog.lastText` — the texts written, in order;
* `Catalog.hasLocale_edit`, `Catalog.get?_table_edit` — what one edit does to the tables;
* `Catalog.ofEdits_reads_log` — a catalog answers what its log tells;
* `Catalog.setLocale_answers` — what a switch answers, and when that tells whether the locale is
  active.
-/

namespace Stencil

/-- An item of a list with one more at its end is that one, or an item of the list before. -/
theorem split_concat_iff {α : Type} {items before after : List α} {last item : α} :
    items ++ [last] = before ++ item :: after ↔
      (before = items ∧ item = last ∧ after = []) ∨
        ∃ front, after = front ++ [last] ∧ items = before ++ item :: front := by
  constructor
  · intro hsplit
    rcases after.eq_nil_or_concat with rfl | ⟨front, final, rfl⟩
    · rcases List.append_inj' hsplit rfl with ⟨rfl, hlast⟩
      exact .inl ⟨rfl, (List.singleton_inj.1 hlast).symm, rfl⟩
    · rw [List.concat_eq_append, ← List.cons_append, ← List.append_assoc] at hsplit
      rcases List.append_inj' hsplit rfl with ⟨hitems, hlast⟩
      obtain rfl := List.singleton_inj.1 hlast
      exact .inr ⟨front, List.concat_eq_append, hitems⟩
  · rintro (⟨rfl, rfl, rfl⟩ | ⟨front, rfl, rfl⟩) <;> simp

namespace Catalog

/-! ## Edits -/

/-- An edit of a catalog. -/
inductive Edit where
  | insert (locale key text : String)
  | insertTable (locale : String) (entries : List (String × String))
  | setLocale (locale : String)

/-- A catalog after an edit. -/
def edit (catalog : Catalog) : Edit → Catalog
  | .insert locale key text => catalog.insert locale key text
  | .insertTable locale entries => catalog.insertTable locale entries
  | .setLocale locale => (catalog.setLocale locale).1

/-- The catalog that edits leave, made one after the other from the locales of the settings on. -/
def ofEdits (settings : Settings) (edits : List Edit) : Catalog :=
  edits.foldl edit (ofSettings settings)

theorem ofEdits_concat (settings : Settings) (edits : List Edit) (last : Edit) :
    ofEdits settings (edits ++ [last]) = (ofEdits settings edits).edit last := by
  simp [ofEdits]

/-- Edits leave the locale to fall back to. -/
theorem fallback_edit (catalog : Catalog) (last : Edit) :
    (catalog.edit last).fallback = catalog.fallback := by
  cases last with
  | insert locale key text => rfl
  | insertTable locale entries => rfl
  | setLocale locale => exact fallback_setLocale _ locale

theorem fallback_ofEdits (settings : Settings) (edits : List Edit) :
    (ofEdits settings edits).fallback = settings.fallback := by
  induction edits using List.reverseRecOn with
  | nil => rfl
  | append_singleton edits last ih => rw [ofEdits_concat, fallback_edit, ih]

/-! ## Locales with a table -/

/-- The locale that an edit writes to. -/
def Edit.names : Edit → Option String
  | .insert locale _ _ => some locale
  | .insertTable locale _ => some locale
  | .setLocale _ => none

/-- The locales that edits write to. -/
def named (edits : List Edit) : List String :=
  edits.filterMap Edit.names

/-- Writing into tables leaves the active locale. -/
theorem locale_edit (catalog : Catalog) {last : Edit} :
    last.names ≠ none → (catalog.edit last).locale = catalog.locale := by
  intro h
  cases last with
  | insert locale key text => rfl
  | insertTable locale entries => rfl
  | setLocale locale => exact absurd rfl h

theorem named_concat (edits : List Edit) (last : Edit) :
    named (edits ++ [last]) = named edits ++ last.names.toList := by
  cases h : last.names <;> simp [named, h]

/-- An edit gives a table to the locale it writes to. -/
theorem hasLocale_edit (catalog : Catalog) (last : Edit) (locale : String) :
    (catalog.edit last).hasLocale locale ↔
      catalog.hasLocale locale ∨ locale ∈ last.names.toList := by
  cases last with
  | insert written key text =>
      by_cases h : locale = written <;>
        simp [edit, insert, hasLocale, Dict.contains, Dict.get?_insert, Edit.names, h]
  | insertTable written entries =>
      by_cases h : locale = written <;>
        simp [edit, insertTable, hasLocale, Dict.contains, Dict.get?_insert, Edit.names, h]
  | setLocale chosen =>
      simp [edit, hasLocale, tables_setLocale, Edit.names]

theorem hasLocale_ofEdits (settings : Settings) (edits : List Edit) (locale : String) :
    (ofEdits settings edits).hasLocale locale ↔ locale ∈ named edits := by
  induction edits using List.reverseRecOn with
  | nil =>
      have hnone : (ofEdits settings []).hasLocale locale = false := rfl
      simp [hnone, named]
  | append_singleton edits last ih =>
      rw [ofEdits_concat, hasLocale_edit, ih, named_concat, List.mem_append]

theorem mem_locales_iff (catalog : Catalog) (locale : String) :
    locale ∈ catalog.locales ↔ catalog.hasLocale locale := by
  rw [locales_eq_keys]
  exact (Dict.isSome_get?_iff catalog.tables locale).symm

/-! ## The active locale -/

/-- Behind the first edits stands a switch to a locale that one of them has given a table. -/
def Switch (edits before : List Edit) (locale : String) : Prop :=
  ∃ after, edits = before ++ .setLocale locale :: after ∧ locale ∈ named before

/-- The locale of the latest switch to one that had a table; without any, the one at the start. -/
def Active (start : String) (edits : List Edit) (locale : String) : Prop :=
  (∃ before, Switch edits before locale ∧
    ∀ earlier other, Switch edits earlier other → earlier <+: before) ∨
  (∀ before other, ¬ Switch edits before other) ∧ locale = start

theorem switch_concat_iff {edits before : List Edit} {last : Edit} {locale : String} :
    Switch (edits ++ [last]) before locale ↔
      Switch edits before locale ∨
        before = edits ∧ last = .setLocale locale ∧ locale ∈ named edits := by
  constructor
  · rintro ⟨after, hsplit, hnamed⟩
    rcases split_concat_iff.1 hsplit with ⟨rfl, hlast, -⟩ | ⟨front, -, hedits⟩
    · exact .inr ⟨rfl, hlast.symm, hnamed⟩
    · exact .inl ⟨front, hedits, hnamed⟩
  · rintro (⟨after, rfl, hnamed⟩ | ⟨rfl, rfl, hnamed⟩)
    · exact ⟨after ++ [last], by simp, hnamed⟩
    · exact ⟨[], rfl, hnamed⟩

/-- A switch to a locale with a table is the latest one when it is made. -/
theorem active_concat_switch {start locale : String} {edits : List Edit} :
    locale ∈ named edits → Active start (edits ++ [.setLocale locale]) locale := by
  intro hnamed
  refine .inl ⟨edits, switch_concat_iff.2 (.inr ⟨rfl, rfl, hnamed⟩), ?_⟩
  intro earlier other hswitch
  rcases switch_concat_iff.1 hswitch with ⟨after, rfl, _⟩ | ⟨rfl, _, _⟩
  · exact List.prefix_append _ _
  · exact List.prefix_refl _

/-- Any other edit leaves the active locale as it was. -/
theorem active_concat_iff {start locale : String} {edits : List Edit} {last : Edit}
    (other : ∀ chosen, last = .setLocale chosen → chosen ∉ named edits) :
    Active start (edits ++ [last]) locale ↔ Active start edits locale := by
  have hsame : ∀ before chosen, Switch (edits ++ [last]) before chosen ↔
      Switch edits before chosen := by
    intro before chosen
    rw [switch_concat_iff, or_iff_left]
    rintro ⟨_, hlast, hnamed⟩
    exact other chosen hlast hnamed
  simp only [Active, hsame]

theorem active_ofEdits (settings : Settings) (edits : List Edit) :
    Active settings.locale edits (ofEdits settings edits).locale := by
  induction edits using List.reverseRecOn with
  | nil =>
      refine .inr ⟨?_, rfl⟩
      rintro before other ⟨after, hsplit, _⟩
      simp at hsplit
  | append_singleton edits last ih =>
      rw [ofEdits_concat]
      cases last with
      | insert locale key text => exact (active_concat_iff (by simp)).2 ih
      | insertTable locale entries => exact (active_concat_iff (by simp)).2 ih
      | setLocale locale =>
          by_cases h : (ofEdits settings edits).hasLocale locale
          · have hlocale : ((ofEdits settings edits).edit (.setLocale locale)).locale = locale := by
              simp [edit, setLocale, h]
            rw [hlocale]
            exact active_concat_switch ((hasLocale_ofEdits settings edits locale).1 h)
          · have hlocale : (ofEdits settings edits).edit (.setLocale locale) =
                ofEdits settings edits := by
              simp [edit, setLocale, h]
            rw [hlocale, active_concat_iff]
            · exact ih
            · rintro _ ⟨⟩ hnamed
              exact h ((hasLocale_ofEdits settings edits locale).2 hnamed)

/-! ## Texts -/

/-- A text that is written under a key in a locale. -/
structure Write where
  locale : String
  key : String
  text : String
  deriving DecidableEq

/-- The texts that an edit writes. -/
def Edit.writes : Edit → List Write
  | .insert locale key text => [⟨locale, key, text⟩]
  | .insertTable locale entries => entries.map fun entry => ⟨locale, entry.1, entry.2⟩
  | .setLocale _ => []

/-- The texts that edits write, in order. -/
def log (edits : List Edit) : List Write :=
  edits.flatMap Edit.writes

/-- The text that was written last under a key in a locale. -/
def lastText (writes : List Write) (locale key : String) : Option String :=
  ((writes.filter fun write => write.locale = locale ∧ write.key = key).getLast?).map Write.text

theorem lastText_append (writes more : List Write) (locale key : String) :
    lastText (writes ++ more) locale key =
      (lastText more locale key).or (lastText writes locale key) := by
  simp [lastText, List.getLast?_append, Option.map_or]

theorem lastText_concat_edit (edits : List Edit) (last : Edit) (locale key : String) :
    lastText (log (edits ++ [last])) locale key =
      (lastText last.writes locale key).or (lastText (log edits) locale key) := by
  rw [← lastText_append]
  simp [log]

/-- A table writes its entries in one locale, and nothing in another one. -/
theorem lastText_insertTable (written locale key : String) (entries : List (String × String)) :
    lastText (Edit.insertTable written entries).writes locale key =
      if locale = written then ((entries.filter (·.1 = key)).getLast?).map Prod.snd else none := by
  unfold lastText Edit.writes
  rw [List.filter_map, List.getLast?_map, Option.map_map]
  by_cases h : locale = written
  · simp [h, Function.comp_def]
  · simp [Ne.symm h, h, Function.comp_def]

/-- An edit writes its texts into the table of its locale and nothing into another one. -/
theorem get?_table_edit (catalog : Catalog) (last : Edit) (locale key : String) :
    ((catalog.edit last).table locale).get? key =
      (lastText last.writes locale key).or ((catalog.table locale).get? key) := by
  cases last with
  | insert written writtenKey text =>
      by_cases hlocale : locale = written
      · subst hlocale
        by_cases hkey : key = writtenKey <;>
          simp [edit, insert, table, Dict.get?_insert, Edit.writes, lastText, hkey, Ne.symm]
      · simp [edit, insert, table, Dict.get?_insert, Edit.writes, lastText, hlocale,
          Ne.symm hlocale]
  | insertTable written entries =>
      rw [lastText_insertTable]
      by_cases hlocale : locale = written
      · subst hlocale
        rw [if_pos rfl, ← Dict.get?_insertAll]
        simp [edit, insertTable, table, Dict.get?_insert]
      · simp [edit, insertTable, table, Dict.get?_insert, hlocale]
  | setLocale chosen =>
      simp [edit, table, tables_setLocale, Edit.writes, lastText]

theorem get?_table_ofEdits (settings : Settings) (edits : List Edit) (locale key : String) :
    ((ofEdits settings edits).table locale).get? key = lastText (log edits) locale key := by
  induction edits using List.reverseRecOn with
  | nil => rfl
  | append_singleton edits last ih =>
      rw [ofEdits_concat, get?_table_edit, ih, lastText_concat_edit]

/-- After any edits, the locales with a table are those that were written to, the active one is that
of the latest switch to one of them, and the text of a key is the one written last in the active
locale, else the one written last in the fallback locale. -/
theorem ofEdits_reads_log (settings : Settings) (edits : List Edit) :
    let catalog := ofEdits settings edits
    (∀ locale, catalog.hasLocale locale ↔ ∃ edit ∈ edits, edit.names = some locale) ∧
    (∀ locale, locale ∈ catalog.locales ↔ ∃ edit ∈ edits, edit.names = some locale) ∧
    catalog.locales.Pairwise (· < ·) ∧
    Active settings.locale edits catalog.locale ∧
    catalog.fallback = settings.fallback ∧
    ∀ key,
      let text := (lastText (log edits) catalog.locale key).or
        (lastText (log edits) settings.fallback key)
      catalog.get? key = text ∧
        catalog.textOf key = text.getD ("###TRANSLATION_MISSING###:" ++ key) := by
  intro catalog
  have hfallback := fallback_ofEdits settings edits
  have hnamed : ∀ locale, catalog.hasLocale locale ↔
      ∃ edit ∈ edits, edit.names = some locale := by
    intro locale
    rw [hasLocale_ofEdits, named, List.mem_filterMap]
  have hget : ∀ key, catalog.get? key = (lastText (log edits) catalog.locale key).or
      (lastText (log edits) settings.fallback key) := by
    intro key
    rw [get?, get?_table_ofEdits, hfallback, get?_table_ofEdits]
  refine ⟨hnamed, ?_, locales_eq_keys _ ▸ Dict.keys_pairwise _, active_ofEdits settings edits, hfallback, ?_⟩
  · intro locale
    rw [mem_locales_iff, hnamed]
  · intro key text
    refine ⟨hget key, ?_⟩
    rw [textOf, hget]
    rfl

example :
    let catalog := ofEdits ⟨"tmpl-", "de", "en"⟩ [.setLocale "fr", .insertTable "fr" [],
      .insertTable "en" [("a", "1"), ("a", "2")], .setLocale "fr", .insert "fr" "b" "3",
      .setLocale "it", .insert "de" "a" "4"]
    (catalog.locale, catalog.locales, catalog.get? "a", catalog.get? "b", catalog.get? "c") =
      ("fr", ["de", "en", "fr"], some "2", some "3", none) := by
  simp only [locales_eq_keys]
  decide

/-! ## The answer to a switch -/

/-- The configured locale is still active, and nothing was written to it. -/
def Unwritten (settings : Settings) (edits : List Edit) (locale : String) : Prop :=
  locale = settings.locale ∧ (∀ edit ∈ edits, edit.names ≠ some locale) ∧
    ∀ before other, ¬ Switch edits before other

/-- A locale that is active without a table is the configured one, and was never given up. -/
theorem locale_ofEdits_iff {settings : Settings} {edits : List Edit} {locale : String} :
    locale ∉ named edits →
      ((ofEdits settings edits).locale = locale ↔ Unwritten settings edits locale) := by
  intro hnamed
  have hwritten : ∀ edit ∈ edits, edit.names ≠ some locale := by
    intro edit hmem hnames
    exact hnamed (List.mem_filterMap.2 ⟨edit, hmem, hnames⟩)
  have hactive := active_ofEdits settings edits
  generalize (ofEdits settings edits).locale = active at hactive ⊢
  rcases hactive with ⟨before, hswitch, -⟩ | ⟨hnone, rfl⟩
  · rcases hswitch with ⟨after, rfl, hbefore⟩
    -- The locale of a switch has had a table since.
    have hmem : active ∈ named (before ++ .setLocale active :: after) := by
      rw [named, List.filterMap_append]
      exact List.mem_append_left _ hbefore
    constructor
    · rintro rfl
      exact absurd hmem hnamed
    · rintro ⟨-, -, hnone⟩
      exact absurd ⟨after, rfl, hbefore⟩ (hnone before active)
  · exact ⟨fun h => ⟨h.symm, hwritten, hnone⟩, fun h => h.1.symm⟩

/-- After any edits, a switch answers whether the locale was written to.  The locale is active then, and
it is also if it is the configured one that was neither written to nor given up.  So the answer tells
whether the locale is active now but in that case, where it is no. -/
theorem setLocale_answers (settings : Settings) (edits : List Edit) (locale : String) :
    let switch := (ofEdits settings edits).setLocale locale
    (switch.2 ↔ ∃ edit ∈ edits, edit.names = some locale) ∧
    (switch.1.locale = locale ↔ switch.2 ∨ Unwritten settings edits locale) ∧
    ((switch.2 ↔ switch.1.locale = locale) ↔ ¬ Unwritten settings edits locale) := by
  intro switch
  have hnamed : locale ∈ named edits ↔ ∃ edit ∈ edits, edit.names = some locale :=
    List.mem_filterMap
  by_cases h : locale ∈ named edits
  · have hswitch : switch = ({ ofEdits settings edits with locale := locale }, true) :=
      if_pos ((hasLocale_ofEdits settings edits locale).2 h)
    have hwritten : ¬ Unwritten settings edits locale := by
      rintro ⟨-, hnever, -⟩
      rcases hnamed.1 h with ⟨edit, hmem, hnames⟩
      exact hnever edit hmem hnames
    simp [hswitch, hwritten, ← hnamed, h]
  · have hswitch : switch = (ofEdits settings edits, false) :=
      if_neg (mt (hasLocale_ofEdits settings edits locale).1 h)
    simp [hswitch, locale_ofEdits_iff h, ← hnamed, h]

/-- The default locale is active from the start, and a switch to it answers no. -/
theorem setLocale_answers_no :
    let switch := (ofEdits {} []).setLocale "en"
    (switch.1.locale, switch.2) = ("en", false) ∧ ¬ (switch.2 ↔ switch.1.locale = "en") := by
  decide

end Catalog
end Stencil
