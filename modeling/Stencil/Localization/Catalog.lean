import Stencil.Dict.Lemmas
import Stencil.Localization.Localizer
import Stencil.Settings

/-!
# Catalogs — tables of texts for several locales

A key is looked up in the table of the active locale, then in that of the fallback locale.  Only a
locale with a table can be chosen; the one configured at the start needs none.
-/

namespace Stencil

/-- Tables of texts by locale and key, with an active locale and one to fall back to. -/
@[ext] structure Catalog where
  tables : Dict (Dict String)
  locale : String
  fallback : String
  deriving DecidableEq

namespace Catalog

/-- No tables, with the locales of the settings. -/
def ofSettings (settings : Settings) : Catalog :=
  ⟨∅, settings.locale, settings.fallback⟩

/-- No tables, with the default locales. -/
def empty : Catalog := ofSettings {}

instance : EmptyCollection Catalog := ⟨empty⟩
instance : Inhabited Catalog := ⟨empty⟩

/-- The table of a locale; one that was never written is empty. -/
def table (catalog : Catalog) (locale : String) : Dict String :=
  (catalog.tables.get? locale).getD ∅

/-- Writes the text of a key in a locale. -/
def insert (catalog : Catalog) (locale key text : String) : Catalog :=
  { catalog with
    tables := catalog.tables.insert locale ((catalog.table locale).insert key text) }

/-- Writes the texts of a list in a locale, which has a table from then on even if the list is
empty. -/
def insertTable (catalog : Catalog) (locale : String)
    (entries : List (String × String)) : Catalog :=
  { catalog with
    tables := catalog.tables.insert locale ((catalog.table locale).insertAll entries) }

/-- Whether a locale has a table. -/
def hasLocale (catalog : Catalog) (locale : String) : Bool :=
  catalog.tables.contains locale

/-- The locales with a table, collected and then sorted. -/
def locales (catalog : Catalog) : List String := catalog.tables.keys.mergeSort

theorem pairwise_keys_le (dict : Dict (Dict String)) : dict.keys.Pairwise (· ≤ ·) :=
  dict.keys_pairwise.imp Std.le_of_lt

/-- The tables are kept in the order of their locales, so that there is nothing left to sort. -/
theorem locales_eq_keys (catalog : Catalog) : catalog.locales = catalog.tables.keys :=
  List.mergeSort_of_pairwise ((pairwise_keys_le catalog.tables).imp decide_eq_true)

/-- The locales come out alike in whatever order the tables are listed before they are sorted. -/
theorem mergeSort_eq_locales {catalog : Catalog} {listing : List String} :
    listing.Perm catalog.tables.keys → listing.mergeSort = catalog.locales := by
  intro same
  have sorted : listing.mergeSort.Pairwise (· ≤ ·) := by
    refine (List.pairwise_mergeSort ?_ ?_ listing).imp of_decide_eq_true
    · simpa using fun first second third => @Std.le_trans String _ _ first second third
    · simpa using fun first second => @Std.le_total String _ _ first second
  rw [locales_eq_keys]
  exact ((List.mergeSort_perm _ _).trans same).eq_of_pairwise
    (fun _ _ _ _ => Std.le_antisymm) sorted (pairwise_keys_le catalog.tables)

/-- Makes a locale the active one if it has a table, and tells whether it has. -/
def setLocale (catalog : Catalog) (locale : String) : Catalog × Bool :=
  if catalog.hasLocale locale then
    ({ catalog with locale := locale }, true)
  else
    (catalog, false)

theorem tables_setLocale (catalog : Catalog) (locale : String) :
    (catalog.setLocale locale).1.tables = catalog.tables := by
  unfold setLocale
  split <;> rfl

theorem fallback_setLocale (catalog : Catalog) (locale : String) :
    (catalog.setLocale locale).1.fallback = catalog.fallback := by
  unfold setLocale
  split <;> rfl

/-- A locale that is chosen gives way again to the one before, if that has a table. -/
theorem setLocale_setLocale {catalog : Catalog} (locale : String)
    (known : catalog.hasLocale catalog.locale) :
    (catalog.setLocale locale).1.setLocale catalog.locale = (catalog, true) := by
  by_cases found : catalog.hasLocale locale <;>
    simp_all [setLocale, hasLocale]

/-- The text of a key in the active locale, else in the fallback locale. -/
def get? (catalog : Catalog) (key : String) : Option String :=
  ((catalog.table catalog.locale).get? key).or
    ((catalog.table catalog.fallback).get? key)

/-- What stands before a key that has no text. -/
def missing : String := "###TRANSLATION_MISSING###:"

/-- The text of a key, or a visible placeholder for it. -/
def textOf (catalog : Catalog) (key : String) : String :=
  (catalog.get? key).getD (missing ++ key)

/-- The keys with a text in the active or the fallback locale. -/
def knownKeys (catalog : Catalog) : List String :=
  ((catalog.table catalog.locale).keys ++
    (catalog.table catalog.fallback).keys).eraseDups

/-- A key without a text in either locale is given the placeholder. -/
theorem textOf_of_not_mem {catalog : Catalog} {key : String}
    (h : key ∉ catalog.knownKeys) : catalog.textOf key = missing ++ key := by
  simp only [knownKeys, List.mem_eraseDups, List.mem_append, ← Dict.isSome_get?_iff, not_or,
    Bool.not_eq_true, Option.isSome_eq_false_iff, Option.isNone_iff_eq_none] at h
  simp [textOf, get?, h.1, h.2]

/-- A placeholder has no closing brace unless its key has, so it refers to nothing. -/
theorem keys_placeholder {key : String} (valid : Argument.Valid key.toList) :
    Reference.keys (missing ++ key).toList = [] := by
  refine List.eq_nil_iff_forall_not_mem.2 fun later mem => ?_
  obtain ⟨_, before, behind, whole⟩ := Reference.exists_of_mem_keys mem
  have brace : '}' ∈ (missing ++ key).toList := by
    rw [whole]
    simp [Reference.written, Argument.written, Argument.close]
  rw [String.toList_append, List.mem_append] at brace
  rcases brace with inMissing | inKey
  · exact absurd inMissing (by decide)
  · exact valid.2 inKey

/-- Keys with a text can each stand once inside one another, and one without can stand in the
innermost of them. -/
instance : Localizer Catalog where
  textOf := textOf
  nesting catalog _ := catalog.knownKeys.length + 1
  enough catalog text := by
    refine Reference.isSome_expand? catalog.knownKeys (fun key reached => ?_) ?_
    · by_cases isKnown : key ∈ catalog.knownKeys
      · exact .inl isKnown
      · refine .inr ?_
        rw [textOf_of_not_mem isKnown]
        exact keys_placeholder reached.valid
    · exact Nat.lt_succ_of_le (List.length_filter_le ..)

end Catalog
end Stencil
