import Mathlib.Data.List.Induction
import Mathlib.Data.Set.Card
import Mathlib.Data.Set.Finite.Lattice
import Stencil.Localization.Catalog

/-!
# Nesting — how many texts of keys can stand inside one another

While a text is expanded, the text of a key may refer to further keys, whose texts are expanded
inside it.  No key stands inside itself, so such a chain of keys ends when the keys in reach are used
up.  A limit on the depth that no chain exceeds makes no difference to the result.

* `Reference.Nested` — the chains of keys whose texts stand inside one another;
* `Reference.isSome_expand?_iff` — a limit is enough exactly when no chain is longer;
* `Reference.expand?_mono` — a higher limit changes no result;
* `Reference.finite_reaches_iff` — expansion ends exactly when finitely many keys come up;
* `localize_terminates` — so it ends for every catalog, however its texts refer to one another.
-/

namespace Stencil
namespace Reference

variable {textOf : String → String}

/-! ## Chains of keys -/

/-- A chain of keys whose texts stand inside one another when a text is expanded: the text refers to
the first key and the text of each key to the next one, and none of them is active already. -/
inductive Nested (textOf : String → String) : List String → List Char → List String → Prop where
  | nil {active : List String} {text : List Char} : Nested textOf active text []
  | cons {active : List String} {text : List Char} {key : String} {chain : List String} :
      key ∈ keys text → key ∉ active → Nested textOf (key :: active) (textOf key).toList chain →
        Nested textOf active text (key :: chain)

namespace Nested

theorem not_active {active chain : List String} {text : List Char} {key : String} :
    Nested textOf active text chain → key ∈ chain → key ∉ active := by
  intro h
  induction h with
  | nil =>
      intro hmem
      cases hmem
  | cons hrefers hnew _ ih =>
      intro hmem hactive
      rcases List.mem_cons.1 hmem with rfl | hlater
      · exact hnew hactive
      · exact ih hlater (List.mem_cons_of_mem _ hactive)

/-- No key stands inside itself. -/
theorem nodup {active chain : List String} {text : List Char} :
    Nested textOf active text chain → chain.Nodup := by
  intro h
  induction h with
  | nil =>
      exact List.nodup_nil
  | cons _ _ hinner ih =>
      exact List.nodup_cons.2 ⟨fun hmem => hinner.not_active hmem List.mem_cons_self, ih⟩

theorem reaches {active chain : List String} {text : List Char} :
    Nested textOf active text chain → ∀ key ∈ chain, Reaches textOf text key := by
  intro h
  induction h with
  | nil =>
      intro key hmem
      cases hmem
  | cons hrefers _ _ ih =>
      intro key hmem
      rcases List.mem_cons.1 hmem with rfl | hlater
      · exact .direct hrefers
      · exact (Reaches.direct hrefers).trans (ih key hlater)

/-- A chain has no more keys than come up at all. -/
theorem length_le {active chain : List String} {text : List Char}
    (finite : {key | Reaches textOf text key}.Finite) :
    Nested textOf active text chain → chain.length ≤ {key | Reaches textOf text key}.ncard := by
  intro h
  calc
    chain.length = chain.toFinset.card := (List.toFinset_card_of_nodup h.nodup).symm
    _ = (chain.toFinset : Set String).ncard := (Set.ncard_coe_finset chain.toFinset).symm
    _ ≤ {key | Reaches textOf text key}.ncard := by
          apply Set.ncard_le_ncard _ finite
          intro key hmem
          exact h.reaches key (by simpa using hmem)

/-- A chain goes on with any key that the text of its last one refers to, unless it has that key
already. -/
theorem extend {active front : List String} {text : List Char} {key later : String} :
    Nested textOf active text (front ++ [key]) → later ∈ keys (textOf key).toList →
      later ∉ active → later ∉ front ++ [key] →
        Nested textOf active text (front ++ [key] ++ [later]) := by
  intro h hrefers hnew hfresh
  induction front generalizing active text with
  | nil =>
      cases h with
      | cons hfirst hfirstNew hinner =>
          have hother : later ∉ key :: active := by simp_all
          exact .cons hfirst hfirstNew (.cons hrefers hother .nil)
  | cons first front ih =>
      cases h with
      | cons hfirst hfirstNew hinner =>
          exact .cons hfirst hfirstNew (ih hinner (by simp_all) (by simp_all))

theorem of_append {active front back : List String} {text : List Char} :
    Nested textOf active text (front ++ back) → Nested textOf active text front := by
  intro h
  induction front generalizing active text with
  | nil =>
      exact .nil
  | cons first front ih =>
      cases h with
      | cons hfirst hnew hinner => exact .cons hfirst hnew (ih hinner)

end Nested

/-- Every key that comes up is the last one of a chain. -/
theorem Reaches.exists_nested {text : List Char} {key : String} :
    Reaches textOf text key → ∃ front, Nested textOf [] text (front ++ [key]) := by
  intro h
  induction h with
  | direct hrefers =>
      exact ⟨[], .cons hrefers List.not_mem_nil .nil⟩
  | through _ hrefers ih =>
      rename_i last later _
      rcases ih with ⟨front, hchain⟩
      by_cases hseen : later ∈ front ++ [last]
      · -- The chain has come past this key before, and is cut off behind it.
        rcases List.append_of_mem hseen with ⟨before, behind, hsplit⟩
        rw [hsplit, List.append_cons] at hchain
        exact ⟨before, hchain.of_append⟩
      · exact ⟨front ++ [last], hchain.extend hrefers List.not_mem_nil hseen⟩

/-! ## Limits -/

/-- A reference is expanded in front of the pieces behind it. -/
theorem expandPieces?_mark_eq_some_iff {expandKey? : String → Option (List Char)}
    {active : List String} {reference : Reference} {parts : List (Piece Reference)}
    {out : List Char} :
    expandPieces? expandKey? active (.mark reference :: parts) = some out ↔
      ∃ here behind,
        (if reference.key ∈ active then some reference.written else expandKey? reference.key) =
          some here ∧
        expandPieces? expandKey? active parts = some behind ∧ here ++ behind = out := by
  by_cases h : reference.key ∈ active <;>
    simp [expandPieces?, h, Option.bind_eq_some_iff]

theorem isSome_expandPieces?_iff {expandKey? : String → Option (List Char)}
    {active : List String} {parts : List (Piece Reference)} :
    (expandPieces? expandKey? active parts).isSome ↔
      ∀ key, Piece.mark ⟨key⟩ ∈ parts → key ∉ active → (expandKey? key).isSome := by
  refine ⟨fun h => ?_, isSome_expandPieces?⟩
  induction parts with
  | nil =>
      simp
  | cons piece parts ih =>
      cases piece with
      | literal run =>
          have hrest : (expandPieces? expandKey? active parts).isSome := by
            simpa [expandPieces?] using h
          simpa using ih hrest
      | mark reference =>
          intro key hmem hnew
          rcases Option.isSome_iff_exists.1 h with ⟨out, hout⟩
          rcases expandPieces?_mark_eq_some_iff.1 hout with ⟨here, behind, hhere, hbehind, -⟩
          rcases List.mem_cons.1 hmem with hsame | hlater
          · cases hsame
            rw [if_neg hnew] at hhere
            simp [hhere]
          · exact ih (by simp [hbehind]) key hlater hnew

/-- A limit is enough exactly when no chain of keys is longer. -/
theorem isSome_expand?_iff {limit : Nat} {active : List String} {text : List Char} :
    (expand? textOf limit active text).isSome ↔
      ∀ chain, Nested textOf active text chain → chain.length ≤ limit := by
  induction limit generalizing active text with
  | zero =>
      rw [expand?, isSome_expandPieces?_iff]
      constructor
      · intro h chain hchain
        cases hchain with
        | nil => exact Nat.le_refl 0
        | cons hrefers hnew _ => simpa using h _ (mem_keys.1 hrefers) hnew
      · intro h key hmem hnew
        have := h [key] (.cons (mem_keys.2 hmem) hnew .nil)
        simp at this
  | succ limit ih =>
      rw [expand?, isSome_expandPieces?_iff]
      constructor
      · intro h chain hchain
        cases hchain with
        | nil => exact Nat.zero_le _
        | cons hrefers hnew hinner =>
            exact Nat.succ_le_succ (ih.1 (h _ (mem_keys.1 hrefers) hnew) _ hinner)
      · intro h key hmem hnew
        apply ih.2
        intro chain hchain
        exact Nat.le_of_succ_le_succ (h (key :: chain) (.cons (mem_keys.2 hmem) hnew hchain))

/-- Pieces are expanded alike by anything that expands their keys alike. -/
theorem expandPieces?_mono {expandKey? other? : String → Option (List Char)}
    {active : List String} {parts : List (Piece Reference)} {out : List Char}
    (agree : ∀ key here, expandKey? key = some here → other? key = some here) :
    expandPieces? expandKey? active parts = some out →
      expandPieces? other? active parts = some out := by
  intro h
  induction parts generalizing out with
  | nil =>
      exact h
  | cons piece parts ih =>
      cases piece with
      | literal run =>
          rcases Option.map_eq_some_iff.1 h with ⟨behind, hbehind, rfl⟩
          simp [expandPieces?, ih hbehind]
      | mark reference =>
          rcases expandPieces?_mark_eq_some_iff.1 h with ⟨here, behind, hhere, hbehind, hout⟩
          refine expandPieces?_mark_eq_some_iff.2 ⟨here, behind, ?_, ih hbehind, hout⟩
          by_cases hactive : reference.key ∈ active
          · simpa [hactive] using hhere
          · rw [if_neg hactive] at hhere ⊢
            exact agree _ _ hhere

/-- A higher limit changes no result. -/
theorem expand?_mono {limit more : Nat} {active : List String} {text out : List Char} :
    limit ≤ more → expand? textOf limit active text = some out →
      expand? textOf more active text = some out := by
  intro hle h
  induction limit generalizing more active text out with
  | zero =>
      cases more with
      | zero => exact h
      | succ more => exact expandPieces?_mono (fun _ _ hnone => by cases hnone) h
  | succ limit ih =>
      cases more with
      | zero => cases hle
      | succ more =>
          exact expandPieces?_mono (fun _ _ hhere => ih (Nat.le_of_succ_le_succ hle) hhere) h

/-! ## When expansion ends -/

/-- Chains of bounded length have finitely many keys, because a text refers to finitely many. -/
theorem finite_nested {limit : Nat} {active : List String} {text : List Char} :
    (∀ chain, Nested textOf active text chain → chain.length ≤ limit) →
      {key | ∃ chain, Nested textOf active text chain ∧ key ∈ chain}.Finite := by
  intro h
  induction limit generalizing active text with
  | zero =>
      apply Set.finite_empty.subset
      rintro key ⟨chain, hchain, hmem⟩
      have := h chain hchain
      simp_all
  | succ limit ih =>
      have hinner : ∀ key ∈ {key | key ∈ keys text ∧ key ∉ active},
          (insert key {later | ∃ chain,
            Nested textOf (key :: active) (textOf key).toList chain ∧ later ∈ chain}).Finite := by
        rintro key ⟨hrefers, hnew⟩
        refine (ih fun chain hchain => ?_).insert key
        exact Nat.le_of_succ_le_succ (h (key :: chain) (.cons hrefers hnew hchain))
      have hkeys : {key | key ∈ keys text ∧ key ∉ active}.Finite :=
        (List.finite_toSet (keys text)).subset fun key hkey => hkey.1
      refine (hkeys.biUnion hinner).subset ?_
      rintro key ⟨chain, hchain, hmem⟩
      cases hchain with
      | nil => cases hmem
      | cons hrefers hnew hchain =>
          rename_i first chain
          refine Set.mem_biUnion ⟨hrefers, hnew⟩ ?_
          rcases List.mem_cons.1 hmem with rfl | hlater
          · exact Set.mem_insert _ _
          · exact Set.mem_insert_of_mem _ ⟨chain, hchain, hlater⟩

/-- As many keys as come up are enough. -/
theorem expand?_of_finite {text : List Char} (finite : {key | Reaches textOf text key}.Finite) :
    ∃ out, ∀ limit, {key | Reaches textOf text key}.ncard ≤ limit →
      expand? textOf limit [] text = some out := by
  have hsome : (expand? textOf {key | Reaches textOf text key}.ncard [] text).isSome :=
    isSome_expand?_iff.2 fun chain hchain => hchain.length_le finite
  rcases Option.isSome_iff_exists.1 hsome with ⟨out, hout⟩
  exact ⟨out, fun limit hle => expand?_mono hle hout⟩

/-- Some limit is enough exactly when finitely many keys come up. -/
theorem finite_reaches_iff {text : List Char} :
    {key | Reaches textOf text key}.Finite ↔
      ∃ limit, (expand? textOf limit [] text).isSome := by
  constructor
  · intro h
    rcases expand?_of_finite h with ⟨out, hout⟩
    exact ⟨_, Option.isSome_iff_exists.2 ⟨out, hout _ (Nat.le_refl _)⟩⟩
  · rintro ⟨limit, hsome⟩
    refine (finite_nested (isSome_expand?_iff.1 hsome)).subset fun key hreach => ?_
    rcases hreach.exists_nested with ⟨front, hchain⟩
    exact ⟨front ++ [key], hchain, by simp⟩

end Reference

theorem expand?_localizeWithin {textOf : String → String} {limit : Nat} {text : String}
    (enough : (Reference.expand? textOf limit [] text.toList).isSome) :
    Reference.expand? textOf limit [] text.toList =
      some (localizeWithin textOf limit text enough).toList := by
  rw [localizeWithin, String.toList_ofList, Option.some_get]

/-- What a text is localized to is its expansion with the depth that the localizer promises. -/
theorem expand?_localize {L : Type} [Localizer L] (localizer : L) (text : String) :
    Reference.expand? (Localizer.textOf localizer) (Localizer.nesting localizer text) []
      text.toList = some (localize localizer text).toList :=
  expand?_localizeWithin (Localizer.enough localizer text)

namespace Catalog

theorem nodup_eraseDups (values : List String) : values.eraseDups.Nodup := by
  induction values using List.reverseRecOn with
  | nil =>
      simp
  | append_singleton values last ih =>
      rw [List.eraseDups_append]
      by_cases h : last ∈ values
      · simpa [List.removeAll, h] using ih
      · simpa [List.removeAll, h, List.eraseDups_cons, List.nodup_append] using
          ⟨ih, fun value hmem hsame => h (hsame ▸ hmem)⟩

/-- The keys with a text in the active or the fallback locale are counted once each. -/
theorem length_knownKeys (catalog : Catalog) :
    catalog.knownKeys.length =
      {key | key ∈ (catalog.table catalog.locale).keys ∨
        key ∈ (catalog.table catalog.fallback).keys}.ncard := by
  have hknown : {key | key ∈ (catalog.table catalog.locale).keys ∨
      key ∈ (catalog.table catalog.fallback).keys} = (catalog.knownKeys.toFinset : Set String) := by
    ext key
    simp [knownKeys]
  have hnodup : catalog.knownKeys.Nodup := nodup_eraseDups _
  rw [hknown, Set.ncard_coe_finset, List.toFinset_card_of_nodup hnodup]

end Catalog

/-- However the texts of a catalog refer to one another, they stand inside one another no deeper than
there are keys with a text in the active or the fallback locale, and one more; any limit from there on
gives the same result.  From any source of texts, expansion ends exactly when finitely many keys come
up, and then no later than their number. -/
theorem localize_terminates (catalog : Catalog) (text : String) :
    let known := {key | key ∈ (catalog.table catalog.locale).keys ∨
      key ∈ (catalog.table catalog.fallback).keys}
    (∀ chain, Reference.Nested catalog.textOf [] text.toList chain →
      chain.length ≤ known.ncard + 1) ∧
    (∀ limit, known.ncard + 1 ≤ limit →
      Reference.expand? catalog.textOf limit [] text.toList =
        some (localize catalog text).toList) ∧
    ∀ textOf : String → String,
      {key | Reference.Reaches textOf text.toList key}.Finite ↔
        ∃ out, ∀ limit, {key | Reference.Reaches textOf text.toList key}.ncard ≤ limit →
          Reference.expand? textOf limit [] text.toList = some out := by
  intro known
  have hcount : catalog.knownKeys.length = known.ncard := catalog.length_knownKeys
  have hexpand : Reference.expand? catalog.textOf (catalog.knownKeys.length + 1) [] text.toList =
      some (localize catalog text).toList :=
    expand?_localize catalog text
  rw [hcount] at hexpand
  refine ⟨?_, ?_, fun textOf => ⟨Reference.expand?_of_finite, ?_⟩⟩
  · exact Reference.isSome_expand?_iff.1 (Option.isSome_iff_exists.2 ⟨_, hexpand⟩)
  · intro limit hle
    exact Reference.expand?_mono hle hexpand
  · rintro ⟨out, hout⟩
    have hsome := Option.isSome_iff_exists.2 ⟨out, hout _ (Nat.le_refl _)⟩
    exact Reference.finite_reaches_iff.2 ⟨_, hsome⟩

theorem localize_terminates_cyclic :
    let refer := fun key => String.ofList (Reference.written ⟨key⟩)
    let catalog := ((Catalog.ofSettings ⟨"tmpl-", "de", "en"⟩).insert "de" "a" (refer "b")).insert
      "en" "b" (refer "a" ++ refer "c")
    Reference.Nested catalog.textOf [] (refer "a").toList ["a", "b", "c"] ∧
      (∀ chain, Reference.Nested catalog.textOf [] (refer "a").toList chain → chain.length ≤ 3) ∧
      Reference.expand? catalog.textOf 3 [] (refer "a").toList =
        some (localize catalog (refer "a")).toList ∧
      localize catalog (refer "a") = refer "a" ++ (Catalog.missing ++ "c") ∧
      {key | Reference.Reaches catalog.textOf (refer "a").toList key}.Finite ∧
      ∃ out, ∀ limit, {key | Reference.Reaches catalog.textOf (refer "a").toList key}.ncard ≤ limit →
        Reference.expand? catalog.textOf limit [] (refer "a").toList = some out := by
  intro refer catalog
  have hknown : {key | key ∈ (catalog.table catalog.locale).keys ∨
      key ∈ (catalog.table catalog.fallback).keys} = {"a", "b"} := by
    have hactive : (catalog.table catalog.locale).keys = ["a"] := rfl
    have hfallback : (catalog.table catalog.fallback).keys = ["b"] := rfl
    ext key
    simp [hactive, hfallback]
  have hcount : ({"a", "b"} : Set String).ncard = 2 := Set.ncard_pair (by decide)
  rcases localize_terminates catalog (refer "a") with ⟨hchains, hlimits, hsources⟩
  rw [hknown, hcount] at hchains hlimits
  have hexpand := hlimits 3 (Nat.le_refl 3)
  have hout : Reference.expand? catalog.textOf 3 [] (refer "a").toList =
      some (refer "a" ++ (Catalog.missing ++ "c")).toList := by
    subst catalog refer
    with_unfolding_all rfl
  have hchain : Reference.Nested catalog.textOf [] (refer "a").toList ["a", "b", "c"] := by
    refine .cons ?_ (by decide) (.cons ?_ (by decide) (.cons ?_ (by decide) .nil))
    all_goals
      subst catalog refer
      decide +kernel
  have hfinite : {key | Reference.Reaches catalog.textOf (refer "a").toList key}.Finite :=
    Reference.finite_reaches_iff.2 ⟨3, Option.isSome_iff_exists.2 ⟨_, hexpand⟩⟩
  refine ⟨hchain, hchains, hexpand, ?_, hfinite, (hsources catalog.textOf).1 hfinite⟩
  rw [hexpand] at hout
  exact String.toList_injective (Option.some.inj hout)

end Stencil
