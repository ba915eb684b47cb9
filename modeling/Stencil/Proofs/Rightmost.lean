import Stencil.Condition.Basic

/-!
# Rightmost relations — where the text of a condition is split

A text can often be split at a relation symbol in several ways: at several places, and at one place
with a longer and a shorter symbol.  The place furthest to the right wins, and at one place the
symbol that comes first in a fixed order, as long as something is left on both sides.

* `Condition.Splits`, `Condition.Rightmost` — the ways to split a text, and the one that is taken;
* `Condition.Rightmost.unique` — there is at most one;
* `Condition.ofText_append` — a comparison is split in front of a right side without symbols;
* `Condition.ofText_splits_rightmost` — a text is read as the comparison that it is split into so,
  and as a key if it cannot be split.
-/

namespace Stencil

/-- The place of a relation in the order `>=`, `>`, `<=`, `<`, `==`, `!=`. -/
def Comparison.rank : Comparison → Nat
  | greaterOrEqual => 0
  | greater => 1
  | lessOrEqual => 2
  | less => 3
  | equal => 4
  | different => 5

theorem Comparison.idxOf_inOrder (comparison : Comparison) :
    inOrder.idxOf comparison = comparison.rank := by
  cases comparison <;> rfl

theorem Comparison.rank_injective {left right : Comparison} :
    left.rank = right.rank → left = right := by
  cases left <;> cases right <;> simp [rank]

theorem Comparison.mem_inOrder (comparison : Comparison) : comparison ∈ inOrder := by
  cases comparison <;> decide

namespace Condition

/-! ## Splits -/

/-- A text is a relation symbol with something on both sides. -/
structure Splits (text left : String) (comparison : Comparison) (right : String) : Prop where
  eq : text = left ++ comparison.symbol ++ right
  left_ne_empty : left ≠ ""
  right_ne_empty : right ≠ ""

/-- The split furthest to the right, with the first relation that can stand there. -/
structure Rightmost (text left : String) (comparison : Comparison) (right : String) : Prop where
  splits : Splits text left comparison right
  longest : ∀ left' comparison' right', Splits text left' comparison' right' →
    left'.length ≤ left.length
  first : ∀ comparison' right', Splits text left comparison' right' →
    comparison.rank ≤ comparison'.rank

theorem Rightmost.unique {text left left' right right' : String}
    {comparison comparison' : Comparison} :
    Rightmost text left comparison right → Rightmost text left' comparison' right' →
      left = left' ∧ comparison = comparison' ∧ right = right' := by
  intro h h'
  have hlength : left.toList.length = left'.toList.length :=
    Nat.le_antisymm (h'.longest _ _ _ h.splits) (h.longest _ _ _ h'.splits)
  have hlists : left.toList ++ (comparison.symbol.toList ++ right.toList) =
      left'.toList ++ (comparison'.symbol.toList ++ right'.toList) := by
    simpa using congrArg String.toList (h.splits.eq.symm.trans h'.splits.eq)
  rcases List.append_inj hlists hlength with ⟨hleft, hbehind⟩
  have hsame : left = left' := String.toList_injective hleft
  subst hsame
  have hrank := Nat.le_antisymm (h.first _ _ h'.splits) (h'.first _ _ h.splits)
  have hcomparison := Comparison.rank_injective hrank
  subst hcomparison
  exact ⟨rfl, rfl, String.toList_injective (List.append_cancel_left hbehind)⟩

/-! ## Relations at one place -/

theorem relationAt?_append_ne_none {right : List Char} (comparison : Comparison) :
    right ≠ [] → relationAt? (comparison.symbol.toList ++ right) ≠ none := by
  intro hne hnone
  have htried := List.findSome?_eq_none_iff.1 hnone comparison comparison.mem_inOrder
  rw [Text.behind?_eq_some_iff.2 rfl] at htried
  cases right with
  | nil =>
      exact hne rfl
  | cons c right =>
      cases htried

/-- No relation that comes earlier in the order could stand in the same place. -/
theorem rank_le_of_relationAt? {text right other : List Char} {found tried : Comparison} :
    relationAt? text = some (found, right) → text = tried.symbol.toList ++ other → other ≠ [] →
      found.rank ≤ tried.rank := by
  intro h htext hne
  rcases List.findSome?_eq_some_iff.1 h with ⟨earlier, comparison, later, horder, hhit, hfailed⟩
  have hfound : comparison = found := by
    split at hhit
    · cases hhit
    · cases hhit
    · exact (Prod.mk.inj (Option.some.inj hhit)).1
  have htried : tried ∉ earlier := by
    intro hmem
    have hnone := hfailed tried hmem
    rw [Text.behind?_eq_some_iff.2 htext] at hnone
    cases other with
    | nil =>
        exact hne rfl
    | cons c other =>
        cases hnone
  have hfresh : comparison ∉ earlier := by
    intro hmem
    rw [hfailed comparison hmem] at hhit
    cases hhit
  rw [← hfound, ← Comparison.idxOf_inOrder, ← Comparison.idxOf_inOrder, horder]
  simp [List.idxOf_append, hfresh, htried]

/-! ## The rightmost relation -/

/-- Where nothing is a relation further right, the head of the text decides. -/
theorem lastRelation?_cons {c : Char} {text : List Char} :
    lastRelation? text = none →
      lastRelation? (c :: text) =
        (relationAt? (c :: text)).map fun (comparison, right) => ([], comparison, right) := by
  intro h
  simp [lastRelation?, h]

/-- A relation behind some text is found from further left as well. -/
theorem lastRelation?_append {text left right : List Char} {comparison : Comparison}
    (front : List Char) :
    lastRelation? text = some (left, comparison, right) →
      lastRelation? (front ++ text) = some (front ++ left, comparison, right) := by
  intro h
  induction front with
  | nil =>
      exact h
  | cons c front ih =>
      simp [lastRelation?, ih]

/-- What is found at the rightmost place is the relation that stands there. -/
theorem relationAt?_of_lastRelation? {text left right : List Char} {comparison : Comparison} :
    lastRelation? text = some (left, comparison, right) →
      ∃ behind, text = left ++ behind ∧ relationAt? behind = some (comparison, right) := by
  intro h
  induction text generalizing left with
  | nil =>
      cases h
  | cons c text ih =>
      cases hlater : lastRelation? text with
      | none =>
          rw [lastRelation?_cons hlater] at h
          rcases Option.map_eq_some_iff.1 h with ⟨⟨found, tail⟩, hhere, hsame⟩
          cases hsame
          exact ⟨c :: text, rfl, hhere⟩
      | some found =>
          rcases found with ⟨front, found, tail⟩
          simp only [lastRelation?, hlater] at h
          cases h
          rcases ih hlater with ⟨behind, rfl, hbehind⟩
          exact ⟨behind, rfl, hbehind⟩

/-- Where a relation stands, one is found, there or further right. -/
theorem exists_lastRelation?_append {right : List Char} (left : List Char)
    (comparison : Comparison) :
    right ≠ [] → ∃ more found tail,
      lastRelation? (left ++ (comparison.symbol.toList ++ right)) =
        some (left ++ more, found, tail) := by
  intro hne
  have hrelation := relationAt?_append_ne_none comparison hne
  have hlast : ∃ more found tail,
      lastRelation? (comparison.symbol.toList ++ right) = some (more, found, tail) := by
    cases htext : comparison.symbol.toList ++ right with
    | nil =>
        simp [hne] at htext
    | cons c text =>
        cases hlater : lastRelation? text with
        | some found =>
            exact ⟨_, _, _, lastRelation?_append [c] hlater⟩
        | none =>
            rw [htext] at hrelation
            rcases Option.ne_none_iff_exists'.1 hrelation with ⟨⟨found, tail⟩, hhere⟩
            exact ⟨[], found, tail, by rw [lastRelation?_cons hlater, hhere]; rfl⟩
  rcases hlast with ⟨more, found, tail, hlast⟩
  exact ⟨more, found, tail, lastRelation?_append left hlast⟩

/-! ## Comparisons with a plain right side -/

/-- A character that no relation symbol starts with. -/
def Plain (c : Char) : Prop := c ≠ '=' ∧ c ≠ '!' ∧ c ≠ '<' ∧ c ≠ '>'

instance (c : Char) : Decidable (Plain c) := inferInstanceAs (Decidable (_ ∧ _ ∧ _ ∧ _))

theorem relationAt?_of_plain {c : Char} (text : List Char) :
    Plain c → relationAt? (c :: text) = none := by
  rintro ⟨hequal, hnot, hless, hgreater⟩
  simp [relationAt?, Comparison.inOrder, Comparison.symbol, Text.behind?, hequal.symm, hnot.symm,
    hless.symm, hgreater.symm]

theorem lastRelation?_of_plain {text : List Char} :
    (∀ c ∈ text, Plain c) → lastRelation? text = none := by
  intro h
  induction text with
  | nil =>
      rfl
  | cons c text ih =>
      rw [lastRelation?_cons (ih fun d hmem => h d (by simp [hmem])),
        relationAt?_of_plain text (h c (by simp))]
      rfl

/-- A symbol in front of a plain text is a relation, and its last character is none. -/
theorem lastRelation?_symbol_append {right : List Char} (comparison : Comparison) :
    right ≠ [] → (∀ c ∈ right, Plain c) →
      lastRelation? (comparison.symbol.toList ++ right) = some ([], comparison, right) := by
  intro hne hplain
  have hnone := lastRelation?_of_plain hplain
  -- The second half of a symbol is an equals sign, and one alone is no relation.
  have hhalf : lastRelation? ('=' :: right) = none := by
    rw [lastRelation?_cons hnone]
    cases right with
    | nil =>
        rfl
    | cons c right =>
        rcases hplain c (by simp) with ⟨hequal, -⟩
        simp [relationAt?, Comparison.inOrder, Comparison.symbol, Text.behind?, hequal.symm]
  rcases List.exists_cons_of_ne_nil hne with ⟨c, rest, rfl⟩
  rcases hplain c (by simp) with ⟨hequal, -⟩
  have hrelation : relationAt? (comparison.symbol.toList ++ c :: rest) =
      some (comparison, c :: rest) := by
    cases comparison <;>
      simp [relationAt?, Comparison.inOrder, Comparison.symbol, Text.behind?, hequal.symm]
  have hsymbol : ∃ d more, comparison.symbol.toList ++ c :: rest = d :: more ∧
      lastRelation? more = none := by
    cases comparison with
    | greater | less =>
        exact ⟨_, c :: rest, rfl, hnone⟩
    | equal | different | greaterOrEqual | lessOrEqual =>
        exact ⟨_, '=' :: c :: rest, rfl, hhalf⟩
  rcases hsymbol with ⟨d, more, hcons, hlater⟩
  rw [hcons] at hrelation ⊢
  rw [lastRelation?_cons hlater, hrelation]
  rfl

/-- A comparison is split at the symbol in front of a plain right side. -/
theorem ofText_append {left right : String} (comparison : Comparison) :
    left ≠ "" → right ≠ "" → (∀ c ∈ right.toList, Plain c) →
      ofText (left ++ comparison.symbol ++ right) = compare left comparison right := by
  intro hleft hright hplain
  have hne : right.toList ≠ [] := by simpa using hright
  rcases List.exists_cons_of_ne_nil (show left.toList ≠ [] by simpa using hleft) with
    ⟨first, rest, hcons⟩
  have hsplit := lastRelation?_append rest (lastRelation?_symbol_append comparison hne hplain)
  have htext : (left ++ comparison.symbol ++ right).toList =
      first :: (rest ++ (comparison.symbol.toList ++ right.toList)) := by
    simp [hcons]
  have hwhole : String.ofList (first :: rest) = left := by
    rw [← hcons, String.ofList_toList]
  simp [ofText, htext, hsplit, hwhole]

/-! ## The condition of a text -/

/-- The characters of a text that can be split: the first one is on the left side. -/
theorem Splits.exists_toList {text left right : String} {comparison : Comparison} :
    Splits text left comparison right →
      ∃ first rest, left = String.ofList (first :: rest) ∧
        text.toList = first :: (rest ++ (comparison.symbol.toList ++ right.toList)) ∧
        right.toList ≠ [] := by
  rintro ⟨rfl, hleft, hright⟩
  rcases List.exists_cons_of_ne_nil (show left.toList ≠ [] by simpa using hleft) with
    ⟨first, rest, hcons⟩
  refine ⟨first, rest, ?_, ?_, by simpa using hright⟩
  · rw [← hcons, String.ofList_toList]
  · simp [hcons]

/-- Where the text of a comparison was cut. -/
theorem lastRelation?_of_ofText {text left right : String} {comparison : Comparison} :
    ofText text = compare left comparison right →
      ∃ first rest before, text.toList = first :: rest ∧ left = String.ofList (first :: before) ∧
        lastRelation? rest = some (before, comparison, right.toList) := by
  intro h
  unfold ofText at h
  split at h
  · cases h
  · rename_i first rest hcons
    split at h
    · rename_i before found behind hlast
      cases h
      exact ⟨first, rest, before, hcons, rfl, by simpa using hlast⟩
    · cases h

theorem rightmost_of_ofText {text left right : String} {comparison : Comparison} :
    ofText text = compare left comparison right → Rightmost text left comparison right := by
  intro h
  rcases lastRelation?_of_ofText h with ⟨first, rest, before, hcons, rfl, hlast⟩
  rcases relationAt?_of_lastRelation? hlast with ⟨behind, hrest, hhere⟩
  rcases eq_of_relationAt? hhere with ⟨hbehind, hright⟩
  refine ⟨⟨?_, by simp, by simpa using hright⟩, ?_, ?_⟩
  · apply String.toList_injective
    simp [hcons, hrest, hbehind]
  · intro left' comparison' right' hsplits
    rcases hsplits.exists_toList with ⟨first', rest', rfl, htext, hne⟩
    rcases exists_lastRelation?_append rest' comparison' hne with ⟨more, found, tail, hfurther⟩
    rw [hcons] at htext
    rcases List.cons.inj htext with ⟨-, hsame⟩
    rw [← hsame, hlast] at hfurther
    have hbefore : before = rest' ++ more := congrArg Prod.fst (Option.some.inj hfurther)
    simp [hbefore]
  · intro comparison' right' hsplits
    rcases hsplits.exists_toList with ⟨first', rest', hleft, htext, hne⟩
    have hbefore : before = rest' := by
      simpa using congrArg (List.drop 1 ∘ String.toList) hleft
    have hother : behind = comparison'.symbol.toList ++ right'.toList := by
      rw [hcons, hrest, hbefore] at htext
      exact List.append_cancel_left (List.cons.inj htext).2
    exact rank_le_of_relationAt? hhere hother hne

theorem not_splits_of_ofText {text key : String} :
    ofText text = truthy key →
      key = text ∧ ∀ left comparison right, ¬ Splits text left comparison right := by
  intro h
  have hkey : key = text := by
    have htext := toText_ofText text
    rw [h] at htext
    exact htext
  refine ⟨hkey, fun left comparison right hsplits => ?_⟩
  rcases hsplits.exists_toList with ⟨first, rest, -, htext, hne⟩
  rcases exists_lastRelation?_append rest comparison hne with ⟨more, found, tail, hlast⟩
  simp [ofText, htext, hlast] at h

/-- A text is read as a comparison exactly where it is split furthest to the right, by the first
relation that can stand there, and as a key exactly when it cannot be split; either way its text is
kept.  So a comparison with a plain right side is read as its parts. -/
theorem ofText_splits_rightmost (text : String) :
    (∀ left comparison right,
      ofText text = compare left comparison right ↔ Rightmost text left comparison right) ∧
      (∀ key, ofText text = truthy key ↔
        key = text ∧ ∀ left comparison right, ¬ Splits text left comparison right) ∧
      (ofText text).toText = text ∧
      ∀ left comparison right, left ≠ "" → right ≠ "" → (∀ c ∈ right.toList, Plain c) →
        text = left ++ comparison.symbol ++ right →
          ofText text = compare left comparison right := by
  refine ⟨?_, ?_, toText_ofText text, ?_⟩
  · intro left comparison right
    refine ⟨rightmost_of_ofText, fun h => ?_⟩
    cases hread : ofText text with
    | truthy key =>
        exact absurd h.splits ((not_splits_of_ofText hread).2 _ _ _)
    | compare left' comparison' right' =>
        rcases h.unique (rightmost_of_ofText hread) with ⟨rfl, rfl, rfl⟩
        rfl
  · intro key
    refine ⟨not_splits_of_ofText, ?_⟩
    rintro ⟨rfl, hnone⟩
    cases hread : ofText key with
    | truthy other =>
        rw [(not_splits_of_ofText hread).1]
    | compare left comparison right =>
        exact absurd (rightmost_of_ofText hread).splits (hnone _ _ _)
  · rintro left comparison right hleft hright hplain rfl
    exact ofText_append comparison hleft hright hplain

theorem ofText_splits_rightmost_overlapping :
    ofText "a>=" = compare "a" .greater "=" ∧ Rightmost "a>=" "a" .greater "=" ∧
      ("x!" ≠ "" ∧ "é" ≠ "" ∧ (∀ c ∈ "é".toList, Plain c) ∧
        "x!==é" = "x!" ++ Comparison.equal.symbol ++ "é") ∧
      ofText "x!==é" = compare "x!" .equal "é" := by
  have hshort : ofText "a>=" = compare "a" .greater "=" := by decide +kernel
  have hleft : "x!" ≠ "" := by decide
  have hright : "é" ≠ "" := by decide
  have hplain : ∀ c ∈ "é".toList, Plain c := by
    have hall : "é".toList.all fun c => decide (Plain c) := by decide +kernel
    simpa only [List.all_eq_true, decide_eq_true_eq] using hall
  have htext : "x!==é" = "x!" ++ Comparison.equal.symbol ++ "é" := by decide +kernel
  rcases ofText_splits_rightmost "a>=" with ⟨hrightmost, -⟩
  rcases ofText_splits_rightmost "x!==é" with ⟨-, -, -, hparts⟩
  exact ⟨hshort, (hrightmost _ _ _).1 hshort, ⟨hleft, hright, hplain, htext⟩,
    hparts _ _ _ hleft hright hplain htext⟩

end Condition
end Stencil
