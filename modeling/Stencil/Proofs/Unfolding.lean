import Stencil.Proofs.Nesting
import Stencil.Proofs.Reading

/-!
# Unfolding — the expansion of a text, said without the scan and without a limit

A text is expanded from left to right: literal runs are copied, and each reference gives way to the
expansion of the text of its key, inside which the key is active; a reference to an active key stays
as it is written.  This file says so as a relation that names references only through how they are
written, and proves that expansion within a limit computes it.

* `Reference.Leads` — a reference stands at the head of a text;
* `Reference.scan_induction` — a text is one run, or it is a run, a reference and a text;
* `Reference.Expands` — what a text is expanded to, with some keys active;
* `Reference.expands_iff`, `Reference.expands_iff_eq` — that is the result with any limit that gives
  one, and there is no other.
-/

namespace Stencil
namespace Reference

/-! ## References at the head of a text -/

/-- A reference stands at the head of a text. -/
def Leads (text : List Char) : Prop :=
  ∃ reference : Reference, Argument.Valid reference.key.toList ∧ reference.written <+: text

theorem at?_eq_none_iff {text : List Char} : at? text = none ↔ ¬ Leads text := by
  constructor
  · rintro hnone ⟨reference, hvalid, hlead⟩
    have hsome : at? text = some reference := at?_eq_some_iff.2 ⟨hvalid, hlead⟩
    simp [hnone] at hsome
  · intro hfree
    cases h : at? text with
    | none =>
        rfl
    | some reference =>
        exact absurd ⟨reference, at?_eq_some_iff.1 h⟩ hfree

/-- No reference stands anywhere in a text. -/
def Free (text : List Char) : Prop :=
  ∀ left right, text = left ++ right → ¬ Leads right

/-- No reference starts in the first of two texts, one behind the other. -/
def FreeBefore (before behind : List Char) : Prop :=
  ∀ left right, before = left ++ right → right ≠ [] → ¬ Leads (right ++ behind)

theorem first?_eq_none_iff {text : List Char} :
    (Mark.first? text : Option (Mark.Found Reference)) = none ↔ Free text := by
  rw [Mark.first?_eq_none_iff]
  exact forall₃_congr fun _ _ _ => at?_eq_none_iff

theorem pieces_of_free {run : List Char} :
    Free run → (Mark.pieces run : List (Piece Reference)) = Mark.runPieces run := by
  intro h
  exact Mark.pieces_of_first?_eq_none (first?_eq_none_iff.2 h)

/-- The scan finds the leftmost reference. -/
theorem pieces_append {before behind : List Char} {reference : Reference} :
    Argument.Valid reference.key.toList → FreeBefore before (reference.written ++ behind) →
      (Mark.pieces (before ++ (reference.written ++ behind)) : List (Piece Reference)) =
        Mark.runPieces before ++ .mark reference :: Mark.pieces behind := by
  intro hvalid hleftmost
  have hhere : at? (reference.written ++ behind) = some reference :=
    at?_eq_some_iff.2 ⟨hvalid, List.prefix_append _ _⟩
  have hfirst : Mark.first? (before ++ reference.written ++ behind) =
      some (⟨before, reference, behind⟩ : Mark.Found Reference) := by
    refine Mark.first?_eq_some hhere fun left right hsplit hne => ?_
    rw [List.append_assoc]
    exact at?_eq_none_iff.2 (hleftmost left right hsplit hne)
  rw [← List.append_assoc]
  exact Mark.pieces_of_first?_eq_some hfirst

/-- A text is one run without references, or it is a run, its leftmost reference, and a text. -/
theorem scan_induction {motive : List Char → Prop}
    (run : ∀ run, Free run → motive run)
    (mark : ∀ before reference behind, Argument.Valid (String.toList (key reference)) →
      FreeBefore before (written reference ++ behind) → motive behind →
        motive (before ++ (written reference ++ behind)))
    (text : List Char) : motive text := by
  -- The text behind a reference is not the tail of the text, so the induction is on the length.
  induction h : text.length using Nat.strong_induction_on generalizing text with
  | _ length ih =>
      subst h
      cases hfirst : (Mark.first? text : Option (Mark.Found Reference)) with
      | none =>
          exact run text (first?_eq_none_iff.1 hfirst)
      | some found =>
          have hvalid : Argument.Valid found.mark.key.toList :=
            (at?_eq_some_iff.1 (Mark.at?_of_first? hfirst)).1
          have hleftmost : FreeBefore found.before (found.mark.written ++ found.behind) := by
            intro left right hsplit hne
            rw [← List.append_assoc]
            exact at?_eq_none_iff.1 (Mark.at?_eq_none_of_first? hfirst left right hsplit hne)
          have hwhole : text = found.before ++ found.mark.written ++ found.behind :=
            Mark.eq_of_first? hfirst
          rw [hwhole, List.append_assoc]
          exact mark _ _ _ hvalid hleftmost (ih _ (Mark.length_behind_lt hfirst) _ rfl)

/-! ## The expansion of a text -/

/-- What a text is expanded to inside the texts of the active keys. -/
inductive Expands (textOf : String → String) : Set String → List Char → List Char → Prop where
  | run {active : Set String} {run : List Char} (free : Free run) : Expands textOf active run run
  | keep {active : Set String} {before behind out : List Char} {reference : Reference}
      (valid : Argument.Valid reference.key.toList)
      (leftmost : FreeBefore before (reference.written ++ behind))
      (again : reference.key ∈ active) (rest : Expands textOf active behind out) :
      Expands textOf active (before ++ (reference.written ++ behind))
        (before ++ (reference.written ++ out))
  | put {active : Set String} {before behind here out : List Char} {reference : Reference}
      (valid : Argument.Valid reference.key.toList)
      (leftmost : FreeBefore before (reference.written ++ behind))
      (new : reference.key ∉ active)
      (inner : Expands textOf (insert reference.key active) (textOf reference.key).toList here)
      (rest : Expands textOf active behind out) :
      Expands textOf active (before ++ (reference.written ++ behind)) (before ++ (here ++ out))

variable {textOf : String → String}

theorem expandPieces?_runPieces_append (expandKey? : String → Option (List Char))
    (active : List String) (run : List Char) (parts : List (Piece Reference)) :
    expandPieces? expandKey? active (Mark.runPieces run ++ parts) =
      (expandPieces? expandKey? active parts).map (run ++ ·) := by
  by_cases h : run = [] <;> simp [Mark.runPieces, expandPieces?, h]

theorem expandPieces?_runPieces (expandKey? : String → Option (List Char))
    (active : List String) (run : List Char) :
    expandPieces? expandKey? active (Mark.runPieces run) = some run := by
  simpa [expandPieces?] using expandPieces?_runPieces_append expandKey? active run []

theorem expandPieces?_append_eq_some_iff {expandKey? : String → Option (List Char)}
    {active : List String} {before behind out : List Char} {reference : Reference}
    (valid : Argument.Valid reference.key.toList)
    (leftmost : FreeBefore before (reference.written ++ behind)) :
    expandPieces? expandKey? active (Mark.pieces (before ++ (reference.written ++ behind))) =
        some out ↔
      ∃ here rest,
        (if reference.key ∈ active then some reference.written else expandKey? reference.key) =
          some here ∧
        expandPieces? expandKey? active (Mark.pieces behind) = some rest ∧
        before ++ (here ++ rest) = out := by
  rw [pieces_append valid leftmost, expandPieces?_runPieces_append, Option.map_eq_some_iff]
  simp only [expandPieces?_mark_eq_some_iff]
  constructor
  · rintro ⟨_, ⟨here, rest, hhere, hrest, rfl⟩, rfl⟩
    exact ⟨here, rest, hhere, hrest, rfl⟩
  · rintro ⟨here, rest, hhere, hrest, rfl⟩
    exact ⟨_, ⟨here, rest, hhere, hrest, rfl⟩, rfl⟩

theorem expands_of_expandPieces? {expandKey? : String → Option (List Char)}
    {active : List String} {text out : List Char}
    (inner : ∀ key here, expandKey? key = some here →
      Expands textOf {other | other ∈ key :: active} (textOf key).toList here) :
    expandPieces? expandKey? active (Mark.pieces text) = some out →
      Expands textOf {other | other ∈ active} text out := by
  induction text using scan_induction generalizing out with
  | run run hfree =>
      intro h
      rw [pieces_of_free hfree, expandPieces?_runPieces] at h
      cases h
      exact .run hfree
  | mark before reference behind hvalid hleftmost ih =>
      intro h
      rcases (expandPieces?_append_eq_some_iff hvalid hleftmost).1 h with
        ⟨here, rest, hhere, hrest, rfl⟩
      by_cases hactive : reference.key ∈ active
      · rw [if_pos hactive] at hhere
        cases hhere
        exact .keep hvalid hleftmost hactive (ih hrest)
      · rw [if_neg hactive] at hhere
        have hinner := inner _ _ hhere
        rw [List.setOfPred_mem_cons] at hinner
        exact .put hvalid hleftmost hactive hinner (ih hrest)

/-- A result with a limit is what the text is expanded to. -/
theorem expands_of_expand? {limit : Nat} {active : List String} {text out : List Char} :
    expand? textOf limit active text = some out →
      Expands textOf {key | key ∈ active} text out := by
  intro h
  induction limit generalizing active text out with
  | zero => exact expands_of_expandPieces? (fun _ _ hnone => by cases hnone) h
  | succ limit ih => exact expands_of_expandPieces? (fun _ _ hhere => ih hhere) h

/-- What a text is expanded to is the result with some limit. -/
theorem Expands.exists_limit {keys : Set String} {text out : List Char} :
    Expands textOf keys text out → ∀ active : List String, keys = {key | key ∈ active} →
      ∃ limit, expand? textOf (limit + 1) active text = some out := by
  intro h
  induction h with
  | run hfree =>
      rintro active rfl
      refine ⟨0, ?_⟩
      rw [expand?, pieces_of_free hfree]
      exact expandPieces?_runPieces _ _ _
  | keep hvalid hleftmost hagain _ ih =>
      rintro active rfl
      rcases ih active rfl with ⟨limit, hrest⟩
      refine ⟨limit, (expandPieces?_append_eq_some_iff hvalid hleftmost).2 ⟨_, _, ?_, hrest, rfl⟩⟩
      exact if_pos hagain
  | put hvalid hleftmost hnew _ _ ihInner ih =>
      rename_i reference _ _
      rintro active rfl
      rcases ih active rfl with ⟨limit, hrest⟩
      rcases ihInner (reference.key :: active) (List.setOfPred_mem_cons _ _).symm with
        ⟨depth, hinner⟩
      -- The higher one of the two limits is enough for both.
      refine ⟨max (depth + 1) limit,
        (expandPieces?_append_eq_some_iff hvalid hleftmost).2 ⟨_, _, ?_, ?_, rfl⟩⟩
      · have hnotActive : reference.key ∉ active := hnew
        rw [if_neg hnotActive]
        exact expand?_mono (Nat.le_max_left _ _) hinner
      · exact expand?_mono (Nat.succ_le_succ (Nat.le_max_right _ _)) hrest

theorem expands_iff {text out : List Char} :
    Expands textOf ∅ text out ↔ ∃ limit, expand? textOf limit [] text = some out := by
  have hnone : (∅ : Set String) = {key | key ∈ ([] : List String)} := by simp
  constructor
  · intro h
    rcases h.exists_limit [] hnone with ⟨limit, hlimit⟩
    exact ⟨limit + 1, hlimit⟩
  · rintro ⟨limit, hlimit⟩
    rw [hnone]
    exact expands_of_expand? hlimit

/-- A result with one limit is all that a text is expanded to. -/
theorem expands_iff_eq {limit : Nat} {text out other : List Char} :
    expand? textOf limit [] text = some out → (Expands textOf ∅ text other ↔ other = out) := by
  intro h
  constructor
  · intro hother
    rcases expands_iff.1 hother with ⟨depth, hdepth⟩
    have hleft := expand?_mono (Nat.le_max_left limit depth) h
    have hright := expand?_mono (Nat.le_max_right limit depth) hdepth
    exact Option.some.inj (hright.symm.trans hleft)
  · rintro rfl
    exact expands_iff.2 ⟨limit, h⟩

end Reference

theorem expands_localize {L : Type} [Localizer L] (localizer : L) (text : String) :
    Reference.Expands (Localizer.textOf localizer) ∅ text.toList
      (localize localizer text).toList :=
  Reference.expands_iff.2 ⟨_, expand?_localize localizer text⟩

end Stencil
