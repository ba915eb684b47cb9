import Mathlib.Data.Set.Card
import Stencil.Json.Standard
import Stencil.Json.Value
import Stencil.Proofs.LooseOrder
import Stencil.Proofs.WriteLog
import Stencil.Template.Basic

/-!
# Canonical contexts — a context holds what its operations left, and nothing of their order

Operations write entries into a context, take them away, or start over from pairs.  What stands under
a key is the last write that nothing behind it undid.  This settles the whole context: its keys, their
number and the listing in key order.  So contexts that cannot be told apart by look-ups, down into the
objects they hold, are one and the same.

* `Lasting` — the last item of a list that sets something, if nothing behind it touches it;
* `Context.Operation`, `Context.run` — operations, and the context that a sequence of them leaves;
* `Context.Standing`, `Context.get?_run_eq_some_iff` — what the operations leave under a key;
* `Value.Indistinct`, `Value.Indistinct.eq` — values that all observations find alike are equal;
* `Value.PartOf`, `Value.equals_self_iff` — a value equals itself unless not-a-number is in it;
* `Context.run_canonical` — the laws of contexts after any operations.
-/

namespace Stencil

/-! ## What lasts in a list -/

/-- An item of the list sets something, and no item behind it touches it. -/
def Lasting {α : Type} (sets touches : α → Prop) (items : List α) : Prop :=
  ∃ before item after, items = before ++ item :: after ∧ sets item ∧
    ∀ later ∈ after, ¬ touches later

theorem not_lasting_nil {α : Type} {sets touches : α → Prop} : ¬ Lasting sets touches [] := by
  rintro ⟨before, item, after, hsplit, -⟩
  simp at hsplit

theorem lasting_concat_iff {α : Type} {sets touches : α → Prop} {items : List α} {last : α} :
    Lasting sets touches (items ++ [last]) ↔
      sets last ∨ Lasting sets touches items ∧ ¬ touches last := by
  constructor
  · rintro ⟨before, item, after, hsplit, hsets, hafter⟩
    rcases split_concat_iff.1 hsplit with ⟨rfl, rfl, rfl⟩ | ⟨front, rfl, rfl⟩
    · exact .inl hsets
    · refine .inr ⟨⟨before, item, front, rfl, hsets, ?_⟩, hafter last (by simp)⟩
      intro later hmem
      exact hafter later (by simp [hmem])
  · rintro (hsets | ⟨⟨before, item, after, rfl, hsets, hafter⟩, hlast⟩)
    · exact ⟨items, last, [], rfl, hsets, by simp⟩
    · refine ⟨before, item, after ++ [last], by simp, hsets, ?_⟩
      intro later hmem
      rcases List.mem_append.1 hmem with hearlier | hfinal
      · exact hafter later hearlier
      · exact List.mem_singleton.1 hfinal ▸ hlast

/-- In a dictionary of pairs, the last pair with a key gives the value. -/
theorem Dict.get?_ofList_eq_some_iff {α : Type} {pairs : List (String × α)} {key : String}
    {value : α} :
    (Dict.ofList pairs).get? key = some value ↔
      Lasting (· = (key, value)) (fun pair => pair.1 = key) pairs := by
  induction pairs using List.reverseRecOn with
  | nil =>
      exact iff_of_false (by simp [Dict.ofList, Dict.insertAll]) not_lasting_nil
  | append_singleton pairs last ih =>
      have hlast : Dict.ofList (pairs ++ [last]) = (Dict.ofList pairs).insert last.1 last.2 := by
        simp [Dict.ofList, Dict.insertAll]
      rw [hlast, Dict.get?_insert, lasting_concat_iff, ← ih]
      by_cases h : key = last.1
      · simp [h, Prod.ext_iff]
      · simp [h, Ne.symm h, Prod.ext_iff]

/-! ## Values that are observed alike -/

namespace Value

/-- Values that no observation tells apart: leaves are the same, lists are so at every index, and
objects at every key. -/
inductive Indistinct : Value → Value → Prop where
  | null : Indistinct null null
  | bool (value : Bool) : Indistinct (bool value) (bool value)
  | number (value : Number) : Indistinct (number value) (number value)
  | text (value : String) : Indistinct (text value) (text value)
  | list {lefts rights : List Value} (length : lefts.length = rights.length)
      (items : ∀ (index : Nat) (left right : Value), lefts[index]? = some left →
        rights[index]? = some right → Indistinct left right) :
      Indistinct (list lefts) (list rights)
  | object {lefts rights : Context} (keys : ∀ key, lefts.contains key = rights.contains key)
      (entries : ∀ (key : String) (left right : Value), lefts.get? key = some left →
        rights.get? key = some right → Indistinct left right) :
      Indistinct (object lefts) (object rights)

/-- What cannot be told apart is the same. -/
theorem Indistinct.eq {left right : Value} : Indistinct left right → left = right := by
  intro h
  induction h with
  | null | bool value | number value | text value =>
      rfl
  | @list lefts rights length items ih =>
      have hsame : lefts = rights := by
        refine List.ext_getElem length fun index hleft hright => ?_
        exact ih index _ _ (List.getElem?_eq_getElem hleft) (List.getElem?_eq_getElem hright)
      rw [hsame]
  | @object lefts rights keys entries ih =>
      -- A key is there on both sides or on neither, and the induction speaks of those on both.
      have hsame : lefts = rights := by
        refine Dict.ext fun key => ?_
        have hkey := keys key
        unfold Dict.contains at hkey
        cases hleft : lefts.get? key with
        | none =>
            rw [hleft] at hkey
            exact (Option.not_isSome_iff_eq_none.1 (by simp [← hkey])).symm
        | some left =>
            rw [hleft] at hkey
            obtain ⟨right, hright⟩ := Option.isSome_iff_exists.1 hkey.symm
            rw [hright, ih key left right hleft hright]
      rw [hsame]

mutual

/-- A value cannot be told apart from itself. -/
theorem Indistinct.refl : ∀ value : Value, Indistinct value value
  | null => .null
  | bool value => .bool value
  | number value => .number value
  | text value => .text value
  | list items => by
      refine .list rfl fun index left right hleft hright => ?_
      obtain rfl := Option.some.inj (hleft.symm.trans hright)
      exact indistinct_of_mem items left (List.mem_of_getElem? hleft)
  | object entries => by
      refine .object (fun key => rfl) fun key left right hleft hright => ?_
      obtain rfl := Option.some.inj (hleft.symm.trans hright)
      exact indistinct_of_mem_entries entries (key, left)
        ((Dict.mem_toList_iff entries key left).2 hleft)

theorem indistinct_of_mem : ∀ (items : List Value), ∀ item ∈ items, Indistinct item item
  | [], item, mem => by cases mem
  | first :: items, item, mem => by
      rcases List.mem_cons.1 mem with same | later
      · rw [same]
        exact .refl first
      · exact indistinct_of_mem items item later

theorem indistinct_of_mem_entries : ∀ {low : Option String} (entries : Ascending Value low),
    ∀ entry ∈ entries.toList, Indistinct entry.2 entry.2
  | _, .nil, entry, mem => by cases mem
  | _, .cons first kept above rest, entry, mem => by
      rcases List.mem_cons.1 mem with same | later
      · rw [same]
        exact .refl kept
      · exact indistinct_of_mem_entries rest entry later

end

/-- A part of a value: the value, an item or an entry of it, or a part of these. -/
inductive PartOf (part : Value) : Value → Prop where
  | self : PartOf part part
  | item {items : List Value} {value : Value} (mem : value ∈ items) (inner : PartOf part value) :
      PartOf part (list items)
  | entry {entries : Context} {key : String} {value : Value}
      (mem : (key, value) ∈ entries.toList) (inner : PartOf part value) :
      PartOf part (object entries)

theorem partOf_list_iff {part : Value} {items : List Value} :
    PartOf part (list items) ↔ part = list items ∨ ∃ value ∈ items, PartOf part value := by
  constructor
  · intro h
    cases h with
    | self => exact .inl rfl
    | item mem inner => exact .inr ⟨_, mem, inner⟩
  · rintro (rfl | ⟨value, mem, inner⟩)
    · exact .self
    · exact .item mem inner

theorem partOf_object_iff {part : Value} {entries : Context} :
    PartOf part (object entries) ↔
      part = object entries ∨ ∃ entry ∈ entries.toList, PartOf part entry.2 := by
  constructor
  · intro h
    cases h with
    | self => exact .inl rfl
    | entry mem inner => exact .inr ⟨_, mem, inner⟩
  · rintro (rfl | ⟨entry, mem, inner⟩)
    · exact .self
    · exact .entry mem inner

/-- A leaf has no parts but itself. -/
theorem partOf_leaf_iff {part value : Value} (noItems : value.items? = none)
    (noEntries : value.entries? = none) : PartOf part value ↔ part = value := by
  constructor
  · intro h
    cases h with
    | self => rfl
    | item mem inner => cases noItems
    | entry mem inner => cases noEntries
  · rintro rfl
    exact .self

mutual

/-- A value equals itself, unless not-a-number is in it. -/
theorem equals_self_iff : ∀ value : Value,
    value.equals value ↔ ¬ (number .nan).PartOf value
  | null | bool _ | text _ => by
      rw [partOf_leaf_iff rfl rfl]
      simp [equals]
  | number value => by
      rw [equals, Number.equals_self_iff, partOf_leaf_iff rfl rfl]
      simp [eq_comm]
  | list items => by
      rw [equals, equalItems_self_iff items, partOf_list_iff]
      simp
  | object entries => by
      rw [equals, equalEntries_self_iff entries, partOf_object_iff]
      simp [Dict.toList]

theorem equalItems_self_iff : ∀ items : List Value,
    equalItems items items ↔ ∀ item ∈ items, ¬ (number .nan).PartOf item
  | [] => by simp [equalItems]
  | item :: items => by
      simp [equalItems, equals_self_iff item, equalItems_self_iff items]

theorem equalEntries_self_iff : ∀ {low : Option String} (entries : Ascending Value low),
    equalEntries entries entries ↔
      ∀ entry ∈ entries.toList, ¬ (number .nan).PartOf entry.2
  | _, .nil => by simp [equalEntries, Ascending.toList]
  | _, .cons key value above rest => by
      simp [equalEntries, Ascending.toList, equals_self_iff value, equalEntries_self_iff rest]

end

end Value

/-! ## Operations on a context -/

namespace Context

/-- An operation on a context. -/
inductive Operation where
  | insert (key : String) (value : Value)
  | remove (key : String)
  | collect (pairs : List (String × Value))

/-- A context after an operation, and the value that the operation hands out. -/
def perform (context : Context) : Operation → Context × Option Value
  | .insert key value => (Dict.insert context key value, none)
  | .remove key => Dict.remove context key
  | .collect pairs => (Dict.ofList pairs, none)

/-- The context that operations leave, made one after the other from the empty one on. -/
def run (operations : List Operation) : Context :=
  operations.foldl (fun context operation => (perform context operation).1) ∅

theorem run_concat (operations : List Operation) (last : Operation) :
    run (operations ++ [last]) = (perform (run operations) last).1 := by
  simp [run]

/-! ## The last write -/

/-- The operation leaves a value under a key. -/
def Operation.Sets (key : String) (value : Value) : Operation → Prop
  | insert written new => written = key ∧ new = value
  | remove _ => False
  | collect pairs => Lasting (· = (key, value)) (fun pair => pair.1 = key) pairs

/-- The operation settles what stands under a key, whatever stood there. -/
def Operation.Touches (key : String) : Operation → Prop
  | insert written _ => written = key
  | remove removed => removed = key
  | collect _ => True

/-- A value was written under a key, and no operation since then has touched the key. -/
def Standing (operations : List Operation) (key : String) (value : Value) : Prop :=
  Lasting (Operation.Sets key value) (Operation.Touches key) operations

/-- One more operation leaves what it sets, and what stood before where it touches nothing. -/
theorem get?_perform_eq_some_iff {context : Context} {last : Operation} {key : String}
    {value : Value} :
    Dict.get? (perform context last).1 key = some value ↔
      last.Sets key value ∨ Dict.get? context key = some value ∧ ¬ last.Touches key := by
  -- A write and a removal touch their own key only; to start over touches every key.
  cases last with
  | insert written new =>
      by_cases h : key = written
      · simp [perform, Dict.get?_insert, Operation.Sets, Operation.Touches, h]
      · simp [perform, Dict.get?_insert, Operation.Sets, Operation.Touches, h, Ne.symm h]
  | remove removed =>
      by_cases h : key = removed
      · simp [perform, Dict.remove, Dict.get?_erase, Operation.Sets, Operation.Touches, h]
      · simp [perform, Dict.remove, Dict.get?_erase, Operation.Sets, Operation.Touches, h, Ne.symm h]
  | collect pairs =>
      simp [perform, Dict.get?_ofList_eq_some_iff, Operation.Sets, Operation.Touches]

/-- What is found under a key is what stands there. -/
theorem get?_run_eq_some_iff {operations : List Operation} {key : String} {value : Value} :
    Dict.get? (run operations) key = some value ↔ Standing operations key value := by
  unfold Standing
  induction operations using List.reverseRecOn with
  | nil =>
      have hempty : Dict.get? (run []) key = none := rfl
      exact iff_of_false (by simp [hempty]) not_lasting_nil
  | append_singleton operations last ih =>
      rw [run_concat, get?_perform_eq_some_iff, lasting_concat_iff, ih]

/-- A key is there exactly when something stands under it. -/
theorem contains_run_iff {operations : List Operation} {key : String} :
    Dict.contains (run operations) key ↔ ∃ value, Standing operations key value := by
  simp only [Dict.contains, Option.isSome_iff_exists, get?_run_eq_some_iff]

/-- The number of entries is the number of keys with something under them. -/
theorem size_run (operations : List Operation) :
    Dict.size (run operations) = {key | ∃ value, Standing operations key value}.ncard := by
  have hkeys : {key | ∃ value, Standing operations key value} =
      ((Dict.keys (run operations)).toFinset : Set String) := by
    ext key
    rw [Set.mem_ofPred_eq, ← contains_run_iff, Dict.contains, Dict.isSome_get?_iff]
    simp
  rw [hkeys, Set.ncard_coe_finset, List.toFinset_card_of_nodup (Dict.nodup_keys _)]
  exact (List.length_map _).symm

theorem isEmpty_run_iff {operations : List Operation} :
    Dict.isEmpty (run operations) ↔ ∀ key value, ¬ Standing operations key value := by
  simp only [Dict.isEmpty, List.isEmpty_iff, List.eq_nil_iff_forall_not_mem, Prod.forall,
    Dict.mem_toList_iff, get?_run_eq_some_iff]

/-! ## The laws of contexts -/

/-- Contexts that no look-up tells apart are equal, and equal ones are told apart by none. -/
theorem indistinct_iff_eq {left right : Context} :
    (∀ key, Option.Rel Value.Indistinct (Dict.get? left key) (Dict.get? right key)) ↔
      left = right := by
  constructor
  · intro h
    refine Dict.ext fun key => ?_
    have hkey := h key
    generalize Dict.get? left key = first, Dict.get? right key = second at hkey ⊢
    cases hkey with
    | some same => rw [same.eq]
    | none => rfl
  · rintro rfl key
    cases Dict.get? left key with
    | some value => exact .some (.refl value)
    | none => exact .none

/-- After any operations, the entries stand in ascending order of their keys, each key once, and they
are the last writes that nothing has undone since.  Their number, the look-ups and what a removal
takes away tell the same, and a removal leaves all other entries.  Contexts that no look-up tells
apart are one and the same, whatever operations led to them: they are listed, written and rendered
alike, and they are equal unless not-a-number is somewhere in them. -/
theorem run_canonical [Json.Library] (operations : List Operation) :
    let context := run operations
    (Dict.keys context).Pairwise (· < ·) ∧
    (∀ key value, (key, value) ∈ Dict.toList context ↔ Standing operations key value) ∧
    Dict.size context = {key | ∃ value, Standing operations key value}.ncard ∧
    (Dict.isEmpty context ↔ ∀ key value, ¬ Standing operations key value) ∧
    (∀ key value, Dict.get? context key = some value ↔ Standing operations key value) ∧
    (∀ key, Dict.contains context key ↔ ∃ value, Standing operations key value) ∧
    (∀ key,
      let removal := perform context (.remove key)
      (∀ value, removal.2 = some value ↔ Standing operations key value) ∧
      Dict.toList removal.1 = (Dict.toList context).filter (·.1 ≠ key) ∧
      ∀ other, Dict.get? removal.1 other = if other = key then none else Dict.get? context other) ∧
    ∀ others,
      ((∀ key, Option.Rel Value.Indistinct (Dict.get? context key) (Dict.get? (run others) key)) ↔
        context = run others) ∧
      ((∀ key, Option.Rel Value.Indistinct (Dict.get? context key) (Dict.get? (run others) key)) →
        Dict.toList context = Dict.toList (run others) ∧
        Json.encode context = Json.encode (run others) ∧
        (∀ template : Template,
          template.render (some context) = template.render (some (run others))) ∧
        ((Value.object context).equals (.object (run others)) ↔
          ¬ (Value.number .nan).PartOf (.object context))) := by
  intro context
  refine ⟨Dict.keys_pairwise context, ?_, size_run operations, isEmpty_run_iff, ?_, ?_, ?_, ?_⟩
  · intro key value
    rw [Dict.mem_toList_iff, get?_run_eq_some_iff]
  · intro key value
    exact get?_run_eq_some_iff
  · intro key
    exact contains_run_iff
  · intro key removal
    refine ⟨fun value => get?_run_eq_some_iff, ?_, ?_⟩
    · exact Dict.toList_erase context key
    · exact Dict.get?_erase context key
  · intro others
    refine ⟨indistinct_iff_eq, fun h => ?_⟩
    rw [← indistinct_iff_eq.1 h]
    exact ⟨rfl, rfl, fun template => rfl, Value.equals_self_iff (.object context)⟩

section

attribute [local instance] Json.standard

/-- Pairs with a key twice, or one write after another with a key taken back; the objects in them are
filled in opposite orders. -/
theorem run_canonical_reordered :
    let operations := [.insert "c" .null, .collect [("b", .null),
      ("a", .object (Dict.ofList [("y", .bool true), ("x", .number (.zero true))])),
      ("b", .list [.text "t"])], .remove "d"]
    let others := [.insert "b" (.list [.text "t"]), .insert "c" (.bool false), .remove "c",
      .insert "a" (.object (Dict.ofList [("x", .number (.zero true)), ("y", .bool true)]))]
    Dict.keys (run operations) = ["a", "b"] ∧
      Json.encode (run operations) = Json.encode (run others) ∧
      (Value.object (run operations)).equals (.object (run others)) := by
  intro operations others
  rcases run_canonical operations with ⟨-, -, -, -, -, -, -, hothers⟩
  have hlookups := (hothers others).1.2 rfl
  rcases (hothers others).2 hlookups with ⟨-, hdocument, -, hequals⟩
  exact ⟨by decide, hdocument, hequals.2 ((Value.equals_self_iff _).1 rfl)⟩

end

end Context
end Stencil
