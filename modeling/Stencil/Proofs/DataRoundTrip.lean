import Stencil.Dict.Lemmas
import Stencil.Proofs.Lawful
import Stencil.Proofs.Variants

/-!
# Data in documents — template data is read back from its document

The variants of a value are told apart by the shape of the document alone, and a number is written as
a decimal that rounds to it.  So all of a value comes back but the numbers that are not finite, which
no document can hold.  The library may be any one that obeys the laws.

* `Value.depth` — how many lists and objects stand inside one another;
* `Value.finitePart`, `Value.IsFinite` — a value with null for every number that is not finite, and a
  value without such numbers;
* `Value.exists_reads` — what the document of a value is read as;
* `Value.decode?_encode_eq` — so a value comes back from its document.
-/

namespace Stencil

/-! ## Values -/

namespace Value

mutual

/-- How many lists and objects stand inside one another. -/
def depth : Value → Nat
  | null | bool _ | number _ | text _ => 0
  | list items => depthOfItems items + 1
  | object entries => depthOfEntries entries + 1

/-- The greatest depth among items. -/
def depthOfItems : List Value → Nat
  | [] => 0
  | item :: items => max (depth item) (depthOfItems items)

/-- The greatest depth among entries. -/
def depthOfEntries : {low : Option String} → Ascending Value low → Nat
  | _, .nil => 0
  | _, .cons _ value _ rest => max (depth value) (depthOfEntries rest)

end

mutual

/-- A value with null in place of every number that is not finite. -/
def finitePart : Value → Value
  | null => null
  | bool value => bool value
  | number value => if value.isFinite then number value else null
  | text value => text value
  | list items => list (finiteItems items)
  | object entries => object (finiteEntries entries)

/-- Items with null in place of every number that is not finite. -/
def finiteItems : List Value → List Value
  | [] => []
  | item :: items => finitePart item :: finiteItems items

/-- Entries with null in place of every number that is not finite. -/
def finiteEntries : {low : Option String} → Ascending Value low → Ascending Value low
  | _, .nil => .nil
  | _, .cons key value above rest => .cons key (finitePart value) above (finiteEntries rest)

end

mutual

/-- All numbers in a value are finite. -/
def IsFinite : Value → Prop
  | null | bool _ | text _ => True
  | number value => value.isFinite
  | list items => AllFinite items
  | object entries => EntriesFinite entries

/-- All numbers in items are finite. -/
def AllFinite : List Value → Prop
  | [] => True
  | item :: items => IsFinite item ∧ AllFinite items

/-- All numbers in entries are finite. -/
def EntriesFinite : {low : Option String} → Ascending Value low → Prop
  | _, .nil => True
  | _, .cons _ value _ rest => IsFinite value ∧ EntriesFinite rest

end

mutual

/-- Nothing is replaced in a value exactly when all its numbers are finite. -/
theorem finitePart_eq_self_iff : ∀ value : Value, value.finitePart = value ↔ value.IsFinite
  | null | bool _ | text _ => by simp [finitePart, IsFinite]
  | number value => by
      cases h : value.isFinite <;> simp [finitePart, IsFinite, h]
  | list items => by
      simpa [finitePart, IsFinite] using finiteItems_eq_self_iff items
  | object entries => by
      simpa [finitePart, IsFinite] using finiteEntries_eq_self_iff entries

theorem finiteItems_eq_self_iff : ∀ items : List Value, finiteItems items = items ↔ AllFinite items
  | [] => by simp [finiteItems, AllFinite]
  | item :: items => by
      simp [finiteItems, AllFinite, finitePart_eq_self_iff item, finiteItems_eq_self_iff items]

theorem finiteEntries_eq_self_iff : ∀ {low : Option String} (entries : Ascending Value low),
    finiteEntries entries = entries ↔ EntriesFinite entries
  | _, .nil => by simp [finiteEntries, EntriesFinite]
  | _, .cons key value above rest => by
      simp [finiteEntries, EntriesFinite, finitePart_eq_self_iff value,
        finiteEntries_eq_self_iff rest]

end

end Value

/-! ## The document of a value -/

namespace Value

open Json (Tree Library Faithful Rounded Declared Undeclared Reads ReadsMember)

section

variable [Library]

mutual

/-- The document already has null in place of numbers that are not finite. -/
theorem toTree_finitePart [Rounded] : ∀ value : Value, value.finitePart.toTree = value.toTree
  | null | bool _ | text _ => by simp [finitePart]
  | number value => by
      cases h : value.isFinite <;> simp [finitePart, h, toTree, Rounded.ofNumber_of_not_finite]
  | list items => by
      simp [finitePart, toTree, itemTrees_finiteItems items]
  | object entries => by
      simp [finitePart, toTree, memberTrees_finiteEntries entries]

theorem itemTrees_finiteItems [Rounded] : ∀ items : List Value,
    itemTrees (finiteItems items) = itemTrees items
  | [] => rfl
  | item :: items => by
      simp [finiteItems, itemTrees, toTree_finitePart item, itemTrees_finiteItems items]

theorem memberTrees_finiteEntries [Rounded] :
    ∀ {low : Option String} (entries : Ascending Value low),
    memberTrees (finiteEntries entries) = memberTrees entries
  | _, .nil => rfl
  | _, .cons key value above rest => by
      simp [finiteEntries, memberTrees, toTree_finitePart value, memberTrees_finiteEntries rest]

end

/-- A number is read from its decimal, and as null if it has none. -/
theorem exists_reads_number [Faithful] [Rounded] [Undeclared] (value : Number) :
    ∃ tree, Reads (Library.ofNumber value) tree ∧ ofTree? tree = some (number value).finitePart ∧
      tree.depth = 0 := by
  cases hfinite : value.isFinite with
  | false =>
      refine ⟨.null, ?_, ?_, rfl⟩
      · rw [Rounded.ofNumber_of_not_finite hfinite]
        exact Faithful.reads_null
      · rw [ofTree?_null, finitePart, hfinite]
        rfl
  | true =>
      rcases Rounded.reads_ofNumber hfinite with ⟨decimal, hreads, hshort, rfl⟩
      refine ⟨.decimal decimal, hreads, ?_, rfl⟩
      rw [ofTree?_decimal, Rounded.numeral?_decimal hshort hfinite, Option.bind_some,
        Undeclared.asNumber?_eq, finitePart, hfinite]
      rfl

mutual

/-- What the document of a value is read as stands for its finite part. -/
theorem exists_reads [Faithful] [Rounded] [Undeclared] : ∀ value : Value,
    ∃ tree, Reads value.toTree tree ∧ ofTree? tree = some value.finitePart ∧
      tree.depth = value.depth
  | null => ⟨.null, Faithful.reads_null, ofTree?_null, rfl⟩
  | bool value => ⟨.bool value, Faithful.reads_bool value, ofTree?_bool value, rfl⟩
  | number value => exists_reads_number value
  | text value => ⟨.text value, Faithful.reads_text value, ofTree?_string (some value), rfl⟩
  | list items => by
      rcases exists_reads_items items with ⟨trees, hreads, hitems, hdepth⟩
      refine ⟨.array trees, Faithful.reads_array hreads, ?_, ?_⟩
      · rw [ofTree?_array, hitems]
        rfl
      · rw [Tree.depth, hdepth]
        rfl
  | object entries => by
      rcases exists_reads_entries entries with ⟨trees, hreads, hmembers, hdepth⟩
      refine ⟨.record trees, Faithful.reads_record hreads, ?_, ?_⟩
      · -- Entries are written in key order, so no key is read twice.
        rw [Tree.record, ofTree?_object, hmembers]
        exact congrArg (fun entries => some (object entries)) (Dict.ofList_toList _)
      · rw [Tree.record, Tree.depth, hdepth]
        rfl

theorem exists_reads_items [Faithful] [Rounded] [Undeclared] : ∀ items : List Value,
    ∃ trees, List.Forall₂ Reads (itemTrees items) trees ∧
      trees.mapM ofTree? = some (finiteItems items) ∧ Tree.depthOfItems trees = depthOfItems items
  | [] => ⟨[], .nil, rfl, rfl⟩
  | item :: items => by
      rcases exists_reads item with ⟨tree, hread, hitem, hdepth⟩
      rcases exists_reads_items items with ⟨trees, hreads, hitems, hdepths⟩
      refine ⟨tree :: trees, .cons hread hreads, ?_, ?_⟩
      · simp [hitem, hitems, finiteItems]
      · rw [Tree.depthOfItems, hdepth, hdepths]
        rfl

theorem exists_reads_entries [Faithful] [Rounded] [Undeclared] :
    ∀ {low : Option String} (entries : Ascending Value low), ∃ trees : List (String × Tree),
      List.Forall₂ ReadsMember (memberTrees entries) trees ∧
      Tree.entries? ofTree? (trees.map fun (key, value) => (some key, value)) =
        some (finiteEntries entries).toList ∧
      Tree.depthOfMembers (trees.map fun (key, value) => (some key, value)) =
        depthOfEntries entries
  | _, .nil => ⟨[], .nil, rfl, rfl⟩
  | _, .cons key value above rest => by
      rcases exists_reads value with ⟨tree, hread, hvalue, hdepth⟩
      rcases exists_reads_entries rest with ⟨trees, hreads, hmembers, hdepths⟩
      refine ⟨(key, tree) :: trees, .cons ⟨rfl, hread⟩ hreads, ?_, ?_⟩
      · simp [Tree.entries?, hvalue, hmembers, finiteEntries, Ascending.toList]
      · rw [List.map_cons, Tree.depthOfMembers, hdepth, hdepths]
        rfl

end

/-- A value comes back from its document with null for every number that is not finite, unless it is
nested too deep to be read. -/
theorem decode?_encode_eq [Faithful] [Rounded] [Undeclared] (value : Value) :
    Json.decode? (Json.encode value) =
      if value.depth ≤ Library.depthLimit then some value.finitePart else none := by
  rcases exists_reads value with ⟨tree, hreads, hvalue, hdepth⟩
  have hread : Library.read? (Json.encode value) = some tree := hreads
  rw [Json.decode?, hread, Option.bind_some]
  change (Library.bounded? tree).bind ofTree? = _
  -- A document is nested as deep as the value that it was written for.
  rw [Undeclared.bounded?_eq, hdepth]
  split
  · exact hvalue
  · rfl

/-- A context is read as a value first, which must be an object. -/
theorem decode?_context [Declared] [Undeclared] (document : String) :
    (Json.decode? document : Option Context) =
      (Json.decode? document : Option Value).bind entries? := by
  rw [Json.decode?, Json.decode?, Option.bind_assoc]
  congr 1
  funext tree
  change (Library.bounded? tree).bind (Library.dict? ofTree?) =
    ((Library.bounded? tree).bind ofTree?).bind entries?
  rw [Option.bind_assoc]
  exact congrArg _ (funext dict?_ofTree?)

end

end Value

section

open Json (Library Faithful Rounded Declared Undeclared)

variable [Library] [Faithful] [Rounded] [Declared] [Undeclared]

/-- Template data is read back from its document, as a value or as a context: everything but the
numbers that are not finite, in place of which null is read.  So data comes back as it was exactly
when all its numbers are finite, and what is read is written alike.  Only data that is nested too deep
cannot be read again. -/
theorem data_round_trip (value : Value) (context : Context) :
    (Json.decode? (Json.encode value) =
        if value.depth ≤ Library.depthLimit then some value.finitePart else none) ∧
    (value.finitePart = value ↔ value.IsFinite) ∧
    Json.encode value.finitePart = Json.encode value ∧
    (Json.decode? (Json.encode context) =
        if (Value.object context).depth ≤ Library.depthLimit then
          some (Value.finiteEntries context : Context)
        else none) ∧
    (Value.finiteEntries context = context ↔ (Value.object context).IsFinite) ∧
    Json.encode (Value.finiteEntries context : Context) = Json.encode context := by
  refine ⟨Value.decode?_encode_eq value, Value.finitePart_eq_self_iff value,
    congrArg Library.write (Value.toTree_finitePart value), ?_, ?_,
    congrArg Library.write (Value.toTree_finitePart (.object context))⟩
  · -- A context has the document of its object.
    have hobject : Json.encode context = Json.encode (Value.object context) := rfl
    rw [Value.decode?_context, hobject, Value.decode?_encode_eq]
    split <;> rfl
  · simpa [Value.finitePart] using Value.finitePart_eq_self_iff (.object context)

end

section

open Json (Library)

attribute [local instance] Json.standard

/-- A list with numbers of which some are not finite, a negative zero, a text that must be escaped and
an empty object, alone and in a context. -/
theorem data_round_trip_escaped :
    let items (special : Value → Value) : Value :=
      .list [special (.number .nan), .number (.zero true), special (.number (.infinite true)),
        .text "\"\\\n\x07é", .object ∅, .bool false]
    let context (special : Value → Value) : Context := .ofList [("b", items special), ("a", .null)]
    Json.encode (items id) = "[null,-0.0,null,\"\\\"\\\\\\n\\u0007é\",\x7b\x7d,false]" ∧
    Json.decode? (Json.encode (items id)) = some (items fun _ => .null) ∧
    Json.decode? (Json.encode (context id)) = some (context fun _ => .null) := by
  intro items context
  rcases data_round_trip (items id) (context id) with ⟨hvalue, -, -, hcontext, -, -⟩
  have hitems : (items id).depth ≤ Library.depthLimit := by decide
  have hdepth : (Value.object (context id)).depth ≤ Library.depthLimit := by decide
  have hfinite : (Value.finiteEntries (context id) : Context) = context fun _ => .null := by
    simp only [context, items]
    rfl
  rw [if_pos hitems] at hvalue
  rw [if_pos hdepth, hfinite] at hcontext
  exact ⟨by decide +kernel, hvalue, hcontext⟩

end

end Stencil
