import Stencil.Dict.Lemmas
import Stencil.Json.Laws

/-!
# Records in documents — fields are found by their names

A record is written as an object with a member for every field.  Its fields are found again whatever
the order of the members, and a member that is left out takes away its own field only.  All of this
follows from the laws of a library, whichever it is.

* `Json.Conveys` — where a tree was written, a value is read;
* `Json.Holds` — the fields that are read where members were written;
* `Tree.without` — an object without some of its members;
* `Json.exists_record` — what a written record is read as, whole or without some members;
* `Json.fields?_without` — which fields are left when members are left out;
* `Json.WritesDict`, `Json.WritesDict.conveys` — a dictionary is read back from its entries in any
  order;
* `Json.exists_reads_alternative` — a named alternative is read with its content.
-/

namespace Stencil
namespace Json

/-! ## Members -/

namespace Tree

/-- The entries of a record are read value by value. -/
theorem entries?_record {α : Type} {read? : Tree → Option α} {trees : List (String × Tree)}
    {entries : List (String × α)} :
    List.Forall₂ (fun tree entry => tree.1 = entry.1 ∧ read? tree.2 = some entry.2) trees entries →
      entries? read? (trees.map fun (key, value) => (some key, value)) = some entries := by
  intro h
  induction h with
  | nil => rfl
  | @cons tree entry trees entries hentry _ ih => simp [entries?, ih, hentry.1, hentry.2]

/-- Whether a member stays when names are dropped. -/
def keeps (dropped : String → Bool) (member : Option String × Tree) : Bool :=
  !member.1.any dropped

/-- An object without the members whose names are dropped. -/
def without (dropped : String → Bool) : Tree → Tree
  | object members => object (members.filter (keeps dropped))
  | tree => tree

theorem without_none (tree : Tree) : (tree.without fun _ => false) = tree := by
  have hkeeps : keeps (fun _ => false) = fun _ => true := by
    funext member
    simp [keeps]
  cases tree <;> simp [without, hkeeps]

theorem without_record (dropped : String → Bool) (members : List (String × Tree)) :
    (record members).without dropped =
      record (members.filter fun member => !dropped member.1) := by
  simp [record, without, List.filter_map, keeps, Function.comp_def]

/-- When members are left out, their entries are left out. -/
theorem entries?_filter_keeps {members : List (Option String × Tree)}
    {entries : List (String × Tree)} (dropped : String → Bool) :
    entries? some members = some entries →
      entries? some (members.filter (keeps dropped)) =
        some (entries.filter fun entry => !dropped entry.1) := by
  intro h
  induction members generalizing entries with
  | nil =>
      cases h
      rfl
  | cons member members ih =>
      rcases member with ⟨_ | name, value⟩
      · cases h
      · rcases hentries : entries? some members with _ | rest
        · simp [entries?, hentries] at h
        · have hsplit : entries = (name, value) :: rest := by
            simpa [entries?, hentries] using h.symm
          subst hsplit
          have hrest := ih hentries
          cases hdropped : dropped name <;> simp [keeps, hdropped, entries?] at hrest ⊢ <;> simp [hrest]

end Tree

/-- The fields that are left when some names are dropped. -/
def LeavesOut (dropped : String → Bool) (fields rest : Dict Tree) : Prop :=
  ∀ name, rest.get? name = if dropped name then none else fields.get? name

/-- Entries that are left out take away their own fields, and the other fields stay. -/
theorem knownFields?_filter {names : List String} {entries : List (String × Tree)}
    {fields : Dict Tree} (dropped : String → Bool) :
    knownFields? names entries = some fields →
      ∃ rest, knownFields? names (entries.filter fun entry => !dropped entry.1) = some rest ∧
        LeavesOut dropped fields rest := by
  intro h
  -- It does not matter whether names are dropped before or after the known ones are picked out.
  have hcomm : (entries.filter fun entry => !dropped entry.1).filter (·.1 ∈ names) =
      (entries.filter (·.1 ∈ names)).filter fun entry => !dropped entry.1 := by
    rw [List.filter_filter, List.filter_filter]
    simp only [Bool.and_comm]
  by_cases hdistinct : ((entries.filter (·.1 ∈ names)).map Prod.fst).Nodup
  · rw [knownFields?, if_pos hdistinct] at h
    cases h
    have hfewer := hdistinct.sublist ((List.filter_sublist (p := fun entry : String × Tree =>
      !dropped entry.1)).map Prod.fst)
    refine ⟨_, by rw [knownFields?, hcomm, if_pos hfewer], fun name => ?_⟩
    -- The last entry under a name is the same one, or there is none left.
    rw [Dict.get?_ofList, Dict.get?_ofList, List.filter_filter]
    cases hdropped : dropped name with
    | true =>
        have hnone : ∀ entry : String × Tree,
            (decide (entry.1 = name) && !dropped entry.1) = false := by
          intro entry
          by_cases hname : entry.1 = name <;> simp [hname, hdropped]
        simp [hnone]
    | false =>
        have hsame : ∀ entry : String × Tree,
            (decide (entry.1 = name) && !dropped entry.1) = decide (entry.1 = name) := by
          intro entry
          by_cases hname : entry.1 = name <;> simp [hname, hdropped]
        simp [hsame]
  · rw [knownFields?, if_neg hdistinct] at h
    cases h

/-- A member of the one list has a member of the other one that it is related to. -/
theorem exists_of_forall₂ {α β : Type} {related : α → β → Prop} {first : List α} {second : List β}
    {b : β} : List.Forall₂ related first second → b ∈ second → ∃ a ∈ first, related a b := by
  intro h hmem
  induction h with
  | nil => cases hmem
  | @cons a _ first second hrelated _ ih =>
      rcases List.mem_cons.1 hmem with rfl | hlater
      · exact ⟨a, List.mem_cons_self, hrelated⟩
      · rcases ih hlater with ⟨other, hother, hrelated⟩
        exact ⟨other, List.mem_cons_of_mem _ hother, hrelated⟩

/-! ## Entries -/

section

variable {α : Type} {writes : α → Tree → Prop}

/-- A member with the key of an entry, where its value was written. -/
def WritesEntry (writes : α → Tree → Prop) (entry : String × α) (member : String × Tree) : Prop :=
  entry.1 = member.1 ∧ writes entry.2 member.2

/-- An object with the entries of a dictionary, in whatever order. -/
def WritesDict (writes : α → Tree → Prop) (dict : Dict α) (source : Tree) : Prop :=
  ∃ entries members, entries.Perm dict.toList ∧
    List.Forall₂ (WritesEntry writes) entries members ∧ source = .record members

theorem writesDict_ofDict {toTree : α → Tree} (dict : Dict α) :
    (∀ value, writes value (toTree value)) → WritesDict writes dict (.ofDict toTree dict) := by
  intro h
  refine ⟨dict.toList, _, .refl _, ?_, rfl⟩
  rw [List.forall₂_map_right_iff, List.forall₂_same]
  exact fun entry _ => ⟨rfl, h entry.2⟩

end

section

variable [Library]

/-! ## What a written tree conveys -/

/-- Where a tree was written, a value is read. -/
def Conveys {α : Type} (read? : Tree → Option α) (source : Tree) (value : α) : Prop :=
  ∃ tree, Reads source tree ∧ read? tree = some value

theorem Reads.unique {source tree other : Tree} :
    Reads source tree → Reads source other → tree = other := by
  intro h hother
  exact Option.some.inj (h.symm.trans hother)

section

variable {α : Type} {read? : Tree → Option α} {source : Tree} {value : α}

theorem Conveys.readable : Conveys read? source value → ∃ tree, Reads source tree := by
  rintro ⟨tree, hreads, -⟩
  exact ⟨tree, hreads⟩

theorem Conveys.decode? [Form α] :
    Conveys Form.ofTree? source value → Json.decode? (Library.write source) = some value := by
  rintro ⟨tree, hreads, hvalue⟩
  have hread : Library.read? (Library.write source) = some tree := hreads
  rw [Json.decode?, hread, Option.bind_some, hvalue]

end

section

variable [Faithful] [Declared]

theorem conveys_text (value : String) : Conveys Library.text? (.text value) value :=
  ⟨_, Faithful.reads_text value, Declared.text?_string (some value)⟩

theorem conveys_word {value : Nat} :
    value < UInt64.size → Conveys Library.word? (.natural value) value := by
  intro h
  exact ⟨_, Faithful.reads_natural h, Declared.word?_natural h⟩

end

/-! ## Fields -/

/-- The fields that are read where members were written. -/
structure Holds (sources : List (String × Tree)) (fields : Dict Tree) : Prop where
  found : ∀ {name : String} {source : Tree}, (name, source) ∈ sources →
    ∃ tree, Reads source tree ∧ fields.get? name = some tree

theorem Holds.field? [Declared] {α : Type} {read? : Tree → Option α} {source : Tree} {value : α}
    {sources : List (String × Tree)} {fields : Dict Tree} (holds : Holds sources fields)
    (name : String) (default : Option α) (mem : (name, source) ∈ sources)
    (conveys : Conveys read? source value) :
    Library.field? default read? (fields.get? name) = some value := by
  rcases conveys with ⟨tree, hreads, hvalue⟩
  -- Both trees are read from the same document.
  rcases holds.found mem with ⟨other, hother, hget⟩
  rw [hget, Declared.field?_some, ← hreads.unique hother, hvalue]

theorem ReadsMember.filter {sources trees : List (String × Tree)} (dropped : String → Bool) :
    List.Forall₂ ReadsMember sources trees →
      List.Forall₂ ReadsMember (sources.filter fun member => !dropped member.1)
        (trees.filter fun member => !dropped member.1) := by
  intro h
  induction h with
  | nil => exact .nil
  | @cons source tree sources trees hmember _ ih =>
      have hname : source.1 = tree.1 := hmember.1
      cases hdropped : dropped tree.1 with
      | true => simpa [hname, hdropped] using ih
      | false => simpa [hname, hdropped] using And.intro hmember ih

theorem ReadsMember.keys {sources trees : List (String × Tree)} :
    List.Forall₂ ReadsMember sources trees → sources.map Prod.fst = trees.map Prod.fst := by
  intro h
  induction h with
  | nil => rfl
  | cons hmember _ ih => rw [List.map_cons, List.map_cons, hmember.1, ih]

theorem ReadsMember.exists_of_readable {sources : List (String × Tree)} :
    (∀ member ∈ sources, ∃ tree, Reads member.2 tree) →
      ∃ trees, List.Forall₂ ReadsMember sources trees := by
  intro h
  induction sources with
  | nil => exact ⟨[], .nil⟩
  | cons source sources ih =>
      rcases List.forall_mem_cons.1 h with ⟨⟨tree, hreads⟩, hrest⟩
      rcases ih hrest with ⟨trees, htrees⟩
      exact ⟨(source.1, tree) :: trees, .cons ⟨rfl, hreads⟩ htrees⟩

/-- A member is read where it was written. -/
theorem ReadsMember.exists_of_mem {sources trees : List (String × Tree)} {name : String}
    {source : Tree} :
    List.Forall₂ ReadsMember sources trees → (name, source) ∈ sources →
      ∃ tree, Reads source tree ∧ (name, tree) ∈ trees := by
  intro h hmem
  rcases exists_of_forall₂ h.flip hmem with ⟨⟨_, tree⟩, htree, rfl, hreads⟩
  exact ⟨tree, hreads, htree⟩

/-- The members of a record are its fields, if their names are known and no two are the same. -/
theorem fields?_record [Declared] {names : List String} {trees : List (String × Tree)} :
    (∀ tree ∈ trees, tree.1 ∈ names) → (trees.map Prod.fst).Nodup →
      Library.fields? names (.record trees) = some (Dict.ofList trees) := by
  intro hknown hdistinct
  have hentries : Tree.entries? some (trees.map fun (key, value) => (some key, value)) =
      some trees :=
    Tree.entries?_record (List.forall₂_same.2 fun _ _ => ⟨rfl, rfl⟩)
  have hall : trees.filter (·.1 ∈ names) = trees := by
    simpa [List.filter_eq_self] using hknown
  rw [Tree.record, Declared.fields?_object, hentries, Option.bind_some, knownFields?, hall,
    if_pos hdistinct]

/-- Where a record was written, members are read, and the same ones are left out in both. -/
def ReadsRecord (source : Tree) (members : List (Option String × Tree)) : Prop :=
  ∀ dropped, Reads (source.without dropped) ((Tree.object members).without dropped)

theorem ReadsRecord.reads {source : Tree} {members : List (Option String × Tree)} :
    ReadsRecord source members → Reads source (.object members) := by
  intro h
  simpa only [Tree.without_none] using h fun _ => false

/-- A written record is read with its fields, if the names of its members are known and no two of
them are the same. -/
theorem exists_record [Faithful] [Declared] (names : List String)
    (sources : List (String × Tree)) :
    (∀ member ∈ sources, member.1 ∈ names) → (sources.map Prod.fst).Nodup →
      (∀ member ∈ sources, ∃ tree, Reads member.2 tree) →
        ∃ members fields, ReadsRecord (.record sources) members ∧
          Library.fields? names (.object members) = some fields ∧ Holds sources fields := by
  intro hknown hdistinct hreadable
  rcases ReadsMember.exists_of_readable hreadable with ⟨trees, htrees⟩
  have hkeys := ReadsMember.keys htrees
  have hnames : ∀ tree ∈ trees, tree.1 ∈ names := by
    intro tree hmem
    have hname : tree.1 ∈ sources.map Prod.fst := hkeys ▸ List.mem_map_of_mem hmem
    rcases List.mem_map.1 hname with ⟨source, hsource, hsame⟩
    exact hsame ▸ hknown source hsource
  refine ⟨_, _, fun dropped => ?_, fields?_record hnames (hkeys ▸ hdistinct), ⟨fun hmem => ?_⟩⟩
  · -- What is written without some members is a record again.
    have hreads := Faithful.reads_record (ReadsMember.filter dropped htrees)
    rw [← Tree.without_record, ← Tree.without_record] at hreads
    exact hreads
  · rcases ReadsMember.exists_of_mem htrees hmem with ⟨tree, hreads, htree⟩
    exact ⟨tree, hreads, Dict.get?_insertAll_of_mem _ (hkeys ▸ hdistinct) htree⟩

/-! ## Members that are left out -/

/-- A field that is left out has its default. -/
theorem LeavesOut.field? [Declared] {α : Type} {dropped : String → Bool} {fields rest : Dict Tree}
    {name : String} {read? : Tree → Option α} {value default : α} :
    LeavesOut dropped fields rest →
      Library.field? (some default) read? (fields.get? name) = some value →
        Library.field? (some default) read? (rest.get? name) =
          some (if dropped name then default else value) := by
  intro h hvalue
  rw [h]
  cases dropped name with
  | true => exact Declared.field?_none (some default) read?
  | false => exact hvalue

theorem fields?_without [Declared] {names : List String} {members : List (Option String × Tree)}
    {fields : Dict Tree} (dropped : String → Bool) :
    Library.fields? names (.object members) = some fields →
      ∃ rest, Library.fields? names ((Tree.object members).without dropped) = some rest ∧
        LeavesOut dropped fields rest := by
  intro h
  rw [Declared.fields?_object] at h
  rcases Option.bind_eq_some_iff.1 h with ⟨entries, hentries, hfields⟩
  rcases knownFields?_filter dropped hfields with ⟨rest, hrest, hleft⟩
  refine ⟨rest, ?_, hleft⟩
  rw [Tree.without, Declared.fields?_object, Tree.entries?_filter_keeps dropped hentries,
    Option.bind_some, hrest]

/-! ## Dictionaries -/

section

variable {α : Type} {writes : α → Tree → Prop} {read? : Tree → Option α}

theorem exists_entries {entries : List (String × α)} {members : List (String × Tree)} :
    (∀ value source, writes value source → Conveys read? source value) →
      List.Forall₂ (WritesEntry writes) entries members →
        ∃ trees, List.Forall₂ ReadsMember members trees ∧
          List.Forall₂ (fun tree entry => tree.1 = entry.1 ∧ read? tree.2 = some entry.2)
            trees entries := by
  intro hconveys h
  induction h with
  | nil => exact ⟨[], .nil, .nil⟩
  | @cons entry member entries members hentry _ ih =>
      rcases hconveys _ _ hentry.2 with ⟨tree, hreads, hvalue⟩
      rcases ih with ⟨trees, htrees, hentries⟩
      exact ⟨(entry.1, tree) :: trees, .cons ⟨hentry.1.symm, hreads⟩ htrees,
        .cons ⟨rfl, hvalue⟩ hentries⟩

/-- A dictionary is read back from its entries. -/
theorem WritesDict.conveys [Faithful] [Declared] {dict : Dict α} {source : Tree} :
    WritesDict writes dict source →
      (∀ value source, writes value source → Conveys read? source value) →
        Conveys (Library.dict? read?) source dict := by
  rintro ⟨entries, members, hperm, hmembers, rfl⟩ hconveys
  rcases exists_entries hconveys hmembers with ⟨trees, htrees, hentries⟩
  refine ⟨.record trees, Faithful.reads_record htrees, ?_⟩
  rw [Tree.record, Declared.dict?_object, Tree.entries?_record hentries, Option.map_some,
    Dict.ofList_of_perm hperm]

end

/-! ## Alternatives -/

/-- A named alternative is read with its content. -/
theorem exists_reads_alternative [Faithful] [Declared] (name : String) {content tree : Tree} :
    Reads content tree →
      ∃ read, Reads (Library.alternative name (some content)) read ∧
        Library.alternative? read = some (name, some tree) := by
  intro h
  have hmember : List.Forall₂ ReadsMember [(name, content)] [(name, tree)] :=
    .cons ⟨rfl, h⟩ .nil
  rw [Declared.alternative_some]
  exact ⟨_, Faithful.reads_record hmember, Declared.alternative?_record name tree⟩

/-- A named alternative without content is read from its name. -/
theorem exists_reads_name [Faithful] [Declared] (name : String) :
    ∃ read, Reads (Library.alternative name none) read ∧
      Library.alternative? read = some (name, none) := by
  rw [Declared.alternative_none]
  exact ⟨_, Faithful.reads_text name, Declared.alternative?_text name⟩

end

end Json
end Stencil
