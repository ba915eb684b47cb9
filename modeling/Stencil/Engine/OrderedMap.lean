/-!
# Ordered maps — entries in the order in which their keys came

A map from text keys can remember in which order the keys were inserted.  What is inserted under a known
key takes the place of what was there, and hands it out; what is inserted under a new key comes last.

* `OrderedMap` — the operations of such a map and its laws, all said about the listing of the entries;
* `OrderedMap.keys`, `OrderedMap.get?_insert` — the keys in order, and look-ups after an insertion;
* `KeyedList` — such a map as a plain list.
-/

namespace Stencil

/-- Maps from text keys that list their entries in the order in which the keys were inserted. -/
class OrderedMap (M : Type → Type) where
  /-- The map without entries. -/
  empty {V : Type} : M V
  /-- The map with a value under a key, and the value that gave way to it. -/
  insert {V : Type} : M V → String → V → M V × Option V
  /-- The value under a key. -/
  get? {V : Type} : M V → String → Option V
  /-- The entries in order. -/
  toList {V : Type} : M V → List (String × V)
  /-- The number of entries. -/
  size {V : Type} : M V → Nat
  /-- Whether there are no entries. -/
  isEmpty {V : Type} : M V → Bool
  /-- The map without any of its entries. -/
  clear {V : Type} : M V → M V
  toList_empty {V : Type} : toList (empty : M V) = []
  toList_clear {V : Type} (map : M V) : toList (clear map) = []
  /-- No key is there twice. -/
  nodup_keys {V : Type} (map : M V) : ((toList map).map Prod.fst).Nodup
  /-- An entry of a known key is exchanged in its place. -/
  insert_known {V : Type} {map : M V} {key : String} {old : V} {before after : List (String × V)}
    (new : V) : toList map = before ++ (key, old) :: after →
      toList (insert map key new).1 = before ++ (key, new) :: after ∧
        (insert map key new).2 = some old
  /-- An entry of a new key comes last. -/
  insert_new {V : Type} {map : M V} {key : String} (new : V) :
    key ∉ (toList map).map Prod.fst →
      toList (insert map key new).1 = toList map ++ [(key, new)] ∧ (insert map key new).2 = none
  get?_eq_some_iff {V : Type} {map : M V} {key : String} {value : V} :
    get? map key = some value ↔ (key, value) ∈ toList map
  size_eq {V : Type} (map : M V) : size map = (toList map).length
  isEmpty_eq {V : Type} (map : M V) : isEmpty map = (toList map).isEmpty

namespace OrderedMap

variable {M : Type → Type} [OrderedMap M] {V : Type}

/-- The keys in order. -/
def keys (map : M V) : List String := (toList map).map Prod.fst

/-- A key has an entry somewhere among the others, or it is new. -/
theorem known_or_new (map : M V) (key : String) :
    (∃ before old after, toList map = before ++ (key, old) :: after) ∨ key ∉ keys map := by
  by_cases known : key ∈ keys map
  · obtain ⟨⟨_, old⟩, mem, rfl⟩ := List.mem_map.1 known
    obtain ⟨before, after, whole⟩ := List.append_of_mem mem
    exact .inl ⟨before, old, after, whole⟩
  · exact .inr known

theorem get?_insert (map : M V) (key : String) (new : V) (wanted : String) :
    get? (insert map key new).1 wanted = if wanted = key then some new else get? map wanted := by
  by_cases same : wanted = key
  · subst same
    rw [if_pos rfl, get?_eq_some_iff]
    rcases known_or_new map wanted with ⟨before, old, after, whole⟩ | fresh
    · simp [(insert_known new whole).1]
    · simp [(insert_new new fresh).1]
  · rw [if_neg same]
    -- Another key stands in front of or behind the entry that is exchanged or added.
    ext value
    rw [get?_eq_some_iff, get?_eq_some_iff]
    rcases known_or_new map key with ⟨before, old, after, whole⟩ | fresh
    · simp [(insert_known new whole).1, whole, same]
    · simp [(insert_new new fresh).1, same]

end OrderedMap

/-! ## A map as a list -/

/-- Entries with different keys, in order. -/
structure KeyedList (V : Type) where
  entries : List (String × V)
  distinct : (entries.map Prod.fst).Nodup

namespace KeyedList

variable {V : Type}

/-- The entries with a value under a key, and the value that gave way to it. -/
def put (key : String) (new : V) : List (String × V) → List (String × V) × Option V
  | [] => ([(key, new)], none)
  | (first, value) :: rest =>
      if first = key then ((key, new) :: rest, some value)
      else ((first, value) :: (put key new rest).1, (put key new rest).2)

/-- The value under a key. -/
def find? (key : String) : List (String × V) → Option V
  | [] => none
  | (first, value) :: rest => if first = key then some value else find? key rest

theorem put_new {key : String} {entries : List (String × V)} (new : V) :
    key ∉ entries.map Prod.fst → put key new entries = (entries ++ [(key, new)], none) := by
  intro h
  induction entries with
  | nil =>
      rfl
  | cons entry rest ih =>
      simp only [List.map_cons, List.mem_cons, not_or] at h
      simp [put, Ne.symm h.1, ih h.2]

theorem put_known {key : String} {old : V} {before after : List (String × V)} (new : V) :
    key ∉ before.map Prod.fst →
      put key new (before ++ (key, old) :: after) = (before ++ (key, new) :: after, some old) := by
  intro h
  induction before with
  | nil =>
      simp [put]
  | cons entry rest ih =>
      simp only [List.map_cons, List.mem_cons, not_or] at h
      simp [put, Ne.symm h.1, ih h.2]

/-- A new key comes last, and a known one changes nothing about the keys. -/
theorem keys_put (key : String) (new : V) (entries : List (String × V)) :
    (put key new entries).1.map Prod.fst =
      if key ∈ entries.map Prod.fst then entries.map Prod.fst
      else entries.map Prod.fst ++ [key] := by
  induction entries with
  | nil =>
      rfl
  | cons entry rest ih =>
      by_cases here : entry.1 = key
      · simp [put, here]
      · by_cases later : key ∈ rest.map Prod.fst <;> simp_all [put, Ne.symm here]

theorem nodup_put {key : String} {entries : List (String × V)} (new : V) :
    (entries.map Prod.fst).Nodup → ((put key new entries).1.map Prod.fst).Nodup := by
  intro h
  rw [keys_put]
  split
  · exact h
  · rename_i fresh
    refine List.nodup_append.2 ⟨h, by simp, ?_⟩
    rintro first before second after rfl
    exact fresh (List.mem_singleton.1 after ▸ before)

theorem find?_eq_some_iff {key : String} {value : V} {entries : List (String × V)} :
    (entries.map Prod.fst).Nodup → (find? key entries = some value ↔ (key, value) ∈ entries) := by
  intro h
  induction entries with
  | nil =>
      simp [find?]
  | cons entry rest ih =>
      simp only [List.map_cons, List.nodup_cons] at h
      by_cases here : entry.1 = key
      · have other : (key, value) ∉ rest := fun mem =>
          h.1 (here ▸ List.mem_map_of_mem (f := Prod.fst) mem)
        simp [find?, here, other, Prod.ext_iff, eq_comm]
      · simp [find?, here, ih h.2, Prod.ext_iff, Ne.symm here]

instance : OrderedMap KeyedList where
  empty := ⟨[], .nil⟩
  insert map key new := (⟨(put key new map.entries).1, nodup_put new map.distinct⟩,
    (put key new map.entries).2)
  get? map key := find? key map.entries
  toList := entries
  size map := map.entries.length
  isEmpty map := map.entries.isEmpty
  clear _ := ⟨[], .nil⟩
  toList_empty := rfl
  toList_clear _ := rfl
  nodup_keys := distinct
  insert_known {_ map key old before after} new whole := by
    -- The law tells where some entry of the key stands, and `put` finds the first one.
    have first : key ∉ before.map Prod.fst := by
      have distinct := map.distinct
      rw [whole, List.map_append, List.nodup_append] at distinct
      exact fun mem => distinct.2.2 key mem key (by simp) rfl
    simp only [whole, put_known new first, and_self]
  insert_new new fresh := by
    simp only [put_new new fresh, and_self]
  get?_eq_some_iff {_ map _ _} := find?_eq_some_iff map.distinct
  size_eq _ := rfl
  isEmpty_eq _ := rfl

end KeyedList
end Stencil
