import Stencil.Dict.Basic

/-!
# Laws of dictionaries — look-ups after writes, order, and equality

* `Dict.get?_insert`, `Dict.get?_replace`, `Dict.get?_erase` — what a look-up finds after a write or
  a removal;
* `Dict.keys_pairwise` — the keys stand in strictly ascending order;
* `Dict.ext` — dictionaries that answer every look-up alike are equal;
* `Dict.ofList_of_perm` — a dictionary is made of its entries, in whatever order they come.
-/

namespace Stencil

namespace Ascending

variable {α : Type} {low : Option String}

/-- No key at or below the bound is found. -/
theorem get?_eq_none_of_not_above (entries : Ascending α low) (key : String)
    (h : ¬ AboveBound low key) : entries.get? key = none := by
  induction entries with
  | nil => rfl
  | cons first value above rest ih =>
      have other : key ≠ first := fun same => h (same ▸ above)
      simp only [get?, other, if_false]
      exact ih fun later => h (above.of_lt later)

@[simp] theorem get?_relax {high : Option String}
    (entries : Ascending α high) (weaker : ∀ key, AboveBound high key → AboveBound low key)
    (key : String) : (relax entries weaker).get? key = entries.get? key := by
  cases entries with
  | nil => rfl
  | cons first value above rest => rfl

theorem get?_insert (entries : Ascending α low) (key : String) (value : α)
    (above : AboveBound low key) (wanted : String) :
    (entries.insert key value above).get? wanted =
      if wanted = key then some value else entries.get? wanted := by
  induction entries with
  | nil => rfl
  | cons first kept firstAbove rest ih =>
      simp only [insert]
      split
      · rename_i same
        subst same
        by_cases h : wanted = key <;> simp [get?, h]
      · split
        · by_cases h : wanted = key <;> simp [get?, h]
        · rename_i other _
          by_cases h : wanted = first
          · simp [get?, h, Ne.symm other]
          · simp only [get?, h, if_false]
            exact ih _

theorem get?_replace (entries : Ascending α low) (key : String) (value : α) (wanted : String) :
    (entries.replace key value).get? wanted =
      if wanted = key then (entries.get? key).map fun _ => value else entries.get? wanted := by
  induction entries with
  | nil => simp [replace, get?]
  | cons first kept firstAbove rest ih =>
      simp only [replace]
      split
      · rename_i same
        subst same
        by_cases h : wanted = key <;> simp [get?, h]
      · rename_i other
        by_cases h : wanted = first
        · simp [get?, h, Ne.symm other]
        · simp [get?, h, other, ih]

theorem get?_erase (entries : Ascending α low) (key wanted : String) :
    (entries.erase key).get? wanted = if wanted = key then none else entries.get? wanted := by
  induction entries with
  | nil => simp [erase, get?]
  | cons first kept firstAbove rest ih =>
      simp only [erase]
      split
      · rename_i same
        subst same
        by_cases h : wanted = key
        · subst h
          simp [get?_eq_none_of_not_above rest wanted Std.lt_irrefl]
        · simp [get?, h]
      · rename_i other
        by_cases h : wanted = first
        · simp [get?, h, Ne.symm other]
        · simp [get?, h, ih]

/-- Every key lies above the bound. -/
theorem above_of_mem {entries : Ascending α low} {entry : String × α}
    (h : entry ∈ entries.toList) : AboveBound low entry.1 := by
  induction entries with
  | nil => cases h
  | cons first value above rest ih =>
      rcases List.mem_cons.1 h with rfl | later
      · exact above
      · exact above.of_lt (ih later)

theorem toList_pairwise (entries : Ascending α low) :
    entries.toList.Pairwise fun left right => left.1 < right.1 := by
  induction entries with
  | nil => exact .nil
  | cons first value above rest ih =>
      exact .cons (fun entry later => above_of_mem later) ih

@[simp] theorem toList_relax {high : Option String}
    (entries : Ascending α high) (weaker : ∀ key, AboveBound high key → AboveBound low key) :
    (relax entries weaker).toList = entries.toList := by
  cases entries with
  | nil => rfl
  | cons first value above rest => rfl

/-- A removal takes one key out of the entries. -/
theorem toList_erase (entries : Ascending α low) (key : String) :
    (entries.erase key).toList = entries.toList.filter (·.1 ≠ key) := by
  induction entries with
  | nil => rfl
  | cons first value above rest ih =>
      simp only [erase]
      split
      · rename_i same
        subst same
        have kept : rest.toList.filter (·.1 ≠ key) = rest.toList :=
          List.filter_eq_self.2 fun entry mem =>
            decide_eq_true (Std.ne_of_lt (above_of_mem mem)).symm
        simpa [toList] using kept.symm
      · rename_i other
        simp [toList, ih, Ne.symm other]

/-- A key is found exactly when it is among the keys. -/
theorem isSome_get?_iff (entries : Ascending α low) (key : String) :
    (entries.get? key).isSome ↔ key ∈ entries.toList.map Prod.fst := by
  induction entries with
  | nil => simp [get?, toList]
  | cons first value above rest ih =>
      by_cases h : key = first <;> simp_all [get?, toList]

/-- An entry is what is found under its key. -/
theorem mem_toList_iff (entries : Ascending α low) (key : String) (value : α) :
    (key, value) ∈ entries.toList ↔ entries.get? key = some value := by
  induction entries with
  | nil => simp [get?, toList]
  | cons first kept above rest ih =>
      by_cases h : key = first
      · subst h
        have later : (key, value) ∉ rest.toList := fun mem => Std.lt_irrefl (above_of_mem mem)
        simp [get?, toList, later, eq_comm]
      · simp [get?, toList, h, ih]

/-- Entries that answer every look-up alike are equal. -/
theorem ext_get? : {low : Option String} → {left right : Ascending α low} →
    (∀ key, left.get? key = right.get? key) → left = right
  | _, nil, nil, _ => rfl
  | _, nil, cons key value above rest, h => by simpa [get?] using h key
  | _, cons key value above rest, nil, h => by simpa [get?] using h key
  | _, cons key value above rest, cons key' value' above' rest', h => by
      -- The least key of each side is found in the other one, so neither can be the smaller.
      have same : key = key' := by
        rcases Std.lt_trichotomy key key' with before | same | after
        · have := h key
          have other : key ≠ key' := Std.ne_of_lt before
          have unseen := get?_eq_none_of_not_above rest' key (Std.not_lt.2 (Std.le_of_lt before))
          simp [get?, other, unseen] at this
        · exact same
        · have := h key'
          have other : key' ≠ key := Std.ne_of_lt after
          have unseen := get?_eq_none_of_not_above rest key' (Std.not_lt.2 (Std.le_of_lt after))
          simp [get?, other, unseen] at this
      subst same
      have sameValue : value = value' := by simpa [get?] using h key
      subst sameValue
      -- Behind the first entry, only other keys are found.
      have : rest = rest' := ext_get? fun wanted => by
        by_cases at_ : wanted = key
        · subst at_
          rw [get?_eq_none_of_not_above rest wanted Std.lt_irrefl,
            get?_eq_none_of_not_above rest' wanted Std.lt_irrefl]
        · simpa [get?, at_] using h wanted
      rw [this]

end Ascending

namespace Dict

variable {α : Type}

@[simp] theorem get?_empty (key : String) : (empty : Dict α).get? key = none := rfl

theorem get?_insert (dict : Dict α) (key : String) (value : α) (wanted : String) :
    (dict.insert key value).get? wanted = if wanted = key then some value else dict.get? wanted :=
  Ascending.get?_insert dict key value trivial wanted

theorem get?_replace (dict : Dict α) (key : String) (value : α) (wanted : String) :
    (dict.replace key value).get? wanted =
      if wanted = key then (dict.get? key).map fun _ => value else dict.get? wanted :=
  Ascending.get?_replace dict key value wanted

/-- After several writes, the last one under a key counts. -/
theorem get?_insertAll (dict : Dict α) (entries : List (String × α)) (wanted : String) :
    (dict.insertAll entries).get? wanted =
      (((entries.filter (·.1 = wanted)).getLast?).map Prod.snd).or (dict.get? wanted) := by
  induction entries generalizing dict with
  | nil => rfl
  | cons entry entries ih =>
      have hrest : (dict.insertAll (entry :: entries)).get? wanted =
          ((dict.insert entry.1 entry.2).insertAll entries).get? wanted := rfl
      rw [hrest, ih, get?_insert]
      by_cases h : entry.1 = wanted
      · cases hlast : (entries.filter (·.1 = wanted)).getLast? <;>
          simp [h, hlast, List.getLast?_cons]
      · simp [h, Ne.symm h]

theorem get?_ofList (entries : List (String × α)) (wanted : String) :
    (ofList entries).get? wanted = ((entries.filter (·.1 = wanted)).getLast?).map Prod.snd := by
  rw [ofList, get?_insertAll, get?_empty, Option.or_none]

theorem get?_erase (dict : Dict α) (key wanted : String) :
    (dict.erase key).get? wanted = if wanted = key then none else dict.get? wanted :=
  Ascending.get?_erase dict key wanted

/-- The keys stand in strictly ascending order. -/
theorem keys_pairwise (dict : Dict α) : dict.keys.Pairwise (· < ·) :=
  List.pairwise_map.2 (Ascending.toList_pairwise dict)

/-- A key is found exactly when it is among the keys. -/
theorem isSome_get?_iff (dict : Dict α) (key : String) :
    (dict.get? key).isSome ↔ key ∈ dict.keys :=
  Ascending.isSome_get?_iff dict key

theorem nodup_keys (dict : Dict α) : dict.keys.Nodup :=
  dict.keys_pairwise.imp Std.ne_of_lt

/-- An entry is what is found under its key. -/
theorem mem_toList_iff (dict : Dict α) (key : String) (value : α) :
    (key, value) ∈ dict.toList ↔ dict.get? key = some value :=
  Ascending.mem_toList_iff dict key value

/-- A removal takes one key out of the entries. -/
theorem toList_erase (dict : Dict α) (key : String) :
    (dict.erase key).toList = dict.toList.filter (·.1 ≠ key) :=
  Ascending.toList_erase dict key

/-- Keys that are not among the written ones keep their value. -/
theorem get?_insertAll_of_not_mem (dict : Dict α) {entries : List (String × α)} {key : String}
    (h : key ∉ entries.map Prod.fst) : (dict.insertAll entries).get? key = dict.get? key := by
  have none_left : entries.filter (·.1 = key) = [] := by
    refine List.filter_eq_nil_iff.2 fun entry mem same => h ?_
    exact List.mem_map.2 ⟨entry, mem, by simpa using same⟩
  rw [get?_insertAll, none_left]
  rfl

/-- Where no key is written twice, every write counts. -/
theorem get?_insertAll_of_mem (dict : Dict α) {entries : List (String × α)} {key : String}
    {value : α} (distinct : (entries.map Prod.fst).Nodup) (h : (key, value) ∈ entries) :
    (dict.insertAll entries).get? key = some value := by
  induction entries generalizing dict with
  | nil => cases h
  | cons entry entries ih =>
      rw [List.map_cons, List.nodup_cons] at distinct
      have rest : (dict.insertAll (entry :: entries)).get? key =
          ((dict.insert entry.1 entry.2).insertAll entries).get? key := rfl
      rw [rest]
      rcases List.mem_cons.1 h with rfl | later
      · rw [get?_insertAll_of_not_mem _ distinct.1, get?_insert, if_pos rfl]
      · exact ih _ distinct.2 later

/-- Dictionaries that answer every look-up alike are equal. -/
theorem ext {left right : Dict α} (h : ∀ key, left.get? key = right.get? key) : left = right :=
  Ascending.ext_get? h

/-- A dictionary is made of its entries, in whatever order they come. -/
theorem ofList_of_perm {dict : Dict α} {entries : List (String × α)}
    (h : entries.Perm dict.toList) : ofList entries = dict := by
  have distinct : (entries.map Prod.fst).Nodup := (h.map Prod.fst).nodup_iff.2 dict.nodup_keys
  refine ext fun key => ?_
  cases found : dict.get? key with
  | some value =>
      exact get?_insertAll_of_mem _ distinct (h.mem_iff.2 ((dict.mem_toList_iff key value).2 found))
  | none =>
      refine get?_insertAll_of_not_mem _ fun mem => ?_
      have known : key ∈ dict.keys := (h.map Prod.fst).mem_iff.1 mem
      simp [← dict.isSome_get?_iff, found] at known

theorem ofList_toList (dict : Dict α) : ofList dict.toList = dict :=
  ofList_of_perm (.refl _)

end Dict
end Stencil
