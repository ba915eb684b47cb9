/-!
# Dictionaries — finite maps from text keys, in key order

A dictionary holds each key once and its entries in ascending order of their keys.  The order is
part of the type, so two dictionaries with the same entries are equal.

* `Ascending α low` — entries whose keys all lie above the bound `low`, each above the one before;
* `Dict α` — such entries without a bound, with `get?`, `insert`, `replace`, `erase`, `ofList` and
  `toList`.
-/

namespace Stencil

/-- A key lies above a lower bound; every key lies above the absent bound. -/
def AboveBound : Option String → String → Prop
  | none, _ => True
  | some low, key => low < key

instance AboveBound.decide : (low : Option String) → (key : String) → Decidable (AboveBound low key)
  | none, _ => inferInstanceAs (Decidable True)
  | some low, key => inferInstanceAs (Decidable (low < key))

/-- What lies above a key that is above the bound is above the bound. -/
theorem AboveBound.of_lt {low : Option String} {first key : String} (above : AboveBound low first)
    (after : first < key) : AboveBound low key := by
  cases low with
  | none => trivial
  | some low => exact Std.lt_trans above after

/-- Entries in strictly ascending order of their keys, all above a bound. -/
inductive Ascending (α : Type) : Option String → Type where
  | nil {low : Option String} : Ascending α low
  | cons {low : Option String} (key : String) (value : α) (above : AboveBound low key)
      (rest : Ascending α (some key)) : Ascending α low
  deriving DecidableEq

namespace Ascending

variable {α β : Type} {low high : Option String}

/-- The entries as a list of pairs. -/
def toList : {low : Option String} → Ascending α low → List (String × α)
  | _, nil => []
  | _, cons key value _ rest => (key, value) :: toList rest

/-- The value under a key. -/
def get? : {low : Option String} → Ascending α low → String → Option α
  | _, nil, _ => none
  | _, cons key value _ rest, wanted => if wanted = key then some value else get? rest wanted

/-- The entries with a value under a key, which replaces the one it had. -/
def insert : {low : Option String} → Ascending α low → (key : String) → α → AboveBound low key →
    Ascending α low
  | _, nil, key, value, above => cons key value above nil
  | _, cons first kept firstAbove rest, key, value, above =>
      if same : key = first then
        cons first value firstAbove rest
      else if before : key < first then
        -- The new key comes first, and it is the bound of what follows.
        cons key value above (cons first kept before rest)
      else
        cons first kept firstAbove <|
          insert rest key value <| Std.not_le.1 fun le =>
            (Std.le_iff_lt_or_eq.1 le).elim before same

/-- The entries with another value under a key, if there is one. -/
def replace : {low : Option String} → Ascending α low → (key : String) → α → Ascending α low
  | _, nil, _, _ => nil
  | _, cons first kept above rest, key, value =>
      if key = first then cons first value above rest
      else cons first kept above (replace rest key value)

/-- The same entries above a lower bound. -/
def relax (entries : Ascending α high)
    (weaker : ∀ key, AboveBound high key → AboveBound low key) : Ascending α low :=
  match entries with
  | nil => nil
  | cons key value above rest => cons key value (weaker key above) rest

/-- The entries without a key. -/
def erase : {low : Option String} → Ascending α low → String → Ascending α low
  | _, nil, _ => nil
  | _, cons key value above rest, wanted =>
      if wanted = key then
        -- What lay above the key lies above what the key lay above.
        relax rest fun _ later => above.of_lt later
      else
        cons key value above (erase rest wanted)

/-- The entries with a function applied to every value. -/
def map (f : α → β) : {low : Option String} → Ascending α low → Ascending β low
  | _, nil => nil
  | _, cons key value above rest => cons key (f value) above (map f rest)

end Ascending

/-- A finite map from text keys, kept in key order. -/
abbrev Dict (α : Type) : Type := Ascending α none

namespace Dict

variable {α : Type}

/-- The dictionary without entries. -/
def empty : Dict α := .nil

instance : EmptyCollection (Dict α) := ⟨empty⟩
instance : Inhabited (Dict α) := ⟨empty⟩

/-- The entries in key order. -/
def toList (dict : Dict α) : List (String × α) := Ascending.toList dict

/-- The keys in order. -/
def keys (dict : Dict α) : List String := dict.toList.map Prod.fst

/-- The number of entries. -/
def size (dict : Dict α) : Nat := dict.toList.length

/-- Whether there are no entries. -/
def isEmpty (dict : Dict α) : Bool := dict.toList.isEmpty

/-- The value under a key. -/
def get? (dict : Dict α) (key : String) : Option α := Ascending.get? dict key

/-- Whether there is a value under a key. -/
def contains (dict : Dict α) (key : String) : Bool := (dict.get? key).isSome

/-- The dictionary with a value under a key, which replaces the one it had. -/
def insert (dict : Dict α) (key : String) (value : α) : Dict α :=
  Ascending.insert dict key value trivial

/-- The dictionary with another value under a key, if there is one. -/
def replace (dict : Dict α) (key : String) (value : α) : Dict α :=
  Ascending.replace dict key value

/-- The dictionary without a key. -/
def erase (dict : Dict α) (key : String) : Dict α := Ascending.erase dict key

/-- The dictionary without a key, and the value that was under it. -/
def remove (dict : Dict α) (key : String) : Dict α × Option α := (dict.erase key, dict.get? key)

/-- The dictionary with all pairs of a list, of which the last one under a key counts. -/
def insertAll (dict : Dict α) (entries : List (String × α)) : Dict α :=
  entries.foldl (fun dict entry => dict.insert entry.1 entry.2) dict

/-- The dictionary of a list of pairs, of which the last one under a key counts. -/
def ofList (entries : List (String × α)) : Dict α := insertAll empty entries

end Dict
end Stencil
