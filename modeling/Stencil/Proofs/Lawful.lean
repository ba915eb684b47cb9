import Stencil.Dict.Lemmas
import Stencil.Json.Laws
import Stencil.Json.Standard
import Stencil.Proofs.Document
import Stencil.Proofs.Significant

/-!
# A lawful library — the reader and the writer that are there obey the laws

A number is written as a decimal of few digits that rounds to it, and what was written is cut into
tokens and read again.  The conventions for records are followed member by member, so the laws that
speak of all members at once are proved by induction.

* `Standard.float?_of_short` — decimals of not too many digits are rounded to the nearest number;
* `Standard.reads_ofNumber` — the decimal that is written for a number rounds to it;
* `Standard.collect?_eq` — fields that are collected one by one are those with known names;
* `faithful_standard`, `rounded_standard`, `declared_standard`, `undeclared_standard` — the laws.
-/

namespace Stencil
namespace Json

attribute [local instance] standard

/-! ## Documents -/

namespace Standard

/-- A document is cut into the tokens of the tree that is read, and of no other. -/
theorem reads_iff {source tree : Tree} : Reads source tree ↔ Yields source tree := yields_iff.symm

theorem yieldsMember_map {sources trees : List (String × Tree)} :
    List.Forall₂ ReadsMember sources trees →
      List.Forall₂ YieldsMember (sources.map fun (key, value) => (some key, value))
        (trees.map fun (key, value) => (some key, value)) := by
  intro h
  induction h with
  | nil => exact .nil
  | cons hmember _ ih => exact .cons ⟨congrArg some hmember.1, reads_iff.1 hmember.2⟩ ih

end Standard

instance faithful_standard : Faithful where
  reads_null := Standard.yields_null.read?
  reads_bool value := (Standard.yields_bool value).read?
  reads_natural _ := (Standard.yields_integer false _).read?
  reads_text value := (Standard.yields_string (some value)).read?
  reads_array h := (Standard.yields_array (h.imp fun _ _ => Standard.reads_iff.1)).read?
  reads_record h := (Standard.yields_object (Standard.yieldsMember_map h)).read?

/-! ## Numbers -/

namespace Standard

attribute [local instance (high)] instPowNat

open Number (Representable)
open Number.Shortest (readsBack)

/-- A decimal of not too many digits is rounded to the nearest number, if that is finite. -/
theorem float?_of_short {decimal : Decimal} :
    Short decimal → (Number.ofDecimal .double decimal).isFinite →
      float? decimal = some (Number.ofDecimal .double decimal) := by
  intro hshort hfinite
  unfold float?
  -- Below the limit no digit is dropped before rounding.
  rw [Decimal.limitDigits_of_lt hshort]
  cases h : Number.ofDecimal .double decimal with
  | finite negative units representable =>
      rfl
  | nan | infinite negative =>
      rw [h] at hfinite
      cases hfinite

/-- A decimal of the same amount as the shortest one of a number, but for a few zeros, has few digits
and rounds to the number. -/
theorem short_of_lower {units zeros count : Nat} {decimal : Decimal} {negative : Bool}
    (representable : Representable units) (nonzero : units ≠ 0) (few : count ≤ 18)
    (same : decimal.lower zeros = (Number.shortest .even negative units).lower count) :
    Short decimal ∧
      Number.ofDecimal .double decimal = .finite negative units representable := by
  have hreads : readsBack units decimal.coefficient decimal.exponent := by
    rw [← Number.readsBack_lower decimal zeros, same, Number.readsBack_lower]
    exact Number.readsBack_shortest .even negative representable
  have hnegative : decimal.negative = negative := by
    rw [← Decimal.negative_lower decimal zeros, same, Decimal.negative_lower,
      Number.negative_shortest]
  have hcoefficient : decimal.coefficient * 10 ^ zeros =
      (Number.shortest .even negative units).coefficient * 10 ^ count :=
    congrArg Decimal.coefficient same
  -- Seventeen digits and a few zeros are far below the number of digits that are heeded.
  have hseventeen := Number.coefficient_shortest_le .even negative representable nonzero
  refine ⟨?_, ?_⟩
  · calc decimal.coefficient
      _ ≤ decimal.coefficient * 10 ^ zeros :=
          Nat.le_mul_of_pos_right _ (Nat.pow_pos (by decide))
      _ = (Number.shortest .even negative units).coefficient * 10 ^ count := hcoefficient
      _ ≤ 10 ^ (17 : Nat) * 10 ^ (18 : Nat) :=
          Nat.mul_le_mul hseventeen (Nat.pow_le_pow_right (by decide) few)
      _ < 10 ^ (36 : Nat) := by decide
      _ ≤ 10 ^ digitLimit := Nat.pow_le_pow_right (by decide) (by decide)
  · rw [Number.ofDecimal_of_readsBack representable nonzero hreads, hnegative]

/-- The decimal that is written for a number is read as one of few digits that rounds to it. -/
theorem reads_ofNumber {value : Number} :
    value.isFinite → ∃ decimal : Decimal, Reads (ofNumber value) (.decimal decimal) ∧
      Short decimal ∧ Number.ofDecimal .double decimal = value := by
  intro hfinite
  cases value with
  | nan | infinite negative =>
      cases hfinite
  | finite negative units representable =>
      by_cases hzero : units = 0
      · subst hzero
        refine ⟨⟨negative, 0, 0⟩, (yields_zero negative 0).read?, ?_, if_pos (.inl rfl)⟩
        exact Nat.pow_pos (by decide)
      · have hshortest := Number.readsBack_shortest .even negative representable
        rcases exists_yields_decimal (Number.ne_zero_of_readsBack hzero hshortest) with
          ⟨read, zeros, count, hyields, hsame, hfew⟩
        refine ⟨read, ?_, short_of_lower representable hzero hfew hsame⟩
        rw [ofNumber, if_neg hzero]
        exact hyields.read?

theorem ofNumber_of_not_finite {value : Number} : value.isFinite = false → ofNumber value = .null := by
  intro h
  cases value with
  | nan | infinite negative => rfl
  | finite => cases h

theorem numeral?_of_short {decimal : Decimal} :
    Short decimal → (Number.ofDecimal .double decimal).isFinite →
      numeral? (.decimal decimal) = some (.float (.ofDecimal .double decimal)) := by
  intro hshort hfinite
  rw [numeral?, float?_of_short hshort hfinite, Option.map_some]

theorem numeral?_signed {magnitude : Nat} :
    0 < magnitude → magnitude ≤ UInt64.size / 2 →
      numeral? (.integer true magnitude) = some (.integer (-magnitude)) := by
  intro hpositive hsmall
  rw [numeral?, integer?, if_neg (by simp), if_pos ⟨rfl, hpositive, hsmall⟩]

/-- An integer that has no place in 64 bits is read as the decimal that it is. -/
theorem numeral?_other {negative : Bool} {magnitude : Nat} :
    (if negative then magnitude = 0 ∨ UInt64.size / 2 < magnitude else UInt64.size ≤ magnitude) →
      Short ⟨negative, magnitude, 0⟩ →
      (Number.ofDecimal .double ⟨negative, magnitude, 0⟩).isFinite →
        numeral? (.integer negative magnitude) =
          some (.float (.ofDecimal .double ⟨negative, magnitude, 0⟩)) := by
  intro hother hshort hfinite
  have hunsigned : ¬ (negative = false ∧ magnitude < UInt64.size) := by
    rintro ⟨rfl, hsmall⟩
    exact absurd hsmall (Nat.not_lt.2 (by simpa using hother))
  have hsigned : ¬ (negative = true ∧ 0 < magnitude ∧ magnitude ≤ UInt64.size / 2) := by
    rintro ⟨rfl, hpositive, hsmall⟩
    rcases (by simpa using hother : magnitude = 0 ∨ UInt64.size / 2 < magnitude) with hzero | hlarge
    · exact absurd hzero (Nat.ne_of_gt hpositive)
    · exact absurd hsmall (Nat.not_le.2 hlarge)
  rw [numeral?, integer?, if_neg hunsigned, if_neg hsigned, float?_of_short hshort hfinite,
    Option.map_some]

end Standard

instance rounded_standard : Rounded where
  ofNumber_of_not_finite := Standard.ofNumber_of_not_finite
  reads_ofNumber := Standard.reads_ofNumber
  numeral?_decimal := Standard.numeral?_of_short
  numeral?_unsigned h := if_pos ⟨rfl, h⟩
  numeral?_signed := Standard.numeral?_signed
  numeral?_other := Standard.numeral?_other

/-! ## Declared types -/

namespace Standard

/-- No key of the entries comes twice or is there already. -/
def Fresh (fields : Dict Tree) (entries : List (String × Tree)) : Prop :=
  (entries.map Prod.fst).Nodup ∧ ∀ entry ∈ entries, fields.contains entry.1 = false

theorem fresh_cons_iff {fields : Dict Tree} {name : String} {value : Tree}
    {entries : List (String × Tree)} :
    Fresh fields ((name, value) :: entries) ↔
      fields.contains name = false ∧ Fresh (fields.insert name value) entries := by
  have hcontains (key : String) : (fields.insert name value).contains key = false ↔
      key ≠ name ∧ fields.contains key = false := by
    by_cases h : key = name <;> simp [Dict.contains, Dict.get?_insert, h]
  have hmem : name ∉ entries.map Prod.fst ↔ ∀ entry ∈ entries, entry.1 ≠ name := by
    simp only [List.mem_map, not_exists, not_and, ne_eq]
  simp only [Fresh, List.map_cons, List.nodup_cons, hmem, List.forall_mem_cons, hcontains]
  constructor
  · rintro ⟨⟨hother, hnodup⟩, hnew, hrest⟩
    exact ⟨hnew, hnodup, fun entry h => ⟨hother entry h, hrest entry h⟩⟩
  · rintro ⟨hnew, hnodup, hrest⟩
    exact ⟨⟨fun entry h => (hrest entry h).1, hnodup⟩, hnew, fun entry h => (hrest entry h).2⟩

instance Fresh.decide (fields : Dict Tree) (entries : List (String × Tree)) :
    Decidable (Fresh fields entries) :=
  inferInstanceAs (Decidable (_ ∧ ∀ entry ∈ entries, _))

/-- Fields that are collected one by one are the members with known names, if none comes twice. -/
theorem collect?_eq {names : List String} {members : List (Option String × Tree)}
    {fields : Dict Tree} :
    collect? names fields members =
      (Tree.entries? some members).bind fun entries =>
        if Fresh fields (entries.filter (·.1 ∈ names)) then
          some (fields.insertAll (entries.filter (·.1 ∈ names)))
        else
          none := by
  induction members generalizing fields with
  | nil =>
      simp [collect?, Tree.entries?, Dict.insertAll, Fresh]
  | cons member members ih =>
      rcases member with ⟨_ | name, value⟩
      · rfl
      · rw [collect?, Tree.entries?]
        simp only [Option.bind_eq_bind, Option.bind_some, Option.pure_def, ih]
        cases hentries : Tree.entries? some members with
        | none =>
            simp
        | some entries =>
            -- A known name must be new, and is no longer new for the members behind it.
            by_cases hknown : name ∈ names
            · simp only [Option.bind_some, hknown, decide_true, List.filter_cons_of_pos,
                fresh_cons_iff, not_true_eq_false, if_false]
              cases fields.contains name <;> simp [Dict.insertAll]
            · simp [hknown]

/-- At the start no field is there, so it is enough that no known name comes twice. -/
theorem fields?_object (names : List String) (members : List (Option String × Tree)) :
    fields? names (.object members) = (Tree.entries? some members).bind (knownFields? names) := by
  rw [fields?, collect?_eq]
  congr 1
  funext entries
  have hfresh : Fresh ∅ (entries.filter (·.1 ∈ names)) ↔
      ((entries.filter (·.1 ∈ names)).map Prod.fst).Nodup :=
    and_iff_left fun entry _ => rfl
  rw [knownFields?, if_congr hfresh rfl rfl]
  rfl

theorem text?_other {tree : Tree} : (∀ value, tree ≠ .string value) → text? tree = none := by
  intro h
  cases tree with
  | string value => exact absurd rfl (h value)
  | _ => rfl

theorem dict?_other {α : Type} (read? : Tree → Option α) {tree : Tree} :
    (∀ members, tree ≠ .object members) → dict? read? tree = none := by
  intro h
  cases tree with
  | object members => exact absurd rfl (h members)
  | _ => rfl

end Standard

instance declared_standard : Declared where
  record_eq _ := rfl
  alternative_none _ := rfl
  alternative_some _ _ := rfl
  text?_string _ := rfl
  text?_other := Standard.text?_other
  word?_natural h := if_pos h
  dict?_object _ _ := rfl
  dict?_other := Standard.dict?_other
  fields?_object := Standard.fields?_object
  field?_none _ _ := rfl
  field?_some _ _ _ := rfl
  alternative?_text _ := rfl
  alternative?_record _ _ := rfl
  isBare_none := rfl

/-! ## Undeclared types -/

namespace Standard

theorem content?_array (items : List Tree) :
    content? (.array items) = (items.mapM content?).map .array := by
  have hitems : contentOfItems? items = items.mapM content? := by
    induction items with
    | nil => rfl
    | cons item items ih => rw [contentOfItems?, List.mapM_cons, ih]
  rw [content?, hitems]

theorem content?_object (members : List (Option String × Tree)) :
    content? (.object members) = (Tree.entries? content? members).map .object := by
  have hmembers : contentOfMembers? members = Tree.entries? content? members := by
    induction members with
    | nil => rfl
    | cons member members ih => rw [contentOfMembers?, Tree.entries?, ih]
  rw [content?, hmembers]

theorem data?_array (items : List Tree) :
    data? (.array items) = (items.mapM data?).map .array := by
  have hitems : dataOfItems? items = items.mapM data? := by
    induction items with
    | nil => rfl
    | cons item items ih => rw [dataOfItems?, List.mapM_cons, ih]
  rw [data?, hitems]

theorem data?_object (members : List (Option String × Tree)) :
    data? (.object members) =
      (Tree.entries? data? members).map fun entries => .object (Dict.ofList entries) := by
  have hmembers : dataOfMembers? members = Tree.entries? data? members := by
    induction members with
    | nil => rfl
    | cons member members ih => rw [dataOfMembers?, Tree.entries?, ih]
  rw [data?, hmembers]

theorem content?_decimal (value : Decimal) :
    content? (.decimal value) = (numeral? (.decimal value)).map .number := by
  rw [content?, numeral?, Option.map_map]
  rfl

theorem data?_decimal (value : Decimal) :
    data? (.decimal value) = (numeral? (.decimal value)).map .number := by
  rw [data?, numeral?, Option.map_map]
  rfl

end Standard

instance undeclared_standard : Undeclared where
  bounded?_eq _ := rfl
  content?_null := rfl
  content?_bool _ := rfl
  content?_integer _ _ := rfl
  content?_decimal := Standard.content?_decimal
  content?_string _ := rfl
  content?_array := Standard.content?_array
  content?_object := Standard.content?_object
  asNull?_eq _ := rfl
  asBool?_eq _ := rfl
  asNumber?_eq _ := rfl
  asText?_eq _ := rfl
  first?_eq _ := rfl
  data?_null := rfl
  data?_bool _ := rfl
  data?_integer _ _ := rfl
  data?_decimal := Standard.data?_decimal
  data?_string _ := rfl
  data?_array := Standard.data?_array
  data?_object := Standard.data?_object
  toNumber?_integer _ := rfl
  toNumber?_float _ := rfl

end Json
end Stencil
