import Stencil.Localization.Reference

/-!
# Expansion — replacing references by texts

Every reference is replaced by the text of its key, in which references are replaced in turn.  A
reference to a key whose text is just being put in stays as it is written, so the text of a key
never stands inside itself.

* `Reference.keys` — the keys that a text refers to;
* `Reference.expand?` — the expanded text, if the texts of keys nest no deeper than a limit;
* `Reference.isSome_expand?` — a limit is enough if every key in reach is one of as many known keys,
  or has a text without references.
-/

namespace Stencil
namespace Reference

/-! ## Keys -/

/-- The key of a piece that is a reference. -/
def keyOf? : Piece Reference → Option String
  | .literal _ => none
  | .mark reference => some reference.key

/-- The keys that a text refers to. -/
def keys (text : List Char) : List String := (Mark.pieces text).filterMap keyOf?

theorem mem_keys {text : List Char} {key : String} :
    key ∈ keys text ↔ Piece.mark ⟨key⟩ ∈ (Mark.pieces text : List (Piece Reference)) := by
  simp only [keys, List.mem_filterMap]
  constructor
  · rintro ⟨piece, mem, same⟩
    cases piece with
    | literal run => cases same
    | mark reference =>
        cases same
        exact mem
  · exact fun mem => ⟨_, mem, rfl⟩

/-- A key that a text refers to stands in it, written as a reference. -/
theorem exists_of_mem_keys {text : List Char} {key : String} (h : key ∈ keys text) :
    Argument.Valid key.toList ∧ ∃ before behind, text = before ++ written ⟨key⟩ ++ behind := by
  obtain ⟨before, behind, whole, recognised⟩ := Mark.exists_of_mem_pieces (mem_keys.1 h)
  exact ⟨(at?_eq_some_iff.1 recognised).1, before, behind, whole⟩

/-! ## Expansion -/

/-- Replaces the references among the pieces of a text: one to an active key stays as it is written,
any other gives way to the expansion of its key. -/
def expandPieces? (expandKey? : String → Option (List Char)) (active : List String) :
    List (Piece Reference) → Option (List Char)
  | [] => some []
  | .literal run :: parts => (expandPieces? expandKey? active parts).map (run ++ ·)
  | .mark reference :: parts => do
      -- A key inside its own text would go on for ever.
      let here ←
        if reference.key ∈ active then some reference.written else expandKey? reference.key
      let behind ← expandPieces? expandKey? active parts
      return here ++ behind

/-- The text with its references expanded, inside the texts of the active keys; `none` if more than
`limit` texts of keys stand inside one another. -/
def expand? (textOf : String → String) : (limit : Nat) → (active : List String) →
    (text : List Char) → Option (List Char)
  | 0, active, text => expandPieces? (fun _ => none) active (Mark.pieces text)
  | limit + 1, active, text =>
      expandPieces? (fun key => expand? textOf limit (key :: active) (textOf key).toList)
        active (Mark.pieces text)

/-! ## How deep texts nest -/

/-- Pieces can be expanded if every reference among them can. -/
theorem isSome_expandPieces? {expandKey? : String → Option (List Char)} {active : List String}
    {parts : List (Piece Reference)}
    (h : ∀ key, Piece.mark ⟨key⟩ ∈ parts → key ∉ active → (expandKey? key).isSome) :
    (expandPieces? expandKey? active parts).isSome := by
  induction parts with
  | nil => rfl
  | cons piece parts ih =>
      have rest := ih fun key mem => h key (List.mem_cons_of_mem _ mem)
      obtain ⟨behind, hbehind⟩ := Option.isSome_iff_exists.1 rest
      cases piece with
      | literal run => simp [expandPieces?, hbehind]
      | mark reference =>
          by_cases known : reference.key ∈ active
          · simp [expandPieces?, hbehind, known]
          · obtain ⟨here, hhere⟩ :=
              Option.isSome_iff_exists.1 (h reference.key List.mem_cons_self known)
            simp [expandPieces?, hbehind, known, hhere]

/-- A key comes up when a text is expanded: the text refers to it, or the text of a key that comes
up does. -/
inductive Reaches (textOf : String → String) (text : List Char) : String → Prop where
  | direct {key : String} : key ∈ keys text → Reaches textOf text key
  | through {key later : String} : Reaches textOf text key →
      later ∈ keys (textOf key).toList → Reaches textOf text later

/-- Only valid keys come up. -/
theorem Reaches.valid {textOf : String → String} {text : List Char} {key : String}
    (h : Reaches textOf text key) : Argument.Valid key.toList := by
  cases h with
  | direct mem => exact (exists_of_mem_keys mem).1
  | through _ mem => exact (exists_of_mem_keys mem).1

/-- What the text of a key in reach reaches is in reach. -/
theorem Reaches.trans {textOf : String → String} {text : List Char} {key later : String}
    (first : Reaches textOf text key) (second : Reaches textOf (textOf key).toList later) :
    Reaches textOf text later := by
  induction second with
  | direct mem => exact first.through mem
  | through _ mem ih => exact ih.through mem

/-- A limit above the number of known keys that are not active is enough, if every key in reach is
known or has a text without references. -/
theorem isSome_expand? {textOf : String → String} (known : List String) {limit : Nat}
    {active : List String} {text : List Char}
    (closed : ∀ key, Reaches textOf text key → key ∈ known ∨ keys (textOf key).toList = [])
    (enough : (known.filter (· ∉ active)).length < limit) :
    (expand? textOf limit active text).isSome := by
  induction limit generalizing active text with
  | zero => cases enough
  | succ limit ih =>
      refine isSome_expandPieces? fun key mem new => ?_
      have inReach : Reaches textOf text key := .direct (mem_keys.2 mem)
      rcases closed key inReach with isKnown | leaf
      · refine ih (fun later reached => closed later (inReach.trans reached)) ?_
        -- The key itself is no longer counted.
        have fewer : (known.filter (· ∉ key :: active)).length <
            (known.filter (· ∉ active)).length := by
          have split : (known.filter (· ∉ key :: active)) =
              (known.filter (· ∉ active)).filter (· ≠ key) := by
            simp [List.filter_filter]
          rw [split]
          exact List.length_filter_lt_length_iff_exists.2
            ⟨key, List.mem_filter.2 ⟨isKnown, by simpa using new⟩, by simp⟩
        omega
      · -- A text without references needs no further depth.
        have none_left (key' : String) : Piece.mark ⟨key'⟩ ∉
            (Mark.pieces (textOf key).toList : List (Piece Reference)) := fun mem => by
          have := mem_keys.2 mem
          rw [leaf] at this
          cases this
        cases limit with
        | zero => exact isSome_expandPieces? fun key' mem => absurd mem (none_left key')
        | succ limit => exact isSome_expandPieces? fun key' mem => absurd mem (none_left key')

end Reference
end Stencil
