import Stencil.Tag.Block

/-!
# Balance — how many blocks are open

Every tag that opens a block adds one to the number of open blocks, and every closing tag takes one
away.  A block that has just been opened is closed where this count, started at one, returns to
zero; `Block.split?` finds that place.

* `Block.depth` — the count behind a sequence of lexemes;
* `Block.StaysOpen` — the count never returns to zero;
* `Block.split?_eq_none_iff` — no block is split off exactly when its count never returns to zero;
* `Block.Balanced` — sequences that close every block they open, and no other.
-/

namespace Stencil
namespace Block

/-! ## Counting open blocks -/

/-- The number of open blocks behind one more lexeme. -/
def deepen (depth : Nat) : Lexeme → Nat
  | .tag (.loop _) _ | .tag (.test _) _ | .tag .separator _ => depth + 1
  | .tag .close _ => depth - 1
  | .tag (.value _) _ | .tag .otherwise _ | .literal _ => depth

/-- The number of open blocks behind a sequence of lexemes, when `start` are open before it. -/
def depth (start : Nat) (lexemes : List Lexeme) : Nat :=
  lexemes.foldl deepen start

/-- The number of open blocks never returns to zero. -/
def StaysOpen (start : Nat) (lexemes : List Lexeme) : Prop :=
  ∀ read, read <+: lexemes → 0 < depth start read

@[simp] theorem deepen_close (depth offset : Nat) :
    deepen depth (.tag .close offset) = depth - 1 := rfl

@[simp] theorem depth_nil (start : Nat) : depth start [] = start := rfl

@[simp] theorem depth_cons (start : Nat) (lexeme : Lexeme) (lexemes : List Lexeme) :
    depth start (lexeme :: lexemes) = depth (deepen start lexeme) lexemes := rfl

theorem depth_append (start : Nat) (left right : List Lexeme) :
    depth start (left ++ right) = depth (depth start left) right :=
  List.foldl_append

@[simp] theorem staysOpen_nil {start : Nat} : StaysOpen start [] ↔ 0 < start := by
  simp [StaysOpen]

@[simp] theorem staysOpen_cons {start : Nat} {lexeme : Lexeme} {lexemes : List Lexeme} :
    StaysOpen start (lexeme :: lexemes) ↔ 0 < start ∧ StaysOpen (deepen start lexeme) lexemes := by
  constructor
  · intro h
    refine ⟨h [] List.nil_prefix, ?_⟩
    intro read hread
    exact h (lexeme :: read) (List.cons_prefix_cons.2 ⟨rfl, hread⟩)
  · rintro ⟨hstart, hrest⟩ read hread
    cases read with
    | nil =>
        exact hstart
    | cons first read =>
        rcases List.cons_prefix_cons.1 hread with ⟨rfl, htail⟩
        exact hrest read htail

theorem staysOpen_append {start : Nat} {left right : List Lexeme} :
    StaysOpen start (left ++ right) ↔
      StaysOpen start left ∧ StaysOpen (depth start left) right := by
  induction left generalizing start with
  | nil =>
      constructor
      · intro h
        exact ⟨staysOpen_nil.2 (h [] List.nil_prefix), h⟩
      · rintro ⟨_, h⟩
        exact h
  | cons lexeme left ih =>
      simp [ih, and_assoc]

theorem StaysOpen.pos_depth {start : Nat} {lexemes : List Lexeme} :
    StaysOpen start lexemes → 0 < depth start lexemes :=
  fun h => h lexemes List.prefix_rfl

@[simp] theorem not_staysOpen_zero (lexemes : List Lexeme) : ¬ StaysOpen 0 lexemes :=
  fun h => Nat.lt_irrefl 0 (h [] List.nil_prefix)

/-- Further blocks that are open all along change nothing. -/
theorem StaysOpen.depth_add {start : Nat} {lexemes : List Lexeme} (more : Nat) :
    StaysOpen start lexemes → depth (start + more) lexemes = depth start lexemes + more := by
  induction lexemes generalizing start with
  | nil =>
      intro _
      rfl
  | cons lexeme lexemes ih =>
      intro h
      rcases staysOpen_cons.1 h with ⟨hstart, hrest⟩
      have hstep : deepen (start + more) lexeme = deepen start lexeme + more := by
        unfold deepen
        split <;> omega
      simp [hstep, ih hrest]

theorem StaysOpen.add {start : Nat} {lexemes : List Lexeme} (more : Nat) :
    StaysOpen start lexemes → StaysOpen (start + more) lexemes := by
  intro h read hread
  have hprefix : StaysOpen start read := fun earlier hearlier => h earlier (hearlier.trans hread)
  have hdepth := hprefix.depth_add more
  have hpos := hprefix.pos_depth
  omega

/-! ## Splitting off a block -/

/-- The block with more lexemes at the start of its contents. -/
def prepend (lexemes : List Lexeme) (block : Block) : Block :=
  { block with contents := lexemes ++ block.contents }

@[simp] theorem cons_prepend (lexeme : Lexeme) (lexemes : List Lexeme) (block : Block) :
    cons lexeme (prepend lexemes block) = prepend (lexeme :: lexemes) block := rfl

theorem split?_close (offset : Nat) (lexemes : List Lexeme) :
    split? 0 (.tag .close offset :: lexemes) = some ⟨[], offset, lexemes⟩ := by
  simp [split?]

/-- A block ends at the lexeme behind which it is no longer open.  Any other lexeme is part of its
contents. -/
theorem split?_cases (inner : Nat) (lexeme : Lexeme) :
    (inner = 0 ∧ ∃ offset, lexeme = .tag .close offset) ∨
      ∃ next, deepen (inner + 1) lexeme = next + 1 ∧
        ∀ lexemes, split? inner (lexeme :: lexemes) = (split? next lexemes).map (cons lexeme) := by
  cases lexeme with
  | literal run =>
      exact Or.inr ⟨inner, rfl, fun lexemes => by simp [split?]⟩
  | tag tag offset =>
      cases tag with
      | close =>
          cases inner with
          | zero =>
              exact Or.inl ⟨rfl, offset, rfl⟩
          | succ inner =>
              exact Or.inr ⟨inner, rfl, fun lexemes => by simp [split?]⟩
      | _ =>
          exact Or.inr ⟨_, rfl, fun lexemes => by simp [split?]⟩

theorem split?_append {inner : Nat} {lexemes : List Lexeme} (rest : List Lexeme) :
    StaysOpen (inner + 1) lexemes →
      split? inner (lexemes ++ rest) =
        (split? (depth (inner + 1) lexemes - 1) rest).map (prepend lexemes) := by
  induction lexemes generalizing inner with
  | nil =>
      intro _
      have hid : prepend [] = id := rfl
      simp [hid]
  | cons lexeme lexemes ih =>
      intro h
      rcases split?_cases inner lexeme with ⟨rfl, offset, rfl⟩ | ⟨next, hdeepen, hsplit⟩
      · simp at h
      · have hrest : StaysOpen (next + 1) lexemes := hdeepen ▸ (staysOpen_cons.1 h).2
        simp [hsplit, hdeepen, ih hrest, Function.comp_def]

/-- No block is split off exactly when the number of open blocks never returns to zero. -/
theorem split?_eq_none_iff {inner : Nat} {lexemes : List Lexeme} :
    split? inner lexemes = none ↔ StaysOpen (inner + 1) lexemes := by
  induction lexemes generalizing inner with
  | nil =>
      simp [split?]
  | cons lexeme lexemes ih =>
      rcases split?_cases inner lexeme with ⟨rfl, offset, rfl⟩ | ⟨next, hdeepen, hsplit⟩
      · simp [split?_close]
      · simp [hsplit, hdeepen, ih]

/-! ## Balanced sequences -/

/-- A sequence that closes every block it opens, and no other. -/
structure Balanced (lexemes : List Lexeme) : Prop where
  staysOpen : StaysOpen 1 lexemes
  depth_eq : depth 1 lexemes = 1

namespace Balanced

theorem nil : Balanced [] :=
  ⟨staysOpen_nil.2 Nat.one_pos, rfl⟩

theorem depth_succ {lexemes : List Lexeme} (inner : Nat) :
    Balanced lexemes → depth (inner + 1) lexemes = inner + 1 := by
  intro h
  have hadd := h.staysOpen.depth_add inner
  rw [h.depth_eq] at hadd
  simpa [Nat.add_comm] using hadd

theorem staysOpen_succ {lexemes : List Lexeme} (inner : Nat) :
    Balanced lexemes → StaysOpen (inner + 1) lexemes := by
  intro h
  simpa [Nat.add_comm] using h.staysOpen.add inner

theorem append {left right : List Lexeme} :
    Balanced left → Balanced right → Balanced (left ++ right) := by
  intro hleft hright
  constructor
  · refine staysOpen_append.2 ⟨hleft.staysOpen, ?_⟩
    simpa [hleft.depth_eq] using hright.staysOpen
  · simp [depth_append, hleft.depth_eq, hright.depth_eq]

/-- What follows a balanced sequence is split as if it stood alone. -/
theorem split?_append {lexemes : List Lexeme} (inner : Nat) (rest : List Lexeme) :
    Balanced lexemes →
      split? inner (lexemes ++ rest) = (split? inner rest).map (prepend lexemes) := by
  intro h
  have hsplit := Block.split?_append rest (h.staysOpen_succ inner)
  simpa [h.depth_succ inner] using hsplit

theorem split?_append_close {lexemes : List Lexeme} (offset : Nat) (rest : List Lexeme) :
    Balanced lexemes →
      split? 0 (lexemes ++ .tag .close offset :: rest) = some ⟨lexemes, offset, rest⟩ := by
  intro h
  simp [h.split?_append, split?_close, prepend]

/-- A lexeme that neither opens nor closes a block makes no difference. -/
theorem cons_iff {lexeme : Lexeme} {lexemes : List Lexeme} (neutral : deepen 1 lexeme = 1) :
    Balanced (lexeme :: lexemes) ↔ Balanced lexemes := by
  constructor
  · rintro ⟨hopen, hdepth⟩
    exact ⟨by simpa [neutral] using hopen, by simpa [neutral] using hdepth⟩
  · rintro ⟨hopen, hdepth⟩
    exact ⟨by simpa [neutral] using hopen, by simpa [neutral] using hdepth⟩

theorem not_close (offset : Nat) (lexemes : List Lexeme) :
    ¬ Balanced (.tag .close offset :: lexemes) := by
  rintro ⟨hopen, _⟩
  simp at hopen

/-- A block with balanced contents is balanced, whatever balanced sequence follows it. -/
theorem block {opener : Lexeme} {contents rest : List Lexeme} (offset : Nat)
    (opens : deepen 1 opener = 2) :
    Balanced contents → Balanced rest →
      Balanced (opener :: (contents ++ .tag .close offset :: rest)) := by
  intro hcontents hrest
  have hinside : StaysOpen 2 contents := hcontents.staysOpen_succ 1
  have hdepth : depth 2 contents = 2 := hcontents.depth_succ 1
  constructor
  · simp [staysOpen_append, opens, hinside, hdepth, hrest.staysOpen]
  · simp [depth_append, opens, hdepth, hrest.depth_eq]

end Balanced

theorem depth_contents {inner : Nat} {lexemes : List Lexeme} {block : Block} :
    split? inner lexemes = some block →
      StaysOpen (inner + 1) block.contents ∧ depth (inner + 1) block.contents = 1 := by
  induction lexemes generalizing inner block with
  | nil =>
      intro h
      simp [split?] at h
  | cons lexeme lexemes ih =>
      intro h
      rcases split?_cases inner lexeme with ⟨rfl, offset, rfl⟩ | ⟨next, hdeepen, hsplit⟩
      · rw [split?_close] at h
        cases h
        simp
      · rw [hsplit] at h
        rcases Option.map_eq_some_iff.1 h with ⟨later, hlater, rfl⟩
        simpa [cons, hdeepen] using ih hlater

/-- The contents of a block are balanced. -/
theorem balanced_contents {lexemes : List Lexeme} {block : Block} :
    split? 0 lexemes = some block → Balanced block.contents := by
  intro h
  rcases depth_contents h with ⟨hopen, hdepth⟩
  exact ⟨hopen, hdepth⟩

/-- Behind a tag that opens a block in a balanced sequence, the block is closed, and what follows it
is balanced again. -/
theorem Balanced.exists_split? {opener : Lexeme} {lexemes : List Lexeme}
    (opens : deepen 1 opener = 2) :
    Balanced (opener :: lexemes) →
      ∃ block, split? 0 lexemes = some block ∧ Balanced block.rest := by
  rintro ⟨hopen, hdepth⟩
  have hopen : StaysOpen 2 lexemes := by simpa [opens] using hopen
  have hdepth : depth 2 lexemes = 1 := by simpa [opens] using hdepth
  cases h : split? 0 lexemes with
  | none =>
      -- The block would still be open at the end.
      have hstays : StaysOpen 1 lexemes := split?_eq_none_iff.1 h
      have hadd : depth 2 lexemes = depth 1 lexemes + 1 := hstays.depth_add 1
      have hpos := hstays.pos_depth
      omega
  | some block =>
      have hcontents : depth 2 block.contents = 2 := (balanced_contents h).depth_succ 1
      rw [eq_of_split? h, staysOpen_append, hcontents] at hopen
      rw [eq_of_split? h, depth_append, hcontents] at hdepth
      have hrest : StaysOpen 1 block.rest := (staysOpen_cons.1 hopen.2).2
      exact ⟨block, rfl, hrest, hdepth⟩

theorem Balanced.rest {opener : Lexeme} {lexemes : List Lexeme} {block : Block}
    (opens : deepen 1 opener = 2) (found : split? 0 lexemes = some block) :
    Balanced (opener :: lexemes) → Balanced block.rest := by
  intro h
  rcases h.exists_split? opens with ⟨other, hother, hrest⟩
  cases hother.symm.trans found
  exact hrest

end Block
end Stencil
