import Mathlib.Data.List.Induction
import Stencil.Proofs.Verbatim

/-!
# Closings — where a block ends

A block is opened by a tag and ends at the first closing tag at which one more block was closed than
opened since.  Here this is said with two counts over the tags that are read behind the opening one,
and `Block.locateEnd` is shown to find that place from any offset of any text.  In a text that is a
template, the same place follows from the tree: it is where the text of the block's contents ends.

* `Block.EndsAt`, `Block.endsAt_iff` — the first closing tag in excess, and how it is found;
* `Tag.OpensAt` — a tag that opens a block stands at an offset;
* `Block.Located`, `Block.locateEnd_eq_iff` — what is found at an offset, or else reported;
* `Node.extents` — where the blocks of a tree are opened and closed in its text;
* `Block.locateEnd_finds_close` — the two agree on every text.
-/

namespace Stencil

/-! ## Counting tags -/

namespace Lexeme

/-- A tag that opens a block. -/
def opens : Lexeme → Bool
  | literal _ => false
  | tag found _ => found.opens

/-- A closing tag. -/
def closes : Lexeme → Bool
  | tag .close _ => true
  | literal _ | tag (.value _) _ | tag (.loop _) _ | tag (.test _) _ | tag .otherwise _
  | tag .separator _ => false

end Lexeme

namespace Block

open Text (byteLength byteLength_append)

/-- One more closing tag stands among lexemes than tags that open a block. -/
def Excess (lexemes : List Lexeme) : Prop :=
  lexemes.countP Lexeme.closes = lexemes.countP Lexeme.opens + 1

/-- The first closing tag at which one more block was closed than opened stands at an offset. -/
def EndsAt (lexemes : List Lexeme) (close : Nat) : Prop :=
  ∃ inside rest, lexemes = inside ++ .tag .close close :: rest ∧
    Excess (inside ++ [.tag .close close]) ∧
      ∀ before earlier more, inside = before ++ .tag .close earlier :: more →
        ¬ Excess (before ++ [.tag .close earlier])

theorem excess_concat_close {lexemes : List Lexeme} {offset : Nat} :
    Excess (lexemes ++ [.tag .close offset]) ↔
      lexemes.countP Lexeme.closes = lexemes.countP Lexeme.opens := by
  simp [Excess, Lexeme.closes, Lexeme.opens, Tag.opens]

/-- As long as a block is open, the number of open blocks is the difference of the two counts. -/
theorem StaysOpen.depth_add_countP {start : Nat} {lexemes : List Lexeme} :
    StaysOpen start lexemes →
      depth start lexemes + lexemes.countP Lexeme.closes =
        start + lexemes.countP Lexeme.opens := by
  induction lexemes generalizing start with
  | nil =>
      intro _
      rfl
  | cons lexeme lexemes ih =>
      intro h
      rcases staysOpen_cons.1 h with ⟨hstart, hrest⟩
      have hcount := ih hrest
      have hstep : deepen start lexeme + (if lexeme.closes then 1 else 0) =
          start + (if lexeme.opens then 1 else 0) := by
        cases lexeme with
        | literal run =>
            rfl
        | tag tag offset =>
            cases tag <;> simp [deepen, Lexeme.closes, Lexeme.opens, Tag.opens]
            omega
      simp only [depth_cons, List.countP_cons]
      omega

/-- A block stays open as long as no closing tag is in excess. -/
theorem staysOpen_iff_not_excess {lexemes : List Lexeme} :
    StaysOpen 1 lexemes ↔
      ∀ before offset more, lexemes = before ++ .tag .close offset :: more →
        ¬ Excess (before ++ [.tag .close offset]) := by
  constructor
  · rintro h before offset more rfl hexcess
    have hopen := (staysOpen_append.1 h).1
    have hcount := hopen.depth_add_countP
    have hequal := excess_concat_close.1 hexcess
    -- The block would be closed right behind this tag.
    have hpos : 0 < depth 1 (before ++ [.tag .close offset]) := h _ ⟨more, by simp⟩
    simp only [depth_append, depth_cons, depth_nil, deepen_close] at hpos
    omega
  · -- The induction is at the end, where one more lexeme is read.
    induction lexemes using List.reverseRecOn with
    | nil =>
        intro _
        simp
    | append_singleton lexemes lexeme ih =>
        intro hfree
        have hopen : StaysOpen 1 lexemes := ih fun before offset more hsplit =>
          hfree before offset (more ++ [lexeme]) (by simp [hsplit])
        have hcount := hopen.depth_add_countP
        have hpos := hopen.pos_depth
        have hlast : 0 < deepen (depth 1 lexemes) lexeme := by
          cases lexeme with
          | literal run =>
              exact hpos
          | tag tag offset =>
              cases tag with
              | close =>
                  have hequal := hfree lexemes offset [] rfl
                  rw [excess_concat_close] at hequal
                  simp only [deepen_close]
                  omega
              | _ =>
                  simp only [deepen]
                  omega
        simp [staysOpen_append, hopen, hpos, hlast]

/-- A block ends at the first closing tag in excess. -/
theorem endsAt_iff {lexemes : List Lexeme} {close : Nat} :
    EndsAt lexemes close ↔ ∃ block, split? 0 lexemes = some block ∧ block.close = close := by
  constructor
  · rintro ⟨inside, rest, rfl, hexcess, hfirst⟩
    have hopen : StaysOpen 1 inside := staysOpen_iff_not_excess.2 hfirst
    have hcount := hopen.depth_add_countP
    have hequal := excess_concat_close.1 hexcess
    have hbalanced : Balanced inside := ⟨hopen, by omega⟩
    exact ⟨_, hbalanced.split?_append_close close rest, rfl⟩
  · rintro ⟨block, hfound, rfl⟩
    have hbalanced := balanced_contents hfound
    have hcount := hbalanced.staysOpen.depth_add_countP
    have hdepth := hbalanced.depth_eq
    refine ⟨block.contents, block.rest, eq_of_split? hfound, ?_, ?_⟩
    · rw [excess_concat_close]
      omega
    · exact staysOpen_iff_not_excess.1 hbalanced.staysOpen

end Block

/-! ## What stands at an offset -/

open Text (byteLength byteLength_append IsBoundary)

/-- A tag that opens a block stands at a byte offset of a text, and another text behind it. -/
structure Tag.OpensAt (text : List Char) (offset : Nat) (tag : Tag) (behind : List Char) :
    Prop where
  opens : tag.opens
  valid : tag.Valid
  cut : ∃ before, text = before ++ (tag.written ++ behind) ∧ byteLength before = offset

/-- What is found at a byte offset of a text: the character that starts there, or the end of the
input where none does. -/
inductive Text.FoundAt (text : List Char) (offset : Nat) : String → Prop where
  | character {before behind : List Char} {c : Char} :
      text = before ++ c :: behind → byteLength before = offset → FoundAt text offset c.toString
  | nothing :
      (∀ before c behind, text = before ++ c :: behind → byteLength before ≠ offset) →
      FoundAt text offset "end of input"

namespace Block

theorem locateEnd_of_opener {text : String} {offset : Nat} {tag : Tag} {behind : List Char} :
    Tag.OpensAt text.toList offset tag behind →
      locateEnd text offset =
        (split? 0 (Lexeme.ofText (offset + byteLength tag.written) behind)).elim
          (.error (ParseError.atOffset text.toList offset (.unclosedBlock tag.toText)))
          fun block => .ok block.close := by
  rintro ⟨hopens, hvalid, before, hcut, rfl⟩
  have hhere : (Tag.at? (tag.written ++ behind)).filter Tag.opens = some tag := by
    simp [Tag.at?_written hvalid, hopens]
  simp only [locateEnd, hcut, Text.splitBytes?_append, hhere, List.drop_left]
  cases split? 0 (Lexeme.ofText (byteLength before + byteLength tag.written) behind) <;> rfl

/-- What stands at a boundary where no block is opened is named by its first character. -/
theorem locateEnd_of_cut {text : String} {before rest : List Char} :
    text.toList = before ++ rest →
      (∀ tag behind, ¬ Tag.OpensAt text.toList (byteLength before) tag behind) →
      locateEnd text (byteLength before) =
        .error (ParseError.atOffset text.toList (byteLength before)
          (.notAnOpeningTag (headText rest))) := by
  intro hcut h
  have hhere : (Tag.at? rest).filter Tag.opens = none := by
    refine Option.filter_eq_none_iff.2 fun tag hat hopens => ?_
    rcases Tag.at?_eq_some_iff.1 hat with ⟨hvalid, behind, rfl⟩
    exact h tag behind ⟨hopens, hvalid, before, hcut, rfl⟩
  simp only [locateEnd, hcut, Text.splitBytes?_append, hhere]

theorem locateEnd_of_no_opener {text : String} {offset : Nat} {found : String} :
    (∀ tag behind, ¬ Tag.OpensAt text.toList offset tag behind) →
      Text.FoundAt text.toList offset found →
      locateEnd text offset =
        .error (ParseError.atOffset text.toList offset (.notAnOpeningTag found)) := by
  intro h hfound
  cases hfound with
  | character hcut hoffset =>
      subst hoffset
      exact locateEnd_of_cut hcut h
  | nothing hfree =>
      by_cases hboundary : IsBoundary text.toList offset
      · rcases hboundary with ⟨before, rest, hcut, rfl⟩
        cases rest with
        | nil =>
            exact locateEnd_of_cut hcut h
        | cons c behind =>
            exact absurd rfl (hfree before c behind hcut)
      · simp only [locateEnd, Text.splitBytes?_eq_none_iff.2 hboundary]
        rfl

/-- What is found at a byte offset of a text: the end of the block that is opened there, or what is
wrong about it. -/
inductive Located (text : List Char) (offset : Nat) : Except ParseError Nat → Prop where
  | closed {tag : Tag} {behind : List Char} {lexemes : List Lexeme} {close : Nat} :
      Tag.OpensAt text offset tag behind →
      Lexeme.Reads (offset + byteLength tag.written) behind lexemes →
      EndsAt lexemes close →
      Located text offset (.ok close)
  | unclosed {tag : Tag} {behind : List Char} {lexemes : List Lexeme} :
      Tag.OpensAt text offset tag behind →
      Lexeme.Reads (offset + byteLength tag.written) behind lexemes →
      (∀ close, ¬ EndsAt lexemes close) →
      Located text offset
        (.error (ParseError.atOffset text offset (.unclosedBlock tag.toText)))
  | notOpened {found : String} :
      (∀ tag behind, ¬ Tag.OpensAt text offset tag behind) →
      Text.FoundAt text offset found →
      Located text offset
        (.error (ParseError.atOffset text offset (.notAnOpeningTag found)))

theorem Located.eq_locateEnd {text : String} {offset : Nat} {result : Except ParseError Nat} :
    Located text.toList offset result → locateEnd text offset = result := by
  intro h
  cases h with
  | closed hopens hreads hends =>
      rcases endsAt_iff.1 hends with ⟨block, hfound, rfl⟩
      rw [Lexeme.reads_iff.1 hreads] at hfound
      rw [locateEnd_of_opener hopens, hfound]
      rfl
  | unclosed hopens hreads hnever =>
      rename_i tag behind lexemes
      have hnone : split? 0 lexemes = none := by
        refine Option.eq_none_iff_forall_ne_some.2 fun block hfound => ?_
        exact hnever block.close (endsAt_iff.2 ⟨block, hfound, rfl⟩)
      rw [Lexeme.reads_iff.1 hreads] at hnone
      rw [locateEnd_of_opener hopens, hnone]
      rfl
  | notOpened hnone hfound =>
      exact locateEnd_of_no_opener hnone hfound

end Block

theorem Text.exists_foundAt (text : List Char) (offset : Nat) :
    ∃ found, Text.FoundAt text offset found := by
  by_cases h : ∃ before c behind, text = before ++ c :: behind ∧ byteLength before = offset
  · rcases h with ⟨before, c, behind, hcut, hoffset⟩
    exact ⟨_, .character hcut hoffset⟩
  · refine ⟨_, .nothing fun before c behind hcut hoffset => ?_⟩
    exact h ⟨before, c, behind, hcut, hoffset⟩

namespace Block

theorem exists_located (text : List Char) (offset : Nat) :
    ∃ result, Located text offset result := by
  by_cases hopened : ∃ tag behind, Tag.OpensAt text offset tag behind
  · rcases hopened with ⟨tag, behind, hopens⟩
    have hreads := Lexeme.reads_ofText (offset + byteLength tag.written) behind
    by_cases hcloses :
        ∃ close, EndsAt (Lexeme.ofText (offset + byteLength tag.written) behind) close
    · rcases hcloses with ⟨close, hends⟩
      exact ⟨_, .closed hopens hreads hends⟩
    · exact ⟨_, .unclosed hopens hreads (not_exists.1 hcloses)⟩
  · rcases Text.exists_foundAt text offset with ⟨found, hfound⟩
    exact ⟨_, .notOpened (fun tag behind hopens => hopened ⟨tag, behind, hopens⟩) hfound⟩

theorem locateEnd_eq_iff {text : String} {offset : Nat} {result : Except ParseError Nat} :
    locateEnd text offset = result ↔ Located text.toList offset result := by
  constructor
  · rintro rfl
    rcases exists_located text.toList offset with ⟨result, hlocated⟩
    rwa [hlocated.eq_locateEnd]
  · exact Located.eq_locateEnd

end Block

/-! ## Blocks of a tree -/

namespace Node

/-- The number of bytes that a sequence of nodes was read from. -/
def width (nodes : List Node) : Nat := byteLength (sources nodes).toList

mutual

/-- The byte offsets of the tags that open and close the blocks of a node, which starts at an
offset. -/
def extents (offset : Nat) : Node → List (Nat × Nat)
  | literal _ | value _ => []
  | loop key body =>
      let start := offset + byteLength (Tag.loop key).written
      (offset, start + width body) :: allExtents start body
  | joined key gap separator body =>
      -- The separator is a block of its own, with a closing tag in front of the body.
      let second := offset + byteLength (Tag.loop key).written + byteLength gap.toList
      let between := second + byteLength Tag.separator.written
      let start := between + width separator + byteLength Tag.close.written
      (offset, start + width body) :: (second, between + width separator) ::
        (allExtents between separator ++ allExtents start body)
  | guarded condition body =>
      let start := offset + byteLength (Tag.test condition.toText).written
      (offset, start + width body) :: allExtents start body
  | choice condition body otherwise =>
      let start := offset + byteLength (Tag.test condition.toText).written
      let second := start + width body + byteLength Tag.otherwise.written
      (offset, second + width otherwise) :: (allExtents start body ++ allExtents second otherwise)

/-- The byte offsets of the tags that open and close the blocks of a sequence of nodes, which starts
at an offset. -/
def allExtents (offset : Nat) : List Node → List (Nat × Nat)
  | [] => []
  | node :: nodes =>
      extents offset node ++ allExtents (offset + byteLength (source node).toList) nodes

end

end Node

namespace Lexeme

/-- Lexemes stand one behind the other from an offset on. -/
def Placed : Nat → List Lexeme → Prop
  | _, [] => True
  | offset, literal run :: lexemes => Placed (offset + byteLength run) lexemes
  | offset, tag found place :: lexemes =>
      place = offset ∧ Placed (offset + byteLength found.written) lexemes

theorem placed_append {offset : Nat} {left right : List Lexeme} :
    Placed offset (left ++ right) ↔
      Placed offset left ∧ Placed (offset + byteLength (concat left)) right := by
  induction left generalizing offset with
  | nil =>
      simp [Placed]
  | cons lexeme left ih =>
      cases lexeme <;> simp [Placed, ih, written, Nat.add_assoc, and_assoc]

theorem placed_place (offset : Nat) (parts : List (Piece Tag)) :
    Placed offset (place offset parts) := by
  induction parts generalizing offset with
  | nil =>
      trivial
  | cons piece parts ih =>
      cases piece <;> simp [place, Placed, ih]

theorem placed_ofText (offset : Nat) (text : List Char) : Placed offset (ofText offset text) :=
  placed_place offset (Mark.pieces text)

end Lexeme

namespace Block

/-- The byte offsets of a lexeme that opens a block and of the tag that closes it. -/
def extent? : Lexeme → List Lexeme → Option (Nat × Nat)
  | .tag tag offset, behind =>
      if tag.opens then (split? 0 behind).map fun block => (offset, block.close) else none
  | .literal _, _ => none

/-- The byte offsets of the tags that open and close the blocks among lexemes. -/
def extents : List Lexeme → List (Nat × Nat)
  | [] => []
  | lexeme :: lexemes => (extent? lexeme lexemes).toList ++ extents lexemes

/-- Every block that is opened among lexemes is closed there. -/
def ClosesAll (lexemes : List Lexeme) : Prop :=
  ∀ before tag offset behind, lexemes = before ++ .tag tag offset :: behind → tag.opens →
    ∃ block, split? 0 behind = some block

theorem mem_extents_iff {lexemes : List Lexeme} {opened closed : Nat} :
    (opened, closed) ∈ extents lexemes ↔
      ∃ before tag behind, lexemes = before ++ .tag tag opened :: behind ∧ tag.opens ∧
        EndsAt behind closed := by
  induction lexemes with
  | nil =>
      simp [extents]
  | cons lexeme lexemes ih =>
      have hhead : (opened, closed) ∈ (extent? lexeme lexemes).toList ↔
          ∃ tag, lexeme = .tag tag opened ∧ tag.opens ∧ EndsAt lexemes closed := by
        cases lexeme with
        | literal run =>
            simp [extent?]
        | tag tag offset =>
            by_cases hopens : tag.opens
            · simp only [extent?, hopens, if_true, Option.mem_toList, Option.map_eq_some_iff,
                endsAt_iff, Lexeme.tag.injEq, Prod.mk.injEq]
              constructor
              · rintro ⟨block, hfound, rfl, rfl⟩
                exact ⟨tag, ⟨rfl, rfl⟩, hopens, block, hfound, rfl⟩
              · rintro ⟨_, ⟨rfl, rfl⟩, _, block, hfound, rfl⟩
                exact ⟨block, hfound, rfl, rfl⟩
            · simp only [extent?, hopens, Bool.false_eq_true, if_false, Option.toList_none,
                List.not_mem_nil, Lexeme.tag.injEq, false_iff]
              rintro ⟨_, ⟨rfl, rfl⟩, hother, _⟩
              exact hopens hother
      rw [extents, List.mem_append, hhead, ih]
      constructor
      · rintro (⟨tag, rfl, hopens, hends⟩ | ⟨before, tag, behind, rfl, hopens, hends⟩)
        · exact ⟨[], tag, lexemes, rfl, hopens, hends⟩
        · exact ⟨lexeme :: before, tag, behind, rfl, hopens, hends⟩
      · rintro ⟨before, tag, behind, hsplit, hopens, hends⟩
        cases before with
        | nil =>
            rcases List.cons.inj hsplit with ⟨rfl, rfl⟩
            exact .inl ⟨tag, rfl, hopens, hends⟩
        | cons first before =>
            rcases List.cons.inj hsplit with ⟨rfl, rfl⟩
            exact .inr ⟨before, tag, behind, rfl, hopens, hends⟩

theorem ClosesAll.extents_append {left : List Lexeme} (right : List Lexeme) :
    ClosesAll left → extents (left ++ right) = extents left ++ extents right := by
  induction left with
  | nil =>
      intro _
      rfl
  | cons lexeme left ih =>
      intro h
      have hrest : ClosesAll left := fun before tag offset behind hsplit =>
        h (lexeme :: before) tag offset behind (by simp [hsplit])
      have hextent : extent? lexeme (left ++ right) = extent? lexeme left := by
        cases lexeme with
        | literal run =>
            rfl
        | tag tag offset =>
            by_cases hopens : tag.opens
            · rcases h [] tag offset left rfl hopens with ⟨block, hfound⟩
              have hsplit : left ++ right =
                  block.contents ++ .tag .close block.close :: (block.rest ++ right) := by
                simp [eq_of_split? hfound]
              have hlonger := (balanced_contents hfound).split?_append_close block.close
                (block.rest ++ right)
              rw [← hsplit] at hlonger
              simp [extent?, hopens, hfound, hlonger]
            · simp [extent?, hopens]
      simp [extents, hextent, ih hrest]

theorem deepen_of_opens {tag : Tag} (depth offset : Nat) :
    tag.opens → deepen depth (.tag tag offset) = depth + 1 := by
  intro h
  cases tag with
  | loop key | test condition | separator =>
      rfl
  | value key | otherwise | close =>
      cases h

theorem Balanced.closesAll {lexemes : List Lexeme} : Balanced lexemes → ClosesAll lexemes := by
  rintro h before tag offset behind rfl hopens
  cases hsplit : split? 0 behind with
  | some block =>
      exact ⟨block, rfl⟩
  | none =>
      -- The block would still be open at the end.
      have hstays : StaysOpen 1 behind := split?_eq_none_iff.1 hsplit
      have hbefore : 0 < depth 1 before := (staysOpen_append.1 h.staysOpen).1.pos_depth
      have hopened : deepen (depth 1 before) (.tag tag offset) = 1 + depth 1 before := by
        rw [deepen_of_opens _ _ hopens, Nat.add_comm]
      have hcount : depth 1 behind + depth 1 before = 1 := by
        rw [← hstays.depth_add, ← hopened, ← depth_cons, ← depth_append, h.depth_eq]
      have hpos := hstays.pos_depth
      omega

/-- A block with balanced contents comes first, then those inside it, then those behind it. -/
theorem Balanced.extents_block {tag : Tag} {contents : List Lexeme} (opened closed : Nat)
    (rest : List Lexeme) (opens : tag.opens) :
    Balanced contents →
      extents (.tag tag opened :: (contents ++ .tag .close closed :: rest)) =
        (opened, closed) :: (extents contents ++ extents rest) := by
  intro h
  have hfound := h.split?_append_close closed rest
  have hclose : extent? (.tag .close closed) rest = none := rfl
  have hopened : extent? (.tag tag opened) (contents ++ .tag .close closed :: rest) =
      some (opened, closed) := by
    simp [extent?, opens, hfound]
  simp [extents, h.closesAll.extents_append, hclose, hopened]

end Block

namespace Grammar

open Lexeme (Placed concat placed_append)
open Node (allExtents width)

theorem Gap.extents_append {front lexemes : List Lexeme} {gap : List Char} :
    Gap front gap → Block.extents (front ++ lexemes) = Block.extents lexemes := by
  intro h
  cases h <;> rfl

theorem Derives.width_eq {lexemes : List Lexeme} {tree : List Node} :
    Derives lexemes tree → width tree = byteLength (concat lexemes) := by
  intro h
  rw [width, h.toList_sources]

/-- A derived tree has its blocks where the lexemes have theirs. -/
theorem Derives.allExtents_eq {lexemes : List Lexeme} {tree : List Node} :
    Derives lexemes tree → ∀ {offset : Nat}, Placed offset lexemes →
      allExtents offset tree = Block.extents lexemes := by
  intro h
  induction h with
  | nil =>
      intro offset _
      simp [allExtents, Block.extents]
  | literal hrest ih =>
      intro offset hplaced
      simp only [Placed] at hplaced
      simp [allExtents, Node.extents, Node.source, Block.extents, Block.extent?, ih hplaced]
  | value hrest ih =>
      intro offset hplaced
      simp only [Placed] at hplaced
      simp [allExtents, Node.extents, Node.source, Block.extents, Block.extent?, Tag.opens,
        ih hplaced.2]
  | loop hbody hrest ihBody ih =>
      intro offset hplaced
      simp only [Placed, placed_append] at hplaced
      rcases hplaced with ⟨rfl, hinside, rfl, hbehind⟩
      rw [hbody.balanced.extents_block _ _ _ rfl, ← ihBody hinside, ← ih hbehind]
      simp [allExtents, Node.extents, Node.source, hbody.width_eq, hbody.toList_sources,
        Nat.add_assoc]
  | joined hgap hseparator hbody hrest ihSeparator ihBody ih =>
      rename_i key gap _ separatorOffset separatorClose _ front separator body _ _ _ _
      intro offset hplaced
      have hcontents : Block.Balanced (.tag .separator separatorOffset ::
          (separator ++ .tag .close separatorClose :: body)) :=
        hseparator.balanced.block _ rfl hbody.balanced
      have hinner : Block.extents (.tag .separator separatorOffset ::
          (separator ++ .tag .close separatorClose :: body)) =
            (separatorOffset, separatorClose) ::
              (Block.extents separator ++ Block.extents body) :=
        hseparator.balanced.extents_block _ _ _ rfl
      simp only [Placed, placed_append] at hplaced
      rcases hplaced with ⟨rfl, ⟨-, rfl, hbetween, rfl, hinside⟩, rfl, hbehind⟩
      rw [(hgap.balanced_append.2 hcontents).extents_block _ _ _ rfl, hgap.extents_append, hinner,
        ← ihSeparator hbetween, ← ihBody hinside, ← ih hbehind]
      simp [allExtents, Node.extents, Node.source, hgap.concat_eq, hseparator.width_eq,
        hseparator.toList_sources, hbody.width_eq, hbody.toList_sources, Lexeme.written,
        Nat.add_assoc]
  | guarded hbody hrest ihBody ih =>
      intro offset hplaced
      simp only [Placed, placed_append] at hplaced
      rcases hplaced with ⟨rfl, hinside, rfl, hbehind⟩
      rw [hbody.balanced.extents_block _ _ _ rfl, ← ihBody hinside, ← ih hbehind]
      simp [allExtents, Node.extents, Node.source, Condition.toText_ofText, hbody.width_eq,
        hbody.toList_sources, Nat.add_assoc]
  | choice hbody hotherwise hrest ihBody ihOtherwise ih =>
      rename_i condition _ otherwiseOffset _ body otherwise _ _ _ _
      intro offset hplaced
      have hcontents : Block.Balanced (body ++ .tag .otherwise otherwiseOffset :: otherwise) :=
        hbody.balanced.append ((Block.Balanced.cons_iff rfl).2 hotherwise.balanced)
      have hinner : Block.extents (body ++ .tag .otherwise otherwiseOffset :: otherwise) =
          Block.extents body ++ Block.extents otherwise :=
        hbody.balanced.closesAll.extents_append _
      simp only [Placed, placed_append] at hplaced
      rcases hplaced with ⟨rfl, ⟨hfirst, rfl, hsecond⟩, rfl, hbehind⟩
      rw [hcontents.extents_block _ _ _ rfl, hinner, ← ihBody hfirst, ← ihOtherwise hsecond,
        ← ih hbehind]
      simp [allExtents, Node.extents, Node.source, Condition.toText_ofText, hbody.width_eq,
        hbody.toList_sources, hotherwise.width_eq, hotherwise.toList_sources, Lexeme.written,
        Nat.add_assoc]

end Grammar

/-! ## The end of a block -/

namespace Block

open Lexeme (Reads)

/-- A tag among the lexemes of a text stands in the text, and what it opens ends where the lexemes
behind it say. -/
theorem locateEnd_of_reads {text : String} {lexemes before after : List Lexeme} {tag : Tag}
    {opened : Nat} :
    Reads 0 text.toList lexemes → lexemes = before ++ .tag tag opened :: after → tag.opens →
      ∀ close, locateEnd text opened = .ok close ↔ EndsAt after close := by
  intro hreads hsplit hopens close
  rcases hreads.behind_tag hsplit with ⟨hvalid, front, behind, hcut, hplace, hbehind⟩
  have hat : Tag.OpensAt text.toList opened tag behind :=
    ⟨hopens, hvalid, front, by simpa using hcut, by omega⟩
  rw [locateEnd_of_opener hat, ← Lexeme.reads_iff.1 hbehind, endsAt_iff]
  cases split? 0 after <;> simp

theorem parse_extents {text : String} {template : Template} {lexemes : List Lexeme} :
    Template.parse text = .ok template → Reads 0 text.toList lexemes →
      Node.allExtents 0 template.nodes = extents lexemes ∧ ClosesAll lexemes := by
  intro hparse hreads
  have hderives := Template.derivation_iff.1 (Template.parse_eq_ok_iff.1 hparse).2
  rw [Lexeme.reads_iff.1 hreads]
  exact ⟨hderives.allExtents_eq (Lexeme.placed_ofText 0 _), hderives.balanced.closesAll⟩

/-- At every offset of every text the end of a block is found as the tags behind say, and in a text
that is a template it is where the tree closes the block. -/
theorem locateEnd_finds_close (text : String) :
    (∀ offset result, locateEnd text offset = result ↔ Located text.toList offset result) ∧
      ∀ template lexemes, Template.parse text = .ok template → Reads 0 text.toList lexemes →
        (∀ tag opened, .tag tag opened ∈ lexemes → tag.opens →
          ∃ close, locateEnd text opened = .ok close) ∧
        ∀ opened close, (opened, close) ∈ Node.allExtents 0 template.nodes ↔
          (∃ tag, .tag tag opened ∈ lexemes ∧ tag.opens) ∧ locateEnd text opened = .ok close := by
  refine ⟨fun offset result => locateEnd_eq_iff, fun template lexemes hparse hreads => ?_⟩
  rcases parse_extents hparse hreads with ⟨hextents, hcloses⟩
  constructor
  · intro tag opened hmem hopens
    rcases List.append_of_mem hmem with ⟨before, after, hsplit⟩
    rcases hcloses before tag opened after hsplit hopens with ⟨block, hfound⟩
    exact ⟨block.close,
      (locateEnd_of_reads hreads hsplit hopens _).2 (endsAt_iff.2 ⟨block, hfound, rfl⟩)⟩
  · intro opened close
    rw [hextents, mem_extents_iff]
    constructor
    · rintro ⟨before, tag, after, hsplit, hopens, hends⟩
      exact ⟨⟨tag, by simp [hsplit], hopens⟩,
        (locateEnd_of_reads hreads hsplit hopens close).2 hends⟩
    · rintro ⟨⟨tag, hmem, hopens⟩, hlocated⟩
      rcases List.append_of_mem hmem with ⟨before, after, hsplit⟩
      exact ⟨before, tag, after, hsplit, hopens,
        (locateEnd_of_reads hreads hsplit hopens close).1 hlocated⟩

theorem locateEnd_finds_close_nested :
    let text := (Tag.test "a\x7b\x7bend").toText ++ (Tag.loop "é").toText ++
      Tag.separator.toText ++ "," ++ Tag.close.toText ++ "\n" ++ Tag.close.toText ++
      Tag.otherwise.toText ++ (Tag.value "b").toText ++ Tag.close.toText
    ∃ template lexemes, Template.parse text = .ok template ∧ Reads 0 text.toList lexemes ∧
      (.tag .separator 23 ∈ lexemes ∧ Tag.separator.opens) ∧
      (∃ close, locateEnd text 23 = .ok close) ∧
      Node.allExtents 0 template.nodes = [(0, 60), (13, 39), (23, 31)] ∧
      ∀ opened close, (opened, close) ∈ [(0, 60), (13, 39), (23, 31)] →
        locateEnd text opened = .ok close := by
  intro text
  have hparse : Template.parse text = .ok ⟨text, [.choice (.truthy "a\x7b\x7bend")
      [.joined "é" "" [.literal ","] [.literal "\n"]] [.value "b"]]⟩ := by
    subst text
    with_unfolding_all rfl
  have hreads := Lexeme.reads_ofText 0 text.toList
  have hmem : .tag .separator 23 ∈ Lexeme.ofText 0 text.toList := by
    subst text
    decide +kernel
  have hextents : Node.allExtents 0 [.choice (.truthy "a\x7b\x7bend")
      [.joined "é" "" [.literal ","] [.literal "\n"]] [.value "b"]] =
        [(0, 60), (13, 39), (23, 31)] := by
    decide +kernel
  rcases (locateEnd_finds_close text).2 _ _ hparse hreads with ⟨hfound, hcloses⟩
  rw [hextents] at hcloses
  exact ⟨_, _, hparse, hreads, ⟨hmem, rfl⟩, hfound _ _ hmem rfl, hextents,
    fun opened close h => ((hcloses opened close).1 h).2⟩

end Block

end Stencil
