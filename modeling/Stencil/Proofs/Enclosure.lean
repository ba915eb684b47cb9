import Stencil.Proofs.Closing
import Stencil.Proofs.Parts

/-!
# Enclosure — what lies around a block, and blocks inside blocks

The end of a block is found in the text from its opening tag up to its closing one.  What stands in
front of the one and behind the other makes no difference, even where it completes a tag of its own
with the borders of that text.  Two blocks of a text therefore never overlap in part: they lie apart,
or one lies inside the other.

* `Tag.Leads.of_append` — no tag reaches across two closing braces;
* `Lexeme.Reads.extend` — a text is read alike up to its last tag, whatever follows it;
* `Lexeme.Placed.exists_between` — tags stand among lexemes in the order of their offsets;
* `Block.EndsAt.apart_or_inside` — blocks among lexemes lie apart, or one inside the other;
* `Block.locateEnd_enclosed` — the same for the offsets in a text.
-/

namespace Stencil

/-! ## Tags in front of further text -/

namespace Tag

/-- Only the last two characters of a tag are closing braces. -/
theorem exists_inner {tag : Tag} (valid : tag.Valid) :
    ∃ inner, tag.written = inner ++ Argument.close ∧ inner.count '}' = 0 := by
  have hopening : ∀ word : String, '}' ∉ word.toList →
      ∀ argument : List Char, '}' ∉ argument →
        (Argument.opening word ++ argument).count '}' = 0 := by
    intro word hword argument hargument
    refine List.count_eq_zero.2 ?_
    simp [Argument.opening, hword, hargument]
  cases tag with
  | value key =>
      exact ⟨_, rfl, hopening "=" (by decide) _ valid.2⟩
  | loop key =>
      exact ⟨_, rfl, hopening "for:" (by decide) _ valid.2⟩
  | test condition =>
      exact ⟨_, rfl, hopening "if:" (by decide) _ valid.2⟩
  | otherwise | separator | close =>
      exact ⟨_, rfl, by decide⟩

theorem two_le_count_written {tag : Tag} (valid : tag.Valid) : 2 ≤ tag.written.count '}' := by
  rcases exists_inner valid with ⟨inner, hwritten, hinner⟩
  simp [hwritten, hinner, Argument.close]

/-- A tag at the head of a text ends in front of its second closing brace at the latest, so that
nothing behind that brace is part of it. -/
theorem Leads.of_append {text more : List Char} (closed : 2 ≤ text.count '}') :
    Leads (text ++ more) → Leads text := by
  rintro ⟨tag, hvalid, hlead⟩
  refine ⟨tag, hvalid, ?_⟩
  rcases Nat.le_total tag.written.length text.length with hfits | hlonger
  · exact List.prefix_of_prefix_length_le hlead (List.prefix_append text more) hfits
  · have hpart : text <+: tag.written :=
      List.prefix_of_prefix_length_le (List.prefix_append text more) hlead hlonger
    rcases exists_inner hvalid with ⟨inner, hwritten, hinner⟩
    have hsplit : tag.written = (inner ++ ['}']) ++ ['}'] := by
      simp [hwritten, Argument.close]
    -- A text that ends inside the tag has at most one of its two closing braces.
    rw [hsplit] at hpart ⊢
    rcases List.prefix_concat_iff.1 hpart with rfl | hinside
    · exact List.prefix_rfl
    · have hfew : text.count '}' ≤ (inner ++ ['}']).count '}' := hinside.sublist.count_le '}'
      simp [hinner] at hfew
      omega

theorem OpensAt.enclosed {text behind : List Char} {offset : Nat} {tag : Tag}
    (before after : List Char) :
    OpensAt text offset tag behind →
      OpensAt (before ++ text ++ after) (Text.byteLength before + offset) tag
        (behind ++ after) := by
  rintro ⟨hopens, hvalid, front, rfl, rfl⟩
  refine ⟨hopens, hvalid, before ++ front, ?_, ?_⟩
  · simp
  · simp

end Tag

/-! ## Lexemes in front of further text -/

namespace Lexeme

open Text (byteLength byteLength_append)

/-- Up to any tag that is read in it, a text is read alike, whatever follows the text. -/
theorem Reads.extend {offset : Nat} {text : List Char} {lexemes : List Lexeme}
    (more : List Char) :
    Reads offset text lexemes → ∀ {front back : List Lexeme} {tag : Tag} {place : Nat},
      lexemes = front ++ .tag tag place :: back →
        ∃ later, Reads offset (text ++ more) (front ++ .tag tag place :: later) := by
  intro h
  induction h with
  | run free =>
      rename_i offset run
      intro front back tag place hsplit
      have hmem : Lexeme.tag tag place ∈ ofRun run := by simp [hsplit]
      by_cases hrun : run = [] <;> simp [ofRun, hrun] at hmem
  | tag valid leftmost rest ih =>
      rename_i offset before behind first lexemes
      intro front back tag place hsplit
      have hleftmost : ∀ left right, before = left ++ right → right ≠ [] →
          ¬ Tag.Leads (right ++ first.written ++ (behind ++ more)) := by
        intro left right hbefore hne hlead
        have hclosed : 2 ≤ (right ++ first.written ++ behind).count '}' := by
          have htag := Tag.two_le_count_written valid
          simp only [List.count_append]
          omega
        have hlonger : Tag.Leads (right ++ first.written ++ behind ++ more) := by
          simpa using hlead
        exact leftmost left right hbefore hne (.of_append hclosed hlonger)
      have hread : ∀ {later : List Lexeme},
          Reads (offset + byteLength before + byteLength first.written) (behind ++ more) later →
            Reads offset (before ++ first.written ++ behind ++ more)
              (ofRun before ++ .tag first (offset + byteLength before) :: later) := by
        intro later hlater
        have h := Reads.tag valid hleftmost hlater
        simpa using h
      rcases eq_append_of_ofRun_append hsplit with ⟨middle, rfl, hmiddle⟩
      cases middle with
      | nil =>
          -- It is the leftmost tag of the text.
          rcases List.cons.inj hmiddle with ⟨hsame, rfl⟩
          rw [List.append_nil, ← hsame]
          exact ⟨_, hread (reads_ofText _ _)⟩
      | cons lexeme middle =>
          rcases List.cons.inj hmiddle with ⟨rfl, hlater⟩
          rcases ih hlater with ⟨later, hreads⟩
          exact ⟨later, by simpa using hread hreads⟩

/-! ## The order of offsets -/

/-- A tag ends where the next one starts, or in front of it. -/
theorem Placed.end_le {offset : Nat} {front middle back : List Lexeme} {first second : Tag}
    {place next : Nat} :
    Placed offset (front ++ .tag first place :: (middle ++ .tag second next :: back)) →
      place + byteLength first.written ≤ next := by
  intro h
  rcases (placed_append.1 h).2 with ⟨rfl, hbehind⟩
  rcases (placed_append.1 hbehind).2 with ⟨rfl, -⟩
  omega

/-- Of two tags, the one with the smaller offset comes first. -/
theorem Placed.exists_between {offset : Nat} {lexemes : List Lexeme} {first second : Tag}
    {place next : Nat} :
    Placed offset lexemes → .tag first place ∈ lexemes → .tag second next ∈ lexemes →
      place < next →
        ∃ front middle back,
          lexemes = front ++ .tag first place :: (middle ++ .tag second next :: back) := by
  intro hplaced hfirst hsecond hless
  rcases List.append_of_mem hfirst with ⟨front, rest, rfl⟩
  rcases List.mem_append.1 hsecond with hbefore | hrest
  · -- Then it would end in front of the other.
    rcases List.append_of_mem hbefore with ⟨early, late, rfl⟩
    have hswapped : Placed offset
        (early ++ .tag second next :: (late ++ .tag first place :: rest)) := by
      simpa using hplaced
    have hend := hswapped.end_le
    omega
  · rcases List.mem_cons.1 hrest with hsame | hbehind
    · have hequal : second = first ∧ next = place := by simpa using hsame
      omega
    · rcases List.append_of_mem hbehind with ⟨middle, back, rfl⟩
      exact ⟨front, middle, back, rfl⟩

end Lexeme

/-! ## Blocks -/

namespace Block

open Text (byteLength)
open Lexeme (Reads Placed)

/-- The end of a block depends on nothing behind it. -/
theorem EndsAt.extend {offset close : Nat} {text : List Char} {lexemes : List Lexeme}
    (more : List Char) :
    EndsAt lexemes close → Reads offset text lexemes →
      ∃ longer, Reads offset (text ++ more) longer ∧ EndsAt longer close := by
  rintro ⟨inside, rest, rfl, hexcess, hfirst⟩ hreads
  rcases hreads.extend more rfl with ⟨later, hlonger⟩
  exact ⟨_, hlonger, inside, later, rfl, hexcess, hfirst⟩

theorem EndsAt.move {close : Nat} {lexemes : List Lexeme} (distance : Nat) :
    EndsAt lexemes close → EndsAt (lexemes.map (Lexeme.move distance)) (close + distance) := by
  intro h
  rcases endsAt_iff.1 h with ⟨block, hfound, rfl⟩
  exact endsAt_iff.2 ⟨block.move distance, split?_move_of_some distance hfound, rfl⟩

theorem locateEnd_of_enclosed {text : String} {offset close : Nat} (before behind : String) :
    locateEnd text offset = .ok close →
      locateEnd (before ++ text ++ behind) (byteLength before.toList + offset) =
        .ok (byteLength before.toList + close) := by
  intro h
  cases locateEnd_eq_iff.1 h with
  | closed hopens hreads hends =>
      rename_i tag rest lexemes
      rcases hends.extend behind.toList hreads with ⟨longer, hlonger, hend⟩
      have hstart : offset + byteLength tag.written + byteLength before.toList =
          byteLength before.toList + offset + byteLength tag.written := by
        omega
      have hmoved : Reads (byteLength before.toList + offset + byteLength tag.written)
          (rest ++ behind.toList) (longer.map (Lexeme.move (byteLength before.toList))) := by
        rw [Lexeme.reads_iff.1 hlonger, ← Lexeme.ofText_move, hstart]
        exact Lexeme.reads_ofText _ _
      have hat : Tag.OpensAt (before ++ text ++ behind).toList (byteLength before.toList + offset)
          tag (rest ++ behind.toList) := by
        simpa using hopens.enclosed before.toList behind.toList
      refine locateEnd_eq_iff.2 (.closed hat hmoved ?_)
      rw [Nat.add_comm]
      exact hend.move (byteLength before.toList)

/-- A block that is opened behind the start of another one is opened behind its end, or closed in
front of its end. -/
theorem EndsAt.apart_or_inside {middle back : List Lexeme} {tag : Tag} {opened close inner : Nat} :
    EndsAt (middle ++ .tag tag opened :: back) close → tag.opens → EndsAt back inner →
      (∃ contents rest, middle = contents ++ .tag .close close :: rest) ∨
        ∃ contents between rest, back =
          contents ++ .tag .close inner :: (between ++ .tag .close close :: rest) := by
  intro houter hopens hinner
  rcases endsAt_iff.1 houter with ⟨block, hfound, rfl⟩
  rcases endsAt_iff.1 hinner with ⟨other, hother, rfl⟩
  have hdiffer : Lexeme.tag tag opened ≠ .tag .close block.close := by
    intro hsame
    rw [(Lexeme.tag.inj hsame).1] at hopens
    cases hopens
  rcases List.append_eq_append_iff.1 (eq_of_split? hfound) with
    ⟨contents, hcontents, hback⟩ | ⟨rest, hmiddle, hrest⟩
  · cases contents with
    | nil =>
        exact absurd (List.cons.inj hback).1 hdiffer
    | cons lexeme contents =>
        rcases List.cons.inj hback with ⟨rfl, hbehind⟩
        -- The contents of the first block close every block that they open.
        have hbalanced := balanced_contents hfound
        rcases hbalanced.closesAll _ _ _ _ hcontents hopens with ⟨last, hlast⟩
        have hsame : back = last.contents ++ .tag .close last.close ::
            (last.rest ++ .tag .close block.close :: block.rest) := by
          rw [hbehind, eq_of_split? hlast]
          simp
        have hagain := (balanced_contents hlast).split?_append_close last.close
          (last.rest ++ .tag .close block.close :: block.rest)
        rw [← hsame, hother] at hagain
        cases hagain
        exact .inr ⟨_, _, _, hsame⟩
  · cases rest with
    | nil =>
        exact absurd (List.cons.inj hrest).1.symm hdiffer
    | cons lexeme rest =>
        rcases List.cons.inj hrest with ⟨rfl, -⟩
        exact .inl ⟨_, _, hmiddle⟩

/-- The end of a block is found alike in every text around the text that it is found in, and two
blocks of a text lie apart or one inside the other. -/
theorem locateEnd_enclosed :
    (∀ (before text behind : String) (offset close : Nat), locateEnd text offset = .ok close →
      locateEnd (before ++ text ++ behind) (byteLength before.toList + offset) =
        .ok (byteLength before.toList + close)) ∧
      ∀ (text : String) (lexemes : List Lexeme), Reads 0 text.toList lexemes →
        ∀ (first second : Tag) (opened close opened' close' : Nat),
          .tag first opened ∈ lexemes → .tag second opened' ∈ lexemes →
          first.opens → second.opens → opened < opened' →
          locateEnd text opened = .ok close → locateEnd text opened' = .ok close' →
            close + byteLength Tag.close.written ≤ opened' ∨
              close' + byteLength Tag.close.written ≤ close := by
  refine ⟨fun before text behind offset close => locateEnd_of_enclosed before behind, ?_⟩
  intro text lexemes hreads first second opened close opened' close' hfirst hsecond hopens hopens'
    hless hclose hclose'
  have hplaced : Placed 0 lexemes := by
    rw [Lexeme.reads_iff.1 hreads]
    exact Lexeme.placed_ofText 0 text.toList
  rcases hplaced.exists_between hfirst hsecond hless with ⟨front, middle, back, rfl⟩
  have hends := (locateEnd_of_reads hreads rfl hopens close).1 hclose
  have hsplit : front ++ .tag first opened :: (middle ++ .tag second opened' :: back) =
      front ++ .tag first opened :: middle ++ .tag second opened' :: back := by
    simp
  have hends' := (locateEnd_of_reads hreads hsplit hopens' close').1 hclose'
  rcases hends.apart_or_inside hopens' hends' with
    ⟨contents, rest, rfl⟩ | ⟨contents, between, rest, rfl⟩
  · have hapart : Placed 0 (front ++ .tag first opened :: contents ++
        .tag .close close :: (rest ++ .tag second opened' :: back)) := by
      simpa using hplaced
    exact .inl hapart.end_le
  · have hinside : Placed 0
        (front ++ .tag first opened :: (middle ++ .tag second opened' :: contents) ++
          .tag .close close' :: (between ++ .tag .close close :: rest)) := by
      simpa using hplaced
    exact .inr hinside.end_le

theorem locateEnd_enclosed_swallowed :
    -- In the whole text the opening tag is part of another one, and a tag is completed at its end.
    let before := "\x7b\x7bfor:"
    let text := (Tag.test "a").toText ++ "é" ++ Tag.close.toText ++ "\x7b\x7b=k"
    let behind := "\x7d\x7d" ++ Tag.close.toText
    let nested := (Tag.loop "k").toText ++ Tag.separator.toText ++ "x" ++ Tag.close.toText ++
      (Tag.test "b").toText ++ Tag.close.toText ++ Tag.close.toText
    let lexemes := Lexeme.ofText 0 nested.toList
    .tag (.loop "\x7b\x7bif:a") 0 ∈ Lexeme.ofText 0 (before ++ text ++ behind).toList ∧
      locateEnd text 0 = .ok 10 ∧ locateEnd (before ++ text ++ behind) 6 = .ok 16 ∧
      Reads 0 nested.toList lexemes ∧ .tag (.loop "k") 0 ∈ lexemes ∧
      .tag .separator 9 ∈ lexemes ∧ .tag (.test "b") 24 ∈ lexemes ∧
      locateEnd nested 0 = .ok 39 ∧ locateEnd nested 9 = .ok 17 ∧ locateEnd nested 24 = .ok 32 ∧
      (39 + byteLength Tag.close.written ≤ 9 ∨ 17 + byteLength Tag.close.written ≤ 39) ∧
      (17 + byteLength Tag.close.written ≤ 24 ∨ 32 + byteLength Tag.close.written ≤ 17) := by
  intro before text behind nested lexemes
  have hlocal : locateEnd text 0 = .ok 10 := by
    subst text
    decide +kernel
  have hbefore : byteLength before.toList = 6 := by
    subst before
    decide +kernel
  have hlonger := locateEnd_enclosed.1 before text behind 0 10 hlocal
  rw [hbefore] at hlonger
  have hreads : Reads 0 nested.toList lexemes := Lexeme.reads_ofText 0 nested.toList
  have hmems : .tag (.loop "k") 0 ∈ lexemes ∧ .tag .separator 9 ∈ lexemes ∧
      .tag (.test "b") 24 ∈ lexemes := by
    subst lexemes nested
    decide +kernel
  have hends : locateEnd nested 0 = .ok 39 ∧ locateEnd nested 9 = .ok 17 ∧
      locateEnd nested 24 = .ok 32 := by
    subst nested
    decide +kernel
  rcases hmems with ⟨hloop, hseparator, htest⟩
  rcases hends with ⟨hwhole, hbetween, hinside⟩
  have hapart := locateEnd_enclosed.2 nested lexemes hreads
  refine ⟨?_, hlocal, hlonger, hreads, hloop, hseparator, htest, hwhole, hbetween, hinside, ?_, ?_⟩
  · subst before text behind
    decide +kernel
  · exact hapart _ _ 0 39 9 17 hloop hseparator rfl rfl (by decide) hwhole hbetween
  · exact hapart _ _ 9 17 24 32 hseparator htest rfl rfl (by decide) hbetween hinside

end Block

end Stencil
