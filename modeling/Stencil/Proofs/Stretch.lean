import Stencil.Proofs.Enclosure
import Stencil.Proofs.Search

/-!
# Stretches — lexemes between two byte offsets

The lexemes of a part of a text are what the search finds in it: the next tag up to the end of the part
is the first one among its lexemes, and what stands in front of it is the run before.  A part can be
divided at any tag.  What closes a block in a part closes it in the whole text.

* `Lexeme.Reads.at_tag` — a text is divided at a tag, and both sides are read alone;
* `Stretch` — the lexemes of the text between two byte offsets;
* `Stretch.cases` — the search in a stretch finds its first tag, or that it has none;
* `Stretch.at_tag` — a stretch in front of a tag, and one behind it;
* `Stretch.locateEnd_eq` — the end of a block, seen from the stretch behind its tag.
-/

namespace Stencil

open Text (byteLength IsBoundary slice?)

/-! ## Both sides of a tag -/

namespace Lexeme

/-- A text is divided at a tag, and both sides are read as if they stood alone. -/
theorem Reads.at_tag {offset : Nat} {text : List Char} {lexemes : List Lexeme} :
    Reads offset text lexemes → ∀ {front back : List Lexeme} {tag : Tag} {place : Nat},
      lexemes = front ++ .tag tag place :: back →
        ∃ inside behind, text = inside ++ tag.written ++ behind ∧ tag.Valid ∧
          place = offset + byteLength inside ∧ Reads offset inside front ∧
          Reads (place + byteLength tag.written) behind back := by
  intro h
  induction h with
  | run free =>
      rename_i offset run
      intro front back tag place hsplit
      have hmem : Lexeme.tag tag place ∈ ofRun run := by simp [hsplit]
      by_cases hrun : run = [] <;> simp [ofRun, hrun] at hmem
  | tag valid leftmost rest ih =>
      rename_i offset before behind first lexemes
      intro front back tag place hsplit
      rcases eq_append_of_ofRun_append hsplit with ⟨middle, rfl, hmiddle⟩
      cases middle with
      | nil =>
          rcases List.cons.inj hmiddle with ⟨hsame, rfl⟩
          rcases Lexeme.tag.inj hsame with ⟨rfl, rfl⟩
          refine ⟨before, behind, rfl, valid, rfl, ?_, rest⟩
          -- A tag in the run would be one in the text, where it would come first.
          rw [List.append_nil]
          refine .run fun left right hbefore hlead => ?_
          by_cases hright : right = []
          · exact Tag.not_leads_nil (hright ▸ hlead)
          · have hlonger := hlead.append (first.written ++ behind)
            exact leftmost left right hbefore hright (by simpa using hlonger)
      | cons lexeme middle =>
          rcases List.cons.inj hmiddle with ⟨rfl, hlater⟩
          rcases ih hlater with ⟨inside, last, rfl, hvalid, rfl, hfront, hback⟩
          have hleftmost : ∀ left right, before = left ++ right → right ≠ [] →
              ¬ Tag.Leads (right ++ first.written ++ inside) := by
            intro left right hbefore hright hlead
            have hlonger := hlead.append (tag.written ++ last)
            exact leftmost left right hbefore hright (by simpa using hlonger)
          refine ⟨before ++ first.written ++ inside, last, by simp, hvalid, ?_, ?_, hback⟩
          · simp only [Text.byteLength_append]
            omega
          · have hread := Reads.tag valid hleftmost hfront
            simpa using hread

end Lexeme

/-! ## Tags of a part -/

/-- A tag between two offsets is part of the text between them. -/
theorem Span.Inside.exists_split {text inside : List Char} {start stop : Nat} {span : Span}
    (cut : slice? text start stop = some inside) :
    span.Inside text start stop →
      ∃ left right, inside = left ++ span.tag.written ++ right ∧ span.tag.Valid ∧
        span.start = start + byteLength left := by
  rintro ⟨hread, hpast, hwithin⟩
  rcases Text.slice?_eq_some_iff.1 cut with ⟨before, after, rfl, rfl, rfl⟩
  rcases Tag.lex?_eq_some_iff.1 hread with ⟨front, back, hsame, hvalid, hstart, -, hstop⟩
  rw [List.append_assoc, List.append_assoc] at hsame
  rcases Text.exists_of_byteLength_le hsame (by omega) with ⟨left, rfl, hinside⟩
  rw [← List.append_assoc] at hinside
  rw [Text.byteLength_append] at hstart
  have hfits : byteLength (left ++ span.tag.written) ≤ byteLength inside := by
    rw [Text.byteLength_append]
    omega
  rcases Text.exists_of_byteLength_le hinside.symm hfits with ⟨right, hright, -⟩
  exact ⟨left, right, hright, hvalid, hstart.symm⟩

/-- What stands in the text between two offsets lies inside them. -/
theorem Span.inside_of_split {text left right : List Char} {start stop : Nat} {tag : Tag}
    (valid : tag.Valid) :
    slice? text start stop = some (left ++ tag.written ++ right) →
      Span.Inside text start stop
        ⟨tag, start + byteLength left, start + byteLength left + byteLength tag.written⟩ := by
  intro hcut
  rcases Text.slice?_eq_some_iff.1 hcut with ⟨before, after, rfl, rfl, rfl⟩
  have hread : Tag.lex? (before ++ (left ++ tag.written ++ right) ++ after)
      (byteLength before + byteLength left) =
        some ⟨tag, byteLength before + byteLength left,
          byteLength before + byteLength left + byteLength tag.written⟩ := by
    refine Tag.lex?_eq_some_iff.2 ⟨before ++ left, right ++ after, by simp, valid, ?_, rfl, rfl⟩
    exact Text.byteLength_append ..
  refine ⟨hread, Nat.le_add_right .., ?_⟩
  simp only [Text.byteLength_append]
  omega

namespace Tag

/-- Nothing is found in a run. -/
theorem next?_of_run {text run : List Char} {start stop : Nat}
    (cut : slice? text start stop = some run) :
    (∀ left right, run = left ++ right → ¬ Leads right) → next? text start stop = none := by
  intro hfree
  cases hfound : next? text start stop with
  | none =>
      rfl
  | some span =>
      rcases (next?_inside hfound).exists_split cut with ⟨left, right, rfl, hvalid, -⟩
      refine absurd ⟨span.tag, hvalid, List.prefix_append _ right⟩ (hfree left _ ?_)
      exact List.append_assoc ..

/-- Behind a run, the tag at its end is found. -/
theorem next?_of_tag {text before behind : List Char} {start stop : Nat} {tag : Tag}
    (valid : tag.Valid) (cut : slice? text start stop = some (before ++ tag.written ++ behind)) :
    (∀ left right, before = left ++ right → right ≠ [] →
      ¬ Leads (right ++ tag.written ++ behind)) →
      next? text start stop = some
        ⟨tag, start + byteLength before, start + byteLength before + byteLength tag.written⟩ := by
  intro hleftmost
  have hinside := Span.inside_of_split valid cut
  have hsome : (slice? text start stop).isSome := by
    rw [cut]
    rfl
  rcases Text.isSome_slice?_iff.1 hsome with ⟨hstart, hstop, -⟩
  rcases exists_next? hstart hstop hinside with ⟨first, hfirst, hle⟩
  have hfirstInside := next?_inside hfirst
  rcases hfirstInside.exists_split cut with ⟨left, right, hsame, hvalid, hplace⟩
  have hshort : byteLength left ≤ byteLength before := by
    simp only at hle
    omega
  rw [List.append_assoc, List.append_assoc] at hsame
  rcases Text.exists_of_byteLength_le hsame.symm hshort with ⟨gap, rfl, hgap⟩
  -- What is found is a tag of the part, so it cannot stand in front of the leftmost one.
  have hnil : gap = [] := by
    by_contra hne
    refine hleftmost left gap rfl hne ⟨first.tag, hvalid, right, ?_⟩
    rw [hgap, List.append_assoc]
  subst hnil
  have hread := hfirstInside.read
  rw [hplace, ← List.append_nil left, hinside.read] at hread
  rw [hfirst, Option.some.inj hread]

end Tag

/-! ## Stretches -/

/-- The text between two byte offsets is read as lexemes. -/
def Stretch (text : List Char) (start stop : Nat) (lexemes : List Lexeme) : Prop :=
  ∃ inside, slice? text start stop = some inside ∧ Lexeme.Reads start inside lexemes

namespace Stretch

variable {text : List Char} {start stop : Nat} {lexemes : List Lexeme}

/-- Whatever stands at the end of a text is read as it is alone. -/
theorem behind (before rest : List Char) :
    Stretch (before ++ rest) (byteLength before) (byteLength (before ++ rest))
      (Lexeme.ofText (byteLength before) rest) := by
  refine ⟨rest, Text.slice?_eq_some_iff.2 ⟨before, [], by simp, rfl, ?_⟩,
    Lexeme.reads_ofText _ _⟩
  exact (Text.byteLength_append ..).symm

theorem isSome_slice? : Stretch text start stop lexemes → (slice? text start stop).isSome := by
  rintro ⟨inside, hcut, -⟩
  rw [hcut]
  rfl

theorem le : Stretch text start stop lexemes → start ≤ stop := by
  intro h
  exact (Text.isSome_slice?_iff.1 h.isSome_slice?).2.2

/-- The lexemes of a stretch make up its text. -/
theorem slice?_eq :
    Stretch text start stop lexemes → slice? text start stop = some (Lexeme.concat lexemes) := by
  rintro ⟨inside, hcut, hreads⟩
  rw [hcut, Lexeme.reads_iff.1 hreads, Lexeme.concat_ofText]

/-- A stretch in front of a tag, the tag, and a stretch behind it. -/
theorem at_tag {front back : List Lexeme} {tag : Tag} {place : Nat} :
    Stretch text start stop (front ++ .tag tag place :: back) →
      Stretch text start place front ∧
        Tag.lex? text place = some ⟨tag, place, place + byteLength tag.written⟩ ∧
        Stretch text (place + byteLength tag.written) stop back := by
  rintro ⟨inside, hcut, hreads⟩
  rcases hreads.at_tag rfl with ⟨left, right, rfl, hvalid, rfl, hfront, hback⟩
  refine ⟨⟨left, ?_, hfront⟩, (Span.inside_of_split hvalid hcut).read, ⟨right, ?_, hback⟩⟩
  all_goals rcases Text.slice?_eq_some_iff.1 hcut with ⟨before, after, rfl, rfl, rfl⟩
  · exact Text.slice?_eq_some_iff.2 ⟨before, tag.written ++ right ++ after, by simp, rfl, rfl⟩
  · refine Text.slice?_eq_some_iff.2 ⟨before ++ left ++ tag.written, after, by simp, ?_, ?_⟩
    · simp only [Text.byteLength_append]
    · simp only [Text.byteLength_append]
      omega

/-- The contents of a block, and what stands behind it. -/
theorem of_block {block : Block} (found : Block.split? 0 lexemes = some block) :
    Stretch text start stop lexemes →
      Stretch text start block.close block.contents ∧
        Stretch text (block.close + byteLength Tag.close.written) stop block.rest := by
  intro h
  rw [Block.eq_of_split? found] at h
  exact ⟨h.at_tag.1, h.at_tag.2.2⟩

/-- The search in a stretch finds its first tag behind a run, or else the stretch is a run. -/
theorem cases :
    Stretch text start stop lexemes →
      (∃ run, slice? text start stop = some run ∧ lexemes = Lexeme.ofRun run ∧
        Tag.next? text start stop = none) ∨
      ∃ run span rest, slice? text start span.start = some run ∧
        lexemes = Lexeme.ofRun run ++ .tag span.tag span.start :: rest ∧
        span.stop = span.start + byteLength span.tag.written ∧
        Tag.next? text start stop = some span ∧ Stretch text span.stop stop rest := by
  intro h
  have hdivided := @at_tag text start stop
  rcases h with ⟨inside, hcut, hreads⟩
  cases hreads with
  | run free =>
      exact .inl ⟨inside, hcut, rfl, Tag.next?_of_run hcut free⟩
  | tag valid leftmost rest =>
      rename_i before behind tag lexemes
      rcases hdivided ⟨_, hcut, .tag valid leftmost rest⟩ with ⟨-, -, hbehind⟩
      rcases Text.slice?_eq_some_iff.1 hcut with ⟨front, back, rfl, rfl, rfl⟩
      refine .inr ⟨before, _, lexemes, ?_, rfl, rfl, Tag.next?_of_tag valid hcut leftmost, hbehind⟩
      exact Text.slice?_eq_some_iff.2
        ⟨front, tag.written ++ behind ++ back, by simp, rfl, rfl⟩

/-- Where a block ends is seen from the stretch behind its opening tag, if the block is closed there or
the text goes no further. -/
theorem locateEnd_eq {text : String} {opener : Span} {stop : Nat} {back : List Lexeme}
    (opens : opener.tag.opens) (read : Tag.lex? text.toList opener.start = some opener)
    (ends : (Block.split? 0 back).isSome ∨ stop = byteLength text.toList) :
    Stretch text.toList opener.stop stop back →
      Block.locateEnd text opener.start =
        (Block.split? 0 back).elim
          (.error (ParseError.atOffset text.toList opener.start
            (.unclosedBlock opener.tag.toText)))
          fun block => .ok block.close := by
  rintro ⟨inside, hcut, hreads⟩
  have hlast := Tag.stop_eq_of_lex? read
  rcases Tag.lex?_eq_some_iff.1 read with ⟨before, behind, hwhole, hvalid, hplace, -⟩
  rcases Text.slice?_eq_some_iff.1 hcut with ⟨front, after, hparts, hlength, hstop⟩
  -- Both cuts behind the tag are the same one.
  have hbehind : behind = inside ++ after := by
    have hleft := Text.splitBytes?_append (before ++ opener.tag.written) behind
    have hright := Text.splitBytes?_append front (inside ++ after)
    rw [← hwhole, Text.byteLength_append, hplace, ← hlast] at hleft
    rw [← List.append_assoc, ← hparts, hlength, hleft] at hright
    exact (Prod.mk.inj (Option.some.inj hright)).2
  subst hbehind
  have hat : Tag.OpensAt text.toList opener.start opener.tag (inside ++ after) :=
    ⟨opens, hvalid, before, by rw [hwhole, List.append_assoc], hplace⟩
  rw [hlast] at hreads
  cases hfound : Block.split? 0 back with
  | some block =>
      rcases (Block.endsAt_iff.2 ⟨block, hfound, rfl⟩).extend after hreads with
        ⟨longer, hlonger, hend⟩
      exact Block.locateEnd_eq_iff.2 (.closed hat hlonger hend)
  | none =>
      have hend : stop = byteLength text.toList := by simpa [hfound] using ends
      have hnil : after = [] := by
        refine Text.eq_nil_of_byteLength_eq_zero ?_
        rw [hparts] at hend
        simp only [Text.byteLength_append] at hend
        omega
      subst hnil
      rw [List.append_nil] at hat
      rw [Block.locateEnd_of_opener hat, ← Lexeme.reads_iff.1 hreads, hfound]

end Stretch
end Stencil
