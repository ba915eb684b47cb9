import Stencil.Proofs.Reading
import Stencil.Text.Blank

/-!
# Seams — two texts, one behind the other

Two texts that are written one behind the other are read as each of them alone, unless a tag starts
in the first and ends in the second.  Only runs that meet at the seam become one run.

* `Lexeme.join` — two sequences of lexemes as one, in which runs that meet are one;
* `Lexeme.Uncrossed` — no tag starts in one text and ends in the next;
* `Lexeme.ofText_seam` — the lexemes of the two texts are then joined;
* `Lexeme.ofText_move` — where a text starts makes no difference but to the places of its tags.
-/

namespace Stencil

namespace Tag

theorem Leads.append {text : List Char} (rest : List Char) :
    Leads text → Leads (text ++ rest) := by
  rintro ⟨tag, hvalid, hlead⟩
  exact ⟨tag, hvalid, hlead.trans (List.prefix_append text rest)⟩

theorem not_leads_nil : ¬ Leads [] := by
  rintro ⟨tag, _, hlead⟩
  exact tag.written_ne_nil (List.prefix_nil.1 hlead)

/-- No tag stands at the head of a text that starts with a blank. -/
theorem not_leads_of_blank {c : Char} {text : List Char} (blank : Text.isBlank c) :
    ¬ Leads (c :: text) := by
  rintro ⟨tag, _, hlead⟩
  rcases tag.head_written with ⟨word, hword⟩
  rw [hword, List.cons_prefix_cons] at hlead
  have hbrace := Text.isBlank_openBrace
  rw [hlead.1, blank] at hbrace
  cases hbrace

end Tag

namespace Lexeme

open Text (byteLength byteLength_append)

/-! ## Joined lexemes -/

/-- A run in front of lexemes; another run at their start is part of it. -/
def weld (run : List Char) : List Lexeme → List Lexeme
  | .literal more :: lexemes => .literal (run ++ more) :: lexemes
  | lexemes => .literal run :: lexemes

/-- Two sequences of lexemes as one; two runs that meet are one run. -/
def join : List Lexeme → List Lexeme → List Lexeme
  | [], right => right
  | [.literal run], right => weld run right
  | lexeme :: left, right => lexeme :: join left right

/-- A tag ends the runs in front of it. -/
theorem join_append_tag (front left right : List Lexeme) (tag : Tag) (offset : Nat) :
    join (front ++ .tag tag offset :: left) right =
      front ++ .tag tag offset :: join left right := by
  induction front with
  | nil =>
      rfl
  | cons lexeme front ih =>
      cases front with
      | nil =>
          cases lexeme <;> rfl
      | cons next front =>
          simpa [join] using ih

/-- No run of the first sequence meets a tag. -/
theorem join_tag_right (left right : List Lexeme) (tag : Tag) (offset : Nat) :
    join left (.tag tag offset :: right) = left ++ .tag tag offset :: right := by
  induction left with
  | nil =>
      rfl
  | cons lexeme left ih =>
      cases left with
      | nil =>
          cases lexeme <;> rfl
      | cons next left =>
          simpa [join] using ih

theorem join_ofRun_append (run more : List Char) (tag : Tag) (offset : Nat)
    (right : List Lexeme) :
    join (ofRun run) (ofRun more ++ .tag tag offset :: right) =
      ofRun (run ++ more) ++ .tag tag offset :: right := by
  by_cases hrun : run = [] <;> by_cases hmore : more = [] <;>
    simp [ofRun, join, weld, hrun, hmore]

theorem join_ofRun (run more : List Char) :
    join (ofRun run) (ofRun more) = ofRun (run ++ more) := by
  by_cases hrun : run = [] <;> by_cases hmore : more = [] <;>
    simp [ofRun, join, weld, hrun, hmore]

/-! ## Blanks in front of a tag -/

/-- A run of blanks in front of a tag is a run of its own. -/
theorem ofText_blank_append {offset : Nat} {blanks behind : List Char} {tag : Tag}
    (valid : tag.Valid) (blank : ∀ c ∈ blanks, Text.isBlank c) :
    ofText offset (blanks ++ (tag.written ++ behind)) =
      ofRun blanks ++ .tag tag (offset + byteLength blanks) ::
        ofText (offset + byteLength blanks + byteLength tag.written) behind := by
  rw [← List.append_assoc]
  apply ofText_append offset valid
  intro left right hsplit hne
  cases right with
  | nil =>
      exact absurd rfl hne
  | cons c right =>
      have hblank : Text.isBlank c := blank c (by simp [hsplit])
      exact Tag.not_leads_of_blank hblank

theorem ofText_tag_append {offset : Nat} {behind : List Char} {tag : Tag} (valid : tag.Valid) :
    ofText offset (tag.written ++ behind) =
      .tag tag offset :: ofText (offset + byteLength tag.written) behind := by
  have hblank : ∀ c ∈ ([] : List Char), Text.isBlank c := by simp
  simpa [ofRun] using ofText_blank_append valid hblank

/-! ## Seams that no tag crosses -/

/-- A tag that starts in front of a border and ends behind it. -/
def Crosses (border : Nat) : Lexeme → Prop
  | literal _ => False
  | tag found start => start < border ∧ border < start + byteLength found.written

instance (border : Nat) : (lexeme : Lexeme) → Decidable (lexeme.Crosses border)
  | literal _ => inferInstanceAs (Decidable False)
  | tag _ _ => inferInstanceAs (Decidable (_ ∧ _))

/-- No tag of two texts, one behind the other, starts in the first and ends in the second. -/
def Uncrossed (offset : Nat) (left right : List Char) : Prop :=
  ∀ lexeme ∈ ofText offset (left ++ right), ¬ lexeme.Crosses (offset + byteLength left)

instance (offset : Nat) (left right : List Char) : Decidable (Uncrossed offset left right) :=
  inferInstanceAs (Decidable (∀ _ ∈ _, _))

theorem ofText_run {offset : Nat} {run : List Char}
    (free : ∀ left right, run = left ++ right → ¬ Tag.Leads right) :
    ofText offset run = ofRun run :=
  (reads_iff.1 (.run free)).symm

@[simp] theorem ofText_nil (offset : Nat) : ofText offset [] = [] := by
  apply ofText_run
  intro left right hsplit
  rw [(List.append_eq_nil_iff.1 hsplit.symm).2]
  exact Tag.not_leads_nil

/-- A text that is read without a tag across the seam is read as the two texts it is made of. -/
theorem Reads.seam {offset : Nat} {text : List Char} {lexemes : List Lexeme} :
    Reads offset text lexemes → ∀ {left right : List Char}, text = left ++ right →
      (∀ lexeme ∈ lexemes, ¬ lexeme.Crosses (offset + byteLength left)) →
      lexemes = join (ofText offset left) (ofText (offset + byteLength left) right) := by
  intro h
  induction h with
  | run free =>
      rename_i offset run
      rintro left right rfl _
      have hleft : ofText offset left = ofRun left := by
        apply ofText_run
        intro before behind hsplit hlead
        exact free before (behind ++ right) (by simp [hsplit]) (hlead.append right)
      have hright : ofText (offset + byteLength left) right = ofRun right := by
        apply ofText_run
        intro before behind hsplit
        exact free (left ++ before) behind (by simp [hsplit])
      calc
        ofRun (left ++ right)
            = join (ofRun left) (ofRun right) := (join_ofRun left right).symm
        _ = join (ofText offset left) (ofText (offset + byteLength left) right) := by
              rw [hleft, hright]
  | tag valid leftmost rest ih =>
      rename_i offset before behind tag lexemes
      intro left right hsame huncrossed
      have hhere : ¬ (Lexeme.tag tag (offset + byteLength before)).Crosses
          (offset + byteLength left) := by
        apply huncrossed
        simp
      rcases Nat.lt_or_ge (offset + byteLength before) (offset + byteLength left) with
        hinside | hbeyond
      · -- The leftmost tag lies in the first text.
        have hends := Nat.le_of_not_lt fun hends => hhere ⟨hinside, hends⟩
        have hle : byteLength (before ++ tag.written) ≤ byteLength left := by
          rw [byteLength_append]
          omega
        rcases Text.exists_of_byteLength_le hsame hle with ⟨more, rfl, rfl⟩
        have hleft : ofText offset (before ++ tag.written ++ more) =
            ofRun before ++ .tag tag (offset + byteLength before) ::
              ofText (offset + byteLength before + byteLength tag.written) more := by
          apply ofText_append offset valid
          intro front back hsplit hne hlead
          exact leftmost front back hsplit hne (by simpa using hlead.append right)
        have hend : offset + byteLength before + byteLength tag.written + byteLength more =
            offset + byteLength (before ++ tag.written ++ more) := by
          simp only [byteLength_append]
          omega
        have hrest := ih rfl fun lexeme hmem => by
          rw [hend]
          exact huncrossed lexeme (by simp [hmem])
        rw [hend] at hrest
        calc
          ofRun before ++ .tag tag (offset + byteLength before) :: lexemes
              = ofRun before ++ .tag tag (offset + byteLength before) ::
                  join (ofText (offset + byteLength before + byteLength tag.written) more)
                    (ofText (offset + byteLength (before ++ tag.written ++ more)) right) := by
                rw [hrest]
          _ = join (ofText offset (before ++ tag.written ++ more))
                (ofText (offset + byteLength (before ++ tag.written ++ more)) right) := by
                rw [hleft, join_append_tag]
      · -- The first text has no tag, and its run meets the one in front of the leftmost tag.
        have hle : byteLength left ≤ byteLength before := by
          omega
        rw [List.append_assoc] at hsame
        rcases Text.exists_of_byteLength_le hsame.symm hle with ⟨more, rfl, rfl⟩
        have hleft : ofText offset left = ofRun left := by
          apply ofText_run
          intro front back hsplit hlead
          have hne : back ≠ [] := by
            rintro rfl
            exact Tag.not_leads_nil hlead
          have hfree := leftmost front (back ++ more) (by simp [hsplit]) (by simp [hne])
          exact hfree (by simpa using hlead.append (more ++ (tag.written ++ behind)))
        have hright : ofText (offset + byteLength left) (more ++ tag.written ++ behind) =
            ofRun more ++ .tag tag (offset + byteLength left + byteLength more) ::
              ofText (offset + byteLength left + byteLength more + byteLength tag.written)
                behind := by
          apply ofText_append _ valid
          intro front back hsplit hne
          exact leftmost (left ++ front) back (by simp [hsplit]) hne
        calc
          ofRun (left ++ more) ++ .tag tag (offset + byteLength (left ++ more)) :: lexemes
              = ofRun (left ++ more) ++ .tag tag (offset + byteLength left + byteLength more) ::
                  ofText (offset + byteLength left + byteLength more + byteLength tag.written)
                    behind := by
                simp only [reads_iff.1 rest, byteLength_append, Nat.add_assoc]
          _ = join (ofRun left) (ofText (offset + byteLength left)
                (more ++ tag.written ++ behind)) := by
                rw [hright, join_ofRun_append]
          _ = join (ofText offset left) (ofText (offset + byteLength left)
                (more ++ (tag.written ++ behind))) := by
                rw [hleft, List.append_assoc]

/-- The lexemes of two texts are joined where no tag crosses the seam. -/
theorem ofText_seam {offset : Nat} {left right : List Char} :
    Uncrossed offset left right →
      ofText offset (left ++ right) =
        join (ofText offset left) (ofText (offset + byteLength left) right) := by
  intro h
  exact (reads_ofText offset (left ++ right)).seam rfl h

/-- A tag is read behind a seam that no tag crosses. -/
theorem ofText_append_tag {offset : Nat} {left behind : List Char} {tag : Tag}
    (valid : tag.Valid) :
    Uncrossed offset left (tag.written ++ behind) →
      ofText offset (left ++ (tag.written ++ behind)) =
        ofText offset left ++ .tag tag (offset + byteLength left) ::
          ofText (offset + byteLength left + byteLength tag.written) behind := by
  intro h
  calc
    ofText offset (left ++ (tag.written ++ behind))
        = join (ofText offset left) (ofText (offset + byteLength left) (tag.written ++ behind)) :=
          ofText_seam h
    _ = join (ofText offset left) (.tag tag (offset + byteLength left) ::
          ofText (offset + byteLength left + byteLength tag.written) behind) := by
          rw [ofText_tag_append valid]
    _ = ofText offset left ++ .tag tag (offset + byteLength left) ::
          ofText (offset + byteLength left + byteLength tag.written) behind :=
          join_tag_right _ _ _ _

theorem mem_join_left {left right : List Lexeme} {tag : Tag} {offset : Nat} :
    .tag tag offset ∈ left → .tag tag offset ∈ join left right := by
  intro h
  rcases List.append_of_mem h with ⟨front, back, rfl⟩
  simp [join_append_tag]

/-- A seam stays uncrossed when the end of the text is cut off where no tag is. -/
theorem Uncrossed.cut {offset : Nat} {left middle right : List Char} :
    Uncrossed offset left (middle ++ right) → Uncrossed offset (left ++ middle) right →
      Uncrossed offset left middle := by
  intro hfirst hsecond lexeme hmem
  cases lexeme with
  | literal run =>
      exact id
  | tag found start =>
      apply hfirst
      have hjoined := ofText_seam hsecond
      rw [List.append_assoc] at hjoined
      rw [hjoined]
      exact mem_join_left hmem

/-! ## Moved lexemes -/

/-- A lexeme of a text that starts further to the right. -/
def move (distance : Nat) : Lexeme → Lexeme
  | literal run => literal run
  | tag found offset => tag found (offset + distance)

theorem place_move (offset distance : Nat) (parts : List (Piece Tag)) :
    place (offset + distance) parts = (place offset parts).map (move distance) := by
  induction parts generalizing offset with
  | nil =>
      rfl
  | cons piece parts ih =>
      cases piece <;> simp [place, move, ← ih, Nat.add_right_comm]

/-- Where a text starts moves its tags and changes nothing else. -/
theorem ofText_move (offset distance : Nat) (text : List Char) :
    ofText (offset + distance) text = (ofText offset text).map (move distance) :=
  place_move offset distance (Mark.pieces text)

end Lexeme
end Stencil
