import Stencil.Proofs.LooseOrder
import Stencil.Proofs.Parts
import Stencil.Proofs.Rightmost
import Stencil.Proofs.RoundTrip

/-!
# Own texts — a number is equal to the text it is written as

The text of a number holds no relation symbol and no brace, so it can stand on the right of a
comparison in a tag.  There it counts as the number it is read back as.

* `Number.plain_toText` — so a comparison is split in front of it;
* `Number.equals_toText` — a number equals what its text counts as, unless it is not-a-number;
* `Number.toText_reads_back` — so a block under that condition shows its first part.
-/

namespace Stencil

/-! ## The text of a number -/

namespace Number

open Decimal (IsMark)

/-- Zeros, infinities and not-a-number are written as one of four words. -/
theorem toText_cases (number : Number) :
    (∃ numeral, number.toText = String.ofList numeral ∧ numeral ≠ [] ∧ ∀ c ∈ numeral, IsMark c) ∨
      number.toText ∈ ["NaN", "Infinity", "-Infinity", "0"] := by
  cases number with
  | nan =>
      exact .inr (by simp [toText])
  | infinite negative =>
      exact .inr (by cases negative <;> simp [toText])
  | finite negative units representable =>
      by_cases hunits : units = 0
      · exact .inr (by simp [toText, hunits])
      · rcases exists_numeral negative representable hunits with
          ⟨numeral, htext, hne, hmarks, _⟩
        exact .inl ⟨numeral, htext, hne, hmarks⟩

theorem toText_ne_empty (number : Number) : number.toText ≠ "" := by
  rcases toText_cases number with ⟨numeral, htext, hne, _⟩ | hword
  · simpa [htext] using hne
  · intro hempty
    rw [hempty] at hword
    exact absurd hword (by decide)

/-- The text of a number can stand on the right of a comparison in a tag. -/
theorem plain_toText {number : Number} {c : Char} :
    c ∈ number.toText.toList → Condition.Plain c ∧ c ≠ '}' := by
  intro hmem
  rcases toText_cases number with ⟨numeral, htext, _, hmarks⟩ | hword
  · have hcode := toNat_of_isMark (hmarks c (by simpa [htext] using hmem))
    refine ⟨⟨?_, ?_, ?_, ?_⟩, ?_⟩
    all_goals
      rintro rfl
      revert hcode
      decide
  · have hwords : ["NaN", "Infinity", "-Infinity", "0"].all fun word =>
        word.toList.all fun d => decide (Condition.Plain d ∧ d ≠ '}') := by
      decide +kernel
    have hword := List.all_eq_true.1 hwords _ hword
    exact of_decide_eq_true (List.all_eq_true.1 hword c hmem)

/-- A number equals what its text counts as, unless it is not-a-number. -/
theorem equals_toText (number : Number) :
    (ofText number.toText).equals number = !number.isNan ∧
      number.equals (ofText number.toText) = !number.isNan := by
  rw [ofText_toText]
  by_cases hzero : number = zero true
  · subst hzero
    decide
  · simp [hzero, equals_self]

end Number

/-! ## Blocks that compare a number with its text -/

namespace Grammar

/-- A text without braces derives a tree that is rendered as the text. -/
theorem derives_ofRun (run : List Char) :
    ∃ tree, Derives (Lexeme.ofRun run) tree ∧
      ∀ context, Node.renderAll (some context) tree = String.ofList run := by
  by_cases hrun : run = []
  · refine ⟨[], ?_, fun context => by simp [hrun]⟩
    simpa [Lexeme.ofRun, hrun] using Derives.nil
  · refine ⟨[.literal (String.ofList run)], ?_, fun context => by simp [Node.render]⟩
    simpa [Lexeme.ofRun, hrun] using Derives.literal .nil

end Grammar

namespace Lexeme

/-- Up to a tag, a text without braces is one run. -/
theorem ofText_plain_append (offset : Nat) {run : List Char} {tag : Tag} (behind : List Char)
    (valid : tag.Valid) (plain : '{' ∉ run) :
    ∃ place start, ofText offset (run ++ (tag.written ++ behind)) =
      ofRun run ++ .tag tag place :: ofText start behind := by
  have hleftmost : ∀ left right, run = left ++ right → right ≠ [] →
      ¬ Tag.Leads (right ++ tag.written ++ behind) := by
    rintro left right hsplit hne ⟨other, _, hlead⟩
    rcases List.exists_cons_of_ne_nil hne with ⟨c, right, rfl⟩
    rcases other.head_written with ⟨word, hword⟩
    rw [hword, List.append_assoc, List.cons_append, List.cons_prefix_cons] at hlead
    rw [hsplit, ← hlead.1] at plain
    simp at plain
  have hread := ofText_append offset valid hleftmost
  exact ⟨_, _, by simpa using hread⟩

end Lexeme

namespace Template

/-- A block under a condition between two texts without braces. -/
theorem parse_plain_choice {condition left right : String} :
    Argument.Valid condition.toList → '{' ∉ left.toList → '{' ∉ right.toList →
      ∃ template,
        parse ((Tag.test condition).toText ++ left ++ Tag.otherwise.toText ++ right ++
          Tag.close.toText) = .ok template ∧
        ∀ context, template.render (some context) =
          if (Condition.ofText condition).holds context then left else right := by
  intro hcondition hleft hright
  have hvalid : (Tag.test condition).Valid := hcondition
  rcases Grammar.derives_ofRun left.toList with ⟨first, hfirst, hrenderFirst⟩
  rcases Grammar.derives_ofRun right.toList with ⟨second, hsecond, hrenderSecond⟩
  have hwhole : (Tag.test condition).toText ++ left ++ Tag.otherwise.toText ++ right ++
      Tag.close.toText = (Tag.test condition).toText ++
        (left ++ Tag.otherwise.toText ++ right ++ Tag.close.toText) := by
    simp only [String.append_assoc]
  have hcontents : (left ++ Tag.otherwise.toText ++ right ++ Tag.close.toText).toList =
      left.toList ++ (Tag.otherwise.written ++ (right.toList ++ (Tag.close.written ++ []))) := by
    simp
  rcases @ofText_tag_before (left ++ Tag.otherwise.toText ++ right ++ Tag.close.toText) _ hvalid
    with ⟨start, hopening⟩
  rcases Lexeme.ofText_plain_append start (right.toList ++ (Tag.close.written ++ []))
    Tag.valid_otherwise hleft with ⟨divided, between, hdivided⟩
  rcases Lexeme.ofText_plain_append between [] Tag.valid_close hright with ⟨close, last, hclose⟩
  have hlexemes : Lexeme.ofText 0 ((Tag.test condition).toText ++ left ++ Tag.otherwise.toText ++
      right ++ Tag.close.toText).toList =
        .tag (.test condition) 0 ::
          ((Lexeme.ofRun left.toList ++ .tag .otherwise divided :: Lexeme.ofRun right.toList) ++
            .tag .close close :: []) := by
    rw [hwhole, hopening, hcontents, hdivided, hclose]
    simp
  have hderives : Grammar.Derives (.tag (.test condition) 0 ::
      ((Lexeme.ofRun left.toList ++ .tag .otherwise divided :: Lexeme.ofRun right.toList) ++
        .tag .close close :: [])) [.choice (Condition.ofText condition) first second] :=
    .choice hfirst hsecond .nil
  refine ⟨_, parse_of_derives (hlexemes ▸ hderives), fun context => ?_⟩
  simp [render, Node.render, hrenderFirst, hrenderSecond]

end Template

namespace Number

/-- A number is read back from its text as an equal one, and a tag that compares the two finds them
equal, unless it is not-a-number. -/
theorem toText_reads_back (number : Number) :
    (ofText number.toText = number ∨ number = zero true ∧ ofText number.toText = zero false) ∧
      (ofText number.toText).equals number = !number.isNan ∧
      (ofText number.toText).isNan = number.isNan ∧
      ∀ (key left right : String) (context : Context), Argument.Valid key.toList →
        '{' ∉ left.toList → '{' ∉ right.toList →
        context.get? key = some (.number number) →
        context.get? (Value.number number).toText = none →
        ∃ template,
          Template.parse ((Tag.test (key ++ "==" ++ (Value.number number).toText)).toText ++ left ++
            Tag.otherwise.toText ++ right ++ Tag.close.toText) = .ok template ∧
          template.render (some context) = if number.isNan then right else left := by
  refine ⟨?_, (equals_toText number).1, ?_, ?_⟩
  · rw [ofText_toText]
    by_cases hzero : number = zero true <;> simp [hzero]
  · rw [ofText_toText]
    by_cases hzero : number = zero true
    · rw [hzero]
      rfl
    · rw [if_neg hzero]
  · intro key left right context hkey hleft hright hnumber htext
    have hsame : (Value.number number).toText = number.toText := by
      simp [Value.toText]
    rw [hsame] at htext ⊢
    have hcondition : Argument.Valid (key ++ "==" ++ number.toText).toList := by
      refine ⟨by simp, ?_⟩
      simp only [String.toList_append, List.mem_append, not_or]
      exact ⟨⟨hkey.2, by decide⟩, fun hmem => (plain_toText hmem).2 rfl⟩
    have hsplit : Condition.ofText (key ++ "==" ++ number.toText) =
        .compare key .equal number.toText := by
      refine Condition.ofText_append .equal ?_ (toText_ne_empty number)
        fun c hmem => (plain_toText hmem).1
      rintro rfl
      exact hkey.1 rfl
    have hholds : (Condition.ofText (key ++ "==" ++ number.toText)).holds context =
        !number.isNan := by
      rw [hsplit, Condition.holds, Operand.ofSide, Operand.ofSide, hnumber, htext]
      exact (equals_toText number).2
    rcases Template.parse_plain_choice hcondition hleft hright with ⟨template, hparse, hrender⟩
    refine ⟨template, hparse, ?_⟩
    rw [hrender, hholds]
    cases number.isNan <;> rfl

theorem toText_reads_back_exponent :
    let number := ofDecimal .double ⟨true, 25, -8⟩
    let context : Context := Dict.ofList [("a==b", .number number)]
    Argument.Valid "a==b".toList ∧ '{' ∉ "T".toList ∧ '{' ∉ "F".toList ∧
      context.get? "a==b" = some (.number number) ∧
      context.get? (Value.number number).toText = none ∧
      number.toText = "-2.5e-7" ∧ ofText "-2.5e-7" = number ∧
      ∃ template,
        Template.parse ((Tag.test "a==b==-2.5e-7").toText ++ "T" ++ Tag.otherwise.toText ++ "F" ++
          Tag.close.toText) = .ok template ∧
        template.render (some context) = "T" := by
  intro number context
  have htext : number.toText = "-2.5e-7" := by
    subst number
    decide +kernel
  have hsame : (Value.number number).toText = "-2.5e-7" := by
    simp [Value.toText, htext]
  have hcondition : "a==b==-2.5e-7" = "a==b" ++ "==" ++ (Value.number number).toText := by
    rw [hsame]
    rfl
  have hkey : Argument.Valid "a==b".toList := by decide
  have hleft : '{' ∉ "T".toList := by decide
  have hright : '{' ∉ "F".toList := by decide
  have hnumber : context.get? "a==b" = some (.number number) := rfl
  have hnone : context.get? (Value.number number).toText = none := by
    rw [hsame]
    rfl
  have hfinite : number.isNan = false := by
    subst number
    decide +kernel
  have hnonzero : number ≠ zero true := by
    intro h
    rw [h] at htext
    exact absurd htext (by decide)
  rcases toText_reads_back number with ⟨hread, _, _, hblock⟩
  rcases hblock "a==b" "T" "F" context hkey hleft hright hnumber hnone with
    ⟨template, hparse, hrender⟩
  rw [htext] at hread
  refine ⟨hkey, hleft, hright, hnumber, hnone, htext, ?_, template, ?_, ?_⟩
  · exact hread.resolve_right fun hzero => hnonzero hzero.1
  · rw [hcondition]
    exact hparse
  · rw [hrender, hfinite]
    rfl

end Number
end Stencil
