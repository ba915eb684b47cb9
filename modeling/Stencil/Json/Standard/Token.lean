import Stencil.Json.Standard.Quoted
import Stencil.Json.Tree
import Stencil.Text.Lead

/-!
# JSON tokens — punctuation, strings, numbers and words

* `Token.next?` — the token at the head of a text that does not start with a blank;
* `Token.ofText?` — all tokens of a text, blanks between them left out.
-/

namespace Stencil
namespace Json

/-- A token of a document. -/
inductive Token where
  | openObject
  | closeObject
  | openArray
  | closeArray
  | colon
  | comma
  | string (text : Option String)
  /-- A word or a number. -/
  | scalar (value : Tree)

namespace Token

/-- The blanks between tokens. -/
def isBlank (c : Char) : Bool := c = ' ' || c = '\n' || c = '\t' || c = '\r'

/-! ## Numbers -/

/-- The digits behind a decimal point, if the text starts with one, and the text behind them.  A
point without digits is an error. -/
def fraction? : List Char → Option (Option (List Char) × List Char)
  | '.' :: text =>
      if Digits.leading text = [] then none
      else some (some (Digits.leading text), Digits.behind text)
  | text => some (none, text)

/-- The exponent, if the text starts with one, and the text behind it; an `e` without digits is an
error. -/
def exponent? : List Char → Option (Option Int × List Char)
  | [] => some (none, [])
  | letter :: text =>
      if letter = 'e' ∨ letter = 'E' then
        let (negative, digits) := Decimal.splitSign text
        if Digits.leading digits = [] then
          none
        else
          some (some (Number.signed negative (Digits.toNat 10 (Digits.leading digits))),
            Digits.behind digits)
      else
        some (none, letter :: text)

/-- The number with the given digits, which is an integer if it has neither a fraction nor an
exponent.  Zeros at the end of a fraction are dropped. -/
def numberOf (negative : Bool) (whole : List Char) : Option (List Char) → Option Int → Tree
  | none, none => .integer negative (Digits.toNat 10 whole)
  | fraction, exponent =>
      .decimal <|
        .ofDigits negative whole (Digits.dropFinalZeros (fraction.getD [])) (exponent.getD 0)

/-- Whether the text starts with a minus sign, and the text without it. -/
def splitMinus : List Char → Bool × List Char
  | '-' :: text => (true, text)
  | text => (false, text)

/-- The number at the head of a text.  Its digits before the point are none or do not start with
zero, unless they are zero alone. -/
def number? (text : List Char) : Option (Tree × List Char) := do
  let (negative, unsigned) := splitMinus text
  let whole := Digits.leading unsigned
  if whole = [] ∨ whole.head? = some '0' ∧ whole ≠ ['0'] then
    none
  else
    let (fraction, rest) ← fraction? (Digits.behind unsigned)
    let (exponent, rest) ← exponent? rest
    return (numberOf negative whole fraction exponent, rest)

/-! ## Tokens -/

/-- The words of the notation. -/
def words : List (String × Tree) := [("null", .null), ("true", .bool true), ("false", .bool false)]

/-- The word at the head of a text. -/
def word? (text : List Char) : Option (Tree × List Char) :=
  words.findSome? fun (word, value) =>
    (Text.behind? word.toList text).map fun rest => (value, rest)

/-- The token at the head of a text, and the text behind it. -/
def next? : List Char → Option (Token × List Char)
  | [] => none
  | '{' :: text => some (openObject, text)
  | '}' :: text => some (closeObject, text)
  | '[' :: text => some (openArray, text)
  | ']' :: text => some (closeArray, text)
  | ':' :: text => some (colon, text)
  | ',' :: text => some (comma, text)
  | '"' :: text => (Quoted.read? text).map fun read => (string (Quoted.toText? read.parts), read.rest)
  | text => ((word? text).or (number? text)).map fun (value, rest) => (scalar value, rest)

/-! ## Every token takes something from the text -/

theorem length_behind_le (text : List Char) : (Digits.behind text).length ≤ text.length :=
  (List.dropWhile_suffix _).length_le

theorem length_behind_lt {text : List Char} (h : Digits.leading text ≠ []) :
    (Digits.behind text).length < text.length := by
  have whole := congrArg List.length <|
    List.takeWhile_append_dropWhile (p := Char.isDigit) (l := text)
  have positive := List.length_pos_iff.2 h
  simp only [List.length_append] at whole
  simp only [Digits.leading, Digits.behind] at *
  omega

theorem length_splitSign_le (text : List Char) :
    (Decimal.splitSign text).2.length ≤ text.length := by
  unfold Decimal.splitSign
  split <;> simp

theorem length_fraction?_le {text rest : List Char} {fraction : Option (List Char)}
    (h : fraction? text = some (fraction, rest)) : rest.length ≤ text.length := by
  unfold fraction? at h
  split at h
  · split at h
    · cases h
    · cases h
      exact Nat.le_succ_of_le (length_behind_le _)
  · cases h
    exact Nat.le_refl _

theorem length_exponent?_le {text rest : List Char} {exponent : Option Int}
    (h : exponent? text = some (exponent, rest)) : rest.length ≤ text.length := by
  unfold exponent? at h
  split at h
  · cases h; exact Nat.le_refl _
  · split at h
    · simp only at h
      split at h
      · cases h
      · cases h
        exact Nat.le_trans (length_behind_le _) (Nat.le_succ_of_le (length_splitSign_le _))
    · cases h; exact Nat.le_refl _

theorem length_number?_lt {text rest : List Char} {value : Tree}
    (h : number? text = some (value, rest)) : rest.length < text.length := by
  simp only [number?] at h
  split at h
  · cases h
  · rename_i whole
    obtain ⟨⟨fraction, behind⟩, first, h⟩ := Option.bind_eq_some_iff.1 h
    obtain ⟨⟨exponent, last⟩, second, h⟩ := Option.bind_eq_some_iff.1 h
    cases h
    have : behind.length ≤ _ := length_fraction?_le first
    have : last.length ≤ behind.length := length_exponent?_le second
    have := length_behind_lt (fun empty => whole (.inl empty))
    have : (splitMinus text).2.length ≤ text.length := by unfold splitMinus; split <;> simp
    show last.length < text.length
    omega

theorem length_word?_lt {text rest : List Char} {value : Tree}
    (h : word? text = some (value, rest)) : rest.length < text.length := by
  obtain ⟨⟨word, value⟩, known, hit⟩ := List.exists_of_findSome?_eq_some h
  obtain ⟨behind, found, same⟩ := Option.map_eq_some_iff.1 hit
  cases same
  rw [Text.behind?_eq_some_iff.1 found]
  simp only [words, List.mem_cons, List.not_mem_nil, Prod.mk.injEq, or_false] at known
  rcases known with ⟨rfl, -⟩ | ⟨rfl, -⟩ | ⟨rfl, -⟩ <;> simp <;> omega

theorem length_next?_lt {text rest : List Char} {token : Token}
    (h : next? text = some (token, rest)) : rest.length < text.length := by
  unfold next? at h
  split at h
  · cases h
  all_goals try (cases h; simp)
  · obtain ⟨read, found, same⟩ := Option.map_eq_some_iff.1 h
    cases same
    exact Nat.lt_succ_of_lt (Quoted.length_rest_lt found)
  · obtain ⟨⟨value, behind⟩, found, same⟩ := Option.map_eq_some_iff.1 h
    cases same
    rcases Option.or_eq_some_iff.1 found with found | ⟨_, found⟩
    · exact length_word?_lt found
    · exact length_number?_lt found

/-- The tokens of a text. -/
def ofText? (text : List Char) : Option (List Token) :=
  match text with
  | [] => some []
  | c :: text =>
      if isBlank c then
        ofText? text
      else
        match _found : next? (c :: text) with
        | none => none
        | some (token, rest) => (ofText? rest).map (token :: ·)
termination_by text.length
decreasing_by
  · simp
  · exact length_next?_lt _found

end Token
end Json
end Stencil
