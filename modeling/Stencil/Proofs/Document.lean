import Stencil.Json.Standard.Reader
import Stencil.Json.Standard.Writer
import Stencil.Proofs.Numeral
import Stencil.Proofs.Quotation

/-!
# Documents — a written document is read as what was written

A document is written without blanks.  It is cut into tokens where it was put together, and the reader
makes of the tokens of a tree that tree again.

* `Token.number?_numeral` — a numeral is read as a number, with the zeros at the end of its fraction
  dropped;
* `Tree.tokens`, `Reader.run_tokens` — the tokens of a tree, and that they are read as the tree;
* `Standard.Yields` — a written tree is cut into the tokens of another one, with a lemma for every
  kind of tree;
* `Standard.yields_iff` — so its document is read as that tree, and every document that is written for
  a tree is read as some tree.
-/

namespace Stencil

namespace Json

/-! ## Numbers -/

namespace Token

open Decimal (Spells Tail pointed)

/-- What may stand behind a value in a document without blanks. -/
def Closes (rest : List Char) : Prop :=
  ∀ c ∈ rest.head?, c = ',' ∨ c = ']' ∨ c = '}'

theorem closes_nil : Closes [] := by
  simp [Closes]

theorem Closes.not_digit {rest : List Char} : Closes rest → ∀ c ∈ rest.head?, ¬ c.isDigit := by
  intro h c hmem
  rcases h c hmem with rfl | rfl | rfl <;> decide

/-- Behind the digits of a numeral no further digit follows. -/
theorem not_digit_tail {tail rest : List Char} {exponent : Int} :
    Tail tail exponent → Closes rest → ∀ c ∈ (tail ++ rest).head?, ¬ c.isDigit := by
  intro htail hcloses
  rcases htail.head with rfl | ⟨more, rfl⟩
  · simpa using hcloses.not_digit
  · simp

theorem fraction?_pointed {fraction tail rest : List Char} {exponent : Int} :
    (∀ c ∈ fraction, c.isDigit) → Tail tail exponent → Closes rest →
      fraction? (pointed fraction ++ (tail ++ rest)) =
        some (if fraction = [] then none else some fraction, tail ++ rest) := by
  intro hfraction htail hcloses
  have hbehind := not_digit_tail htail hcloses
  cases fraction with
  | nil =>
      have hpoint : ∀ text, tail ++ rest ≠ '.' :: text := by
        intro text hsame
        rcases htail.head with rfl | ⟨more, rfl⟩
        · have := hcloses '.' (by simp_all)
          simp at this
        · cases hsame
      simp only [pointed, List.nil_append]
      rw [fraction?]
      · rfl
      · exact hpoint
  | cons c fraction =>
      have hread := Digits.leading_append hfraction hbehind
      simp only [pointed, List.cons_append] at hread ⊢
      simp [fraction?, hread.1, hread.2]

theorem exponent?_tail {tail rest : List Char} {exponent : Int} :
    Tail tail exponent → Closes rest →
      exponent? (tail ++ rest) = some (if tail = [] then none else some exponent, rest) := by
  intro htail hcloses
  cases htail with
  | none =>
      cases rest with
      | nil => rfl
      | cons c rest =>
          have hc : ¬ (c = 'e' ∨ c = 'E') := by
            rcases hcloses c (by simp) with rfl | rfl | rfl <;> decide
          simp [exponent?, hc]
  | exponent negative hne hdigits =>
      have hread := Digits.leading_append hdigits hcloses.not_digit
      cases negative <;> simp [exponent?, Decimal.splitSign, hread.1, hread.2, hne]

/-- A numeral is read up to what closes it. -/
theorem number?_numeral {whole fraction tail rest : List Char} {exponent : Int} (negative : Bool)
    (nonempty : whole ≠ []) (isDigit : ∀ c ∈ whole, c.isDigit)
    (leading : whole = ['0'] ∨ whole.head? ≠ some '0') (fractionDigits : ∀ c ∈ fraction, c.isDigit)
    (isTail : Tail tail exponent) (closes : Closes rest) :
    number? ((if negative then ['-'] else []) ++ (whole ++ (pointed fraction ++ tail)) ++ rest) =
      some (numberOf negative whole (if fraction = [] then none else some fraction)
        (if tail = [] then none else some exponent), rest) := by
  have hbehind : ∀ c ∈ (pointed fraction ++ (tail ++ rest)).head?, ¬ c.isDigit := by
    cases fraction with
    | nil => simpa [pointed] using not_digit_tail isTail closes
    | cons c fraction => simp [pointed]
  have hread := Digits.leading_append isDigit hbehind
  have hsign : splitMinus ((if negative then ['-'] else []) ++
      (whole ++ (pointed fraction ++ (tail ++ rest)))) =
        (negative, whole ++ (pointed fraction ++ (tail ++ rest))) := by
    cases negative with
    | true => rfl
    | false =>
        rcases List.exists_cons_of_ne_nil nonempty with ⟨c, more, rfl⟩
        have hc : c ≠ '-' := by
          rintro rfl
          simpa using isDigit '-' (by simp)
        simp [splitMinus, hc]
  have hzero : ¬ (whole = [] ∨ whole.head? = some '0' ∧ whole ≠ ['0']) := by
    rcases leading with rfl | hhead
    · simp
    · simp [nonempty, hhead]
  simp only [List.append_assoc, number?, hsign, hread.1, hread.2, if_neg hzero,
    fraction?_pointed fractionDigits isTail closes, exponent?_tail isTail closes,
    Option.bind_eq_bind, Option.bind_some, Option.pure_def]

/-- A numeral with a fraction or an exponent is read as what it spells, but without the zeros at the
end of its fraction. -/
theorem number?_of_spells {text whole fraction rest : List Char} {exponent : Int} (negative : Bool)
    (spells : Spells text whole fraction exponent) (broken : fraction ≠ [] ∨ exponent ≠ 0)
    (leading : whole = ['0'] ∨ whole.head? ≠ some '0') (closes : Closes rest) :
    number? ((if negative then '-' :: text else text) ++ rest) =
      some (.decimal (.ofDigits negative whole (Digits.dropFinalZeros fraction) exponent), rest) := by
  rcases spells with ⟨hne, hwhole, hfraction, tail, htail, rfl⟩
  have hsign : (if negative then '-' :: (whole ++ (pointed fraction ++ tail))
      else whole ++ (pointed fraction ++ tail)) =
        (if negative then ['-'] else []) ++ (whole ++ (pointed fraction ++ tail)) := by
    cases negative <;> rfl
  rw [hsign, number?_numeral negative hne hwhole leading hfraction htail closes]
  congr 2
  -- Not both of the fraction and the exponent are missing.
  by_cases hnone : fraction = []
  · -- Without a fraction the exponent is shown, so the numeral is not read as an integer.
    have hshown : tail ≠ [] := by
      rintro rfl
      cases htail
      simp [hnone] at broken
    simp [hnone, hshown, numberOf]
  · by_cases hbare : tail = []
    · subst hbare
      cases htail
      simp [hnone, numberOf]
    · simp [hnone, hbare, numberOf]

/-- An integer is read from its sign and its digits. -/
theorem number?_integer {rest : List Char} (negative : Bool) (magnitude : Nat)
    (closes : Closes rest) :
    number? ((if negative then ['-'] else []) ++ Digits.ofNat magnitude ++ rest) =
      some (.integer negative magnitude, rest) := by
  have hread := number?_numeral negative (Digits.ofNat_ne_nil magnitude)
    (fun c => Digits.isDigit_of_mem_ofNat) (Digits.leading_ofNat magnitude) (List.forall_mem_nil _)
    .none closes
  simpa [pointed, numberOf, Digits.toNat_ofNat] using hread

/-! ## Tokens -/

theorem word?_eq_none {c : Char} (text : List Char) :
    c = '-' ∨ c.isDigit → word? (c :: text) = none := by
  intro h
  have hn : c ≠ 'n' := by rintro rfl; simp at h
  have ht : c ≠ 't' := by rintro rfl; simp at h
  have hf : c ≠ 'f' := by rintro rfl; simp at h
  simp [word?, words, Text.behind?, hn.symm, ht.symm, hf.symm]

/-- A number that stands at the head of a text is its first token. -/
theorem next?_number {c : Char} {text rest : List Char} {value : Tree} :
    c = '-' ∨ c.isDigit → number? (c :: text) = some (value, rest) →
      next? (c :: text) = some (scalar value, rest) := by
  intro hc hnumber
  have hword := word?_eq_none text hc
  unfold next?
  split <;> simp_all

/-- The token at the head of a text is cut off. -/
theorem ofText?_of_next? {c : Char} {text rest : List Char} {token : Token} :
    isBlank c = false → next? (c :: text) = some (token, rest) →
      ofText? (c :: text) = (ofText? rest).map (token :: ·) := by
  intro hblank hnext
  rw [ofText?, if_neg (by simp [hblank])]
  split
  · simp_all
  · rename_i found
    rw [hnext] at found
    cases found
    rfl

theorem ofText?_word {word : String} {value : Tree} (rest : List Char) :
    (word, value) ∈ words →
      ofText? (word.toList ++ rest) = (ofText? rest).map (scalar value :: ·) := by
  intro h
  simp only [words, List.mem_cons, List.not_mem_nil, or_false, Prod.mk.injEq] at h
  rcases h with ⟨rfl, rfl⟩ | ⟨rfl, rfl⟩ | ⟨rfl, rfl⟩
  all_goals exact ofText?_of_next? rfl rfl

theorem ofText?_string (text : Option String) (rest : List Char) :
    ofText? (Standard.writeString text ++ rest) = (ofText? rest).map (string text :: ·) := by
  have hwritten : Standard.writeString text ++ rest =
      '"' :: ((Quoted.ofText? text).flatMap Quoted.writePart ++ '"' :: rest) := by
    simp [Standard.writeString, Quoted.write]
  rw [hwritten]
  refine ofText?_of_next? rfl ?_
  rw [next?, Quoted.read?_write, Option.map_some, Quoted.toText?_reread]

theorem ofText?_number {text rest : List Char} {value : Tree} :
    (∀ c ∈ text.head?, c = '-' ∨ c.isDigit) → number? (text ++ rest) = some (value, rest) →
      ofText? (text ++ rest) = (ofText? rest).map (scalar value :: ·) := by
  intro hhead hnumber
  cases text with
  | nil =>
      have := length_number?_lt hnumber
      simp at this
  | cons c text =>
      have hc := hhead c (by simp)
      have hblank : isBlank c = false := by
        rcases hc with rfl | hdigit
        · rfl
        · simp only [isBlank, Bool.or_eq_false_iff, decide_eq_false_iff_not]
          refine ⟨⟨⟨?_, ?_⟩, ?_⟩, ?_⟩ <;> (rintro rfl; simp at hdigit)
      exact ofText?_of_next? hblank (next?_number hc hnumber)

end Token

/-! ## The tokens of a tree -/

namespace Tree

open Token (openArray closeArray openObject closeObject colon comma scalar)

mutual

/-- The tokens of a tree. -/
def tokens : Tree → List Token
  | null => [scalar null]
  | bool value => [scalar (bool value)]
  | integer negative magnitude => [scalar (integer negative magnitude)]
  | decimal value => [scalar (decimal value)]
  | string text => [.string text]
  | array [] => [openArray, closeArray]
  | array (item :: items) => openArray :: (tokens item ++ (itemTokens items ++ [closeArray]))
  | object [] => [openObject, closeObject]
  | object ((key, value) :: members) =>
      openObject :: .string key :: colon ::
        (tokens value ++ (memberTokens members ++ [closeObject]))

/-- The tokens of items behind the first one. -/
def itemTokens : List Tree → List Token
  | [] => []
  | item :: items => comma :: (tokens item ++ itemTokens items)

/-- The tokens of members behind the first one. -/
def memberTokens : List (Option String × Tree) → List Token
  | [] => []
  | (key, value) :: members =>
      comma :: .string key :: colon :: (tokens value ++ memberTokens members)

end

end Tree

namespace Reader

open Stencil.Json.Tree (tokens itemTokens memberTokens)

/-- Where an array without items could end, a tree is read as its first item. -/
theorem run_firstItem (tree : Tree) (stack : List Frame) (behind : List Token) :
    run .firstItem stack (tokens tree ++ behind) =
      run .value (.array [] :: stack) (tokens tree ++ behind) := by
  cases tree with
  | array items => cases items <;> simp [tokens, run]
  | object members => cases members <;> simp [tokens, run]
  | _ => simp [tokens, run]

mutual

/-- The tokens of a tree are read as the tree. -/
theorem run_tokens : ∀ (tree : Tree) (stack : List Frame) (behind : List Token),
    run .value stack (tokens tree ++ behind) = run (.behind tree) stack behind
  | .null, _, _ | .bool _, _, _ | .integer _ _, _, _ | .decimal _, _, _ | .string _, _, _
  | .array [], _, _ | .object [], _, _ => by simp [tokens, run]
  | .array (item :: items), stack, behind => by
      simp only [tokens, run, List.cons_append, List.append_assoc, List.nil_append]
      -- The array could also end here, so the first item is read from another state.
      rw [run_firstItem, run_tokens item, run_itemTokens items]
      rfl
  | .object ((key, value) :: members), stack, behind => by
      simp only [tokens, run, List.cons_append, List.append_assoc, List.nil_append]
      rw [run_tokens value, run_memberTokens members]
      rfl

/-- Behind the items that were read, further items are read up to the end of the array. -/
theorem run_itemTokens : ∀ (items done : List Tree) (last : Tree) (stack : List Frame)
    (behind : List Token),
    run (.behind last) (.array done :: stack) (itemTokens items ++ .closeArray :: behind) =
      run (.behind (.array ((last :: done).reverse ++ items))) stack behind
  | [], _, _, _, _ => by simp [itemTokens, run]
  | item :: items, done, last, stack, behind => by
      simp only [itemTokens, run, List.cons_append, List.append_assoc]
      rw [run_tokens item, run_itemTokens items]
      simp

/-- Behind the members that were read, further members are read up to the end of the object. -/
theorem run_memberTokens : ∀ (members done : List (Option String × Tree)) (key : Option String)
    (last : Tree) (stack : List Frame) (behind : List Token),
    run (.behind last) (.object done key :: stack)
        (memberTokens members ++ .closeObject :: behind) =
      run (.behind (.object (((key, last) :: done).reverse ++ members))) stack behind
  | [], _, _, _, _, _ => by simp [memberTokens, run]
  | (next, value) :: members, done, key, last, stack, behind => by
      simp only [memberTokens, run, List.cons_append, List.append_assoc]
      rw [run_tokens value, run_memberTokens members]
      simp

end

end Reader

/-! ## Written trees -/

namespace Standard

open Token (Closes ofText?)
open Tree (tokens itemTokens memberTokens)

/-- Where the document of the first tree was written, the tokens of the second one are read. -/
def Yields (source tree : Tree) : Prop :=
  ∀ rest, Closes rest → ofText? (write source ++ rest) = (ofText? rest).map (tree.tokens ++ ·)

/-- What is written for a tree alone is read as one. -/
theorem Yields.read? {source tree : Tree} :
    Yields source tree → read? (toText source) = some tree := by
  intro h
  have hnone : ofText? [] = some [] := by rw [Token.ofText?]
  have htokens := h [] Token.closes_nil
  rw [hnone, List.append_nil, Option.map_some, List.append_nil] at htokens
  have hrun := Reader.run_tokens tree [] []
  rw [List.append_nil] at hrun
  rw [Standard.read?, toText, String.toList_ofList, htokens, Option.bind_some, hrun]
  rfl

theorem yields_null : Yields .null .null :=
  fun rest _ => Token.ofText?_word rest (by simp [Token.words])

theorem yields_bool (value : Bool) : Yields (.bool value) (.bool value) := by
  intro rest _
  cases value
  all_goals exact Token.ofText?_word rest (by simp [Token.words])

theorem yields_string (text : Option String) : Yields (.string text) (.string text) :=
  fun rest _ => Token.ofText?_string text rest

theorem yields_integer (negative : Bool) (magnitude : Nat) :
    Yields (.integer negative magnitude) (.integer negative magnitude) := by
  intro rest hcloses
  rw [write]
  refine Token.ofText?_number (fun c hmem => ?_) (Token.number?_integer negative magnitude hcloses)
  cases negative with
  | true => exact .inl (by simpa using hmem.symm)
  | false =>
      have hdigit : c ∈ (Digits.ofNat magnitude).head? := by simpa using hmem
      exact .inr (Digits.isDigit_of_mem_ofNat (List.mem_of_mem_head? hdigit))

theorem closes_writeItems (items : List Tree) {rest : List Char} :
    Closes rest → Closes (writeItems items ++ rest) := by
  intro h
  cases items with
  | nil => exact h
  | cons item items => simp [writeItems, Closes]

theorem closes_writeMembers (members : List (Option String × Tree)) {rest : List Char} :
    Closes rest → Closes (writeMembers members ++ rest) := by
  intro h
  cases members with
  | nil => exact h
  | cons member members => simp [writeMembers, Closes]

theorem ofText?_writeItems {sources trees : List Tree} {rest : List Char} :
    List.Forall₂ Yields sources trees → Closes rest →
      ofText? (writeItems sources ++ rest) = (ofText? rest).map (itemTokens trees ++ ·) := by
  intro h hcloses
  induction h with
  | nil => simp [writeItems, itemTokens]
  | @cons source tree sources trees hsource _ ih =>
      have hcomma : ofText? (',' :: (write source ++ (writeItems sources ++ rest))) =
          (ofText? (write source ++ (writeItems sources ++ rest))).map (.comma :: ·) :=
        Token.ofText?_of_next? rfl rfl
      simp only [writeItems, itemTokens, List.cons_append, List.append_assoc]
      rw [hcomma, hsource _ (closes_writeItems sources hcloses), ih]
      simp [Option.map_map, Function.comp_def]

/-- An array is read as its items are. -/
theorem yields_array {sources trees : List Tree} :
    List.Forall₂ Yields sources trees → Yields (.array sources) (.array trees) := by
  intro h rest hcloses
  have hopen (text : List Char) : ofText? ('[' :: text) = (ofText? text).map (.openArray :: ·) :=
    Token.ofText?_of_next? rfl rfl
  have hclose : ofText? (']' :: rest) = (ofText? rest).map (.closeArray :: ·) :=
    Token.ofText?_of_next? rfl rfl
  have hend : Closes (']' :: rest) := by simp [Closes]
  cases h with
  | nil =>
      simp only [write, tokens, List.cons_append, List.nil_append]
      rw [hopen, hclose]
      simp [Option.map_map, Function.comp_def]
  | @cons source tree sources trees hsource hsources =>
      simp only [write, tokens, List.cons_append, List.append_assoc, List.nil_append]
      rw [hopen, hsource _ (closes_writeItems sources hend), ofText?_writeItems hsources hend, hclose]
      simp [Option.map_map, Function.comp_def]

/-- Members with the same keys, of which each is read where the other one was written. -/
def YieldsMember (source tree : Option String × Tree) : Prop :=
  source.1 = tree.1 ∧ Yields source.2 tree.2

theorem ofText?_writeMembers {sources trees : List (Option String × Tree)} {rest : List Char} :
    List.Forall₂ YieldsMember sources trees → Closes rest →
      ofText? (writeMembers sources ++ rest) = (ofText? rest).map (memberTokens trees ++ ·) := by
  intro h hcloses
  induction h with
  | nil => simp [writeMembers, memberTokens]
  | @cons source tree sources trees hmember _ ih =>
      rcases source with ⟨key, source⟩
      rcases tree with ⟨_, tree⟩
      rcases hmember with ⟨rfl, hsource⟩
      have hcomma (text : List Char) : ofText? (',' :: text) = (ofText? text).map (.comma :: ·) :=
        Token.ofText?_of_next? rfl rfl
      have hcolon (text : List Char) : ofText? (':' :: text) = (ofText? text).map (.colon :: ·) :=
        Token.ofText?_of_next? rfl rfl
      simp only [writeMembers, memberTokens, List.cons_append, List.append_assoc]
      rw [hcomma, Token.ofText?_string, hcolon, hsource _ (closes_writeMembers _ hcloses), ih]
      simp [Option.map_map, Function.comp_def]

/-- An object is read as its members are. -/
theorem yields_object {sources trees : List (Option String × Tree)} :
    List.Forall₂ YieldsMember sources trees → Yields (.object sources) (.object trees) := by
  intro h rest hcloses
  have hopen (text : List Char) : ofText? ('{' :: text) = (ofText? text).map (.openObject :: ·) :=
    Token.ofText?_of_next? rfl rfl
  have hcolon (text : List Char) : ofText? (':' :: text) = (ofText? text).map (.colon :: ·) :=
    Token.ofText?_of_next? rfl rfl
  have hclose : ofText? ('}' :: rest) = (ofText? rest).map (.closeObject :: ·) :=
    Token.ofText?_of_next? rfl rfl
  have hend : Closes ('}' :: rest) := by simp [Closes]
  cases h with
  | nil =>
      simp only [write, tokens, List.cons_append, List.nil_append]
      rw [hopen, hclose]
      simp [Option.map_map, Function.comp_def]
  | @cons source tree sources trees hmember hmembers =>
      rcases source with ⟨key, source⟩
      rcases tree with ⟨_, tree⟩
      rcases hmember with ⟨rfl, hsource⟩
      simp only [write, tokens, List.cons_append, List.append_assoc, List.nil_append]
      rw [hopen, Token.ofText?_string, hcolon, hsource _ (closes_writeMembers _ hend),
        ofText?_writeMembers hmembers hend, hclose]
      simp [Option.map_map, Function.comp_def]

/-! ## Written decimals -/

open Decimal (Spells)

/-- A numeral with a fraction or an exponent is read as a decimal. -/
theorem yields_of_spells {decimal : Decimal} {text whole fraction : List Char} {exponent : Int}
    {negative : Bool} (written : writeDecimal decimal = if negative then '-' :: text else text)
    (spells : Spells text whole fraction exponent) (broken : fraction ≠ [] ∨ exponent ≠ 0)
    (leading : whole = ['0'] ∨ whole.head? ≠ some '0') :
    Yields (.decimal decimal)
      (.decimal (.ofDigits negative whole (Digits.dropFinalZeros fraction) exponent)) := by
  intro rest hcloses
  rw [write, written]
  refine Token.ofText?_number (fun c hmem => ?_)
    (Token.number?_of_spells negative spells broken leading hcloses)
  rcases spells with ⟨hne, hwhole, _, tail, _, rfl⟩
  rcases List.exists_cons_of_ne_nil hne with ⟨first, more, rfl⟩
  cases negative with
  | true => exact .inl (by simpa using hmem.symm)
  | false =>
      have hfirst : c = first := by simpa using hmem.symm
      exact .inr (hwhole c (by simp [hfirst]))

/-- Zero is read without its exponent. -/
theorem yields_zero (negative : Bool) (exponent : Int) :
    Yields (.decimal ⟨negative, 0, exponent⟩) (.decimal ⟨negative, 0, 0⟩) := by
  have hspells : Spells ['0', '.', '0'] ['0'] ['0'] 0 :=
    ⟨by simp, by simp, by simp, [], .none, rfl⟩
  have hwritten : writeDecimal ⟨negative, 0, exponent⟩ =
      if negative then '-' :: ['0', '.', '0'] else ['0', '.', '0'] := by
    cases negative <;> rfl
  exact yields_of_spells hwritten hspells (.inl (by simp)) (.inl rfl)

/-- Zeros at the end of a fraction do not change the amount. -/
theorem exists_lower_dropFinalZeros {whole fraction : List Char} (negative : Bool) (exponent : Int) :
    (∀ c ∈ whole, c.isDigit) → (∀ c ∈ fraction, c.isDigit) →
      ∃ zeros, (Decimal.ofDigits negative whole (Digits.dropFinalZeros fraction) exponent).lower
        zeros = Decimal.ofDigits negative whole fraction exponent := by
  intro hwhole hfraction
  rcases Digits.exists_dropFinalZeros fraction with ⟨zeros, hsplit⟩
  refine ⟨zeros, ?_⟩
  generalize Digits.dropFinalZeros fraction = kept at hsplit
  subst hsplit
  have hdigits : ∀ c ∈ whole ++ kept, c.isDigit := by
    intro c hmem
    exact (List.mem_append.1 hmem).elim (hwhole c) fun hkept => hfraction c (by simp [hkept])
  rw [Decimal.ofDigits, Decimal.ofDigits, ← List.append_assoc,
    Digits.toNat_append_zeros _ hdigits, Decimal.lower]
  simp
  omega

/-- A decimal is read as one of the same amount, with few zeros more or less. -/
theorem exists_yields_decimal {decimal : Decimal} (nonzero : decimal.coefficient ≠ 0) :
    ∃ (read : Decimal) (zeros count : Nat), Yields (.decimal decimal) (.decimal read) ∧
      read.lower zeros = decimal.lower count ∧ count ≤ 18 := by
  have hplain : numberLayout.Plain := ⟨1, rfl⟩
  rcases Layout.exists_writes hplain decimal with
    ⟨unsigned, whole, fraction, exponent, count, hwrites⟩
  have hwritten : writeDecimal decimal =
      if decimal.negative then '-' :: unsigned else unsigned := by
    rw [writeDecimal, if_neg nonzero]
    exact hwrites.eq
  have hleading : whole = ['0'] ∨ whole.head? ≠ some '0' := by
    rcases hwrites.head with hzero | hhead
    · exact .inl hzero
    · rcases Digits.leading_ofNat decimal.coefficient with hnone | hother
      · have hcoefficient := Digits.toNat_ofNat decimal.coefficient
        rw [hnone] at hcoefficient
        exact absurd hcoefficient.symm nonzero
      · exact .inr (hhead ▸ hother)
  have hbroken := hwrites.broken (by decide) (by decide)
  rcases exists_lower_dropFinalZeros decimal.negative exponent hwrites.spells.whole_digits
    hwrites.spells.fraction_digits with ⟨zeros, hzeros⟩
  exact ⟨_, zeros, count, yields_of_spells hwritten hwrites.spells hbroken hleading,
    hzeros.trans hwrites.amount, hwrites.few⟩

/-! ## Every tree can be read where it was written -/

mutual

theorem exists_yields : ∀ source : Tree, ∃ tree, Yields source tree
  | .null => ⟨_, yields_null⟩
  | .bool value => ⟨_, yields_bool value⟩
  | .integer negative magnitude => ⟨_, yields_integer negative magnitude⟩
  | .decimal ⟨negative, coefficient, exponent⟩ => by
      by_cases hzero : coefficient = 0
      · subst hzero
        exact ⟨_, yields_zero negative exponent⟩
      · have hnonzero : (⟨negative, coefficient, exponent⟩ : Decimal).coefficient ≠ 0 := hzero
        rcases exists_yields_decimal hnonzero with ⟨read, -, -, hyields, -, -⟩
        exact ⟨_, hyields⟩
  | .string text => ⟨_, yields_string text⟩
  | .array items => by
      rcases exists_yields_items items with ⟨trees, hyields⟩
      exact ⟨_, yields_array hyields⟩
  | .object members => by
      rcases exists_yields_members members with ⟨trees, hyields⟩
      exact ⟨_, yields_object hyields⟩

theorem exists_yields_items : ∀ sources : List Tree, ∃ trees, List.Forall₂ Yields sources trees
  | [] => ⟨[], .nil⟩
  | source :: sources => by
      rcases exists_yields source with ⟨tree, hyields⟩
      rcases exists_yields_items sources with ⟨trees, hrest⟩
      exact ⟨tree :: trees, .cons hyields hrest⟩

theorem exists_yields_members : ∀ sources : List (Option String × Tree),
    ∃ trees, List.Forall₂ YieldsMember sources trees
  | [] => ⟨[], .nil⟩
  | (key, source) :: sources => by
      rcases exists_yields source with ⟨tree, hyields⟩
      rcases exists_yields_members sources with ⟨trees, hrest⟩
      exact ⟨(key, tree) :: trees, .cons ⟨rfl, hyields⟩ hrest⟩

end

/-- What is read from a document tells the tokens that it is cut into. -/
theorem yields_iff {source tree : Tree} : Yields source tree ↔ read? (toText source) = some tree := by
  refine ⟨Yields.read?, fun h => ?_⟩
  rcases exists_yields source with ⟨other, hyields⟩
  cases h.symm.trans hyields.read?
  exact hyields

end Standard
end Json
end Stencil
