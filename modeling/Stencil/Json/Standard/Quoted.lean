import Stencil.Number.Digits

/-!
# Quoted text — strings between double quotes

A string is a sequence of parts: characters, and UTF-16 units given by their number.  Two units
that are a pair of surrogates stand for one character; a surrogate without its partner stands for
none, so not every string denotes a text.

* `Quoted.write`, `Quoted.read?` — a string with its quotes, and the parts up to the closing quote;
* `Quoted.toText?`, `Quoted.ofText?` — the text that parts denote, and parts that denote a text.
-/

namespace Stencil
namespace Json

/-- A part of a string. -/
inductive Part where
  | char (c : Char)
  | unit (value : Nat)
  deriving DecidableEq, Repr

namespace Quoted

/-! ## Text -/

/-- Whether a unit is the first of a pair of surrogates. -/
def isHigh (unit : Nat) : Bool := 0xD800 ≤ unit && unit < 0xDC00

/-- Whether a unit is the second of a pair of surrogates. -/
def isLow (unit : Nat) : Bool := 0xDC00 ≤ unit && unit < 0xE000

/-- The characters that the parts of a string denote. -/
def toChars? : List Part → Option (List Char)
  | [] => some []
  | .char c :: parts => (toChars? parts).map (c :: ·)
  | .unit high :: .unit low :: parts =>
      if isHigh high ∧ isLow low then
        -- Ten bits from each of the pair.
        (toChars? parts).map
          (Char.ofNat (0x10000 + (high - 0xD800) * 0x400 + (low - 0xDC00)) :: ·)
      else if isHigh high ∨ isLow high then
        none
      else
        (toChars? (.unit low :: parts)).map (Char.ofNat high :: ·)
  | .unit unit :: parts =>
      if isHigh unit ∨ isLow unit then none else (toChars? parts).map (Char.ofNat unit :: ·)

/-- The text that the parts of a string denote. -/
def toText? (parts : List Part) : Option String := (toChars? parts).map String.ofList

/-- The parts of a string: the characters of its text, or half of a pair of surrogates if it denotes
none. -/
def ofText? : Option String → List Part
  | some text => text.toList.map .char
  | none => [.unit 0xD800]

/-! ## Writing -/

/-- The hexadecimal digits of a unit, four of them. -/
def hex4 (unit : Nat) : List Char :=
  [unit / 0x1000 % 16, unit / 0x100 % 16, unit / 0x10 % 16, unit % 16].map Nat.digitChar

/-- The letter that stands behind a backslash for a character that must not stand for itself, if it
has one. -/
def shortEscape? : Char → Option Char
  | '"' => some '"'
  | '\\' => some '\\'
  | '\x08' => some 'b'
  | '\x0c' => some 'f'
  | '\n' => some 'n'
  | '\r' => some 'r'
  | '\t' => some 't'
  | _ => none

/-- A part as it is written: control characters, quotes and backslashes are escaped, and nothing
else is. -/
def writePart : Part → List Char
  | .unit unit => '\\' :: 'u' :: hex4 unit
  | .char c =>
      match shortEscape? c with
      | some letter => ['\\', letter]
      | none => if c.toNat < 0x20 then '\\' :: 'u' :: hex4 c.toNat else [c]

/-- A string with its quotes. -/
def write (parts : List Part) : List Char := '"' :: (parts.flatMap writePart ++ ['"'])

/-! ## Reading -/

/-- The character that a letter behind a backslash stands for. -/
def escaped? : Char → Option Char
  | '"' => some '"'
  | '\\' => some '\\'
  | '/' => some '/'
  | 'b' => some '\x08'
  | 'f' => some '\x0c'
  | 'n' => some '\n'
  | 'r' => some '\r'
  | 't' => some '\t'
  | _ => none

/-- The unit that four hexadecimal digits denote. -/
def unitOf? (digits : List Char) : Option Nat :=
  if digits.all (Digits.isOfBase 16) then some (Digits.toNat 16 digits) else none

/-- A string behind its opening quote, and the text behind its closing one. -/
structure Read where
  parts : List Part
  rest : List Char

/-- The same string with one more part at the start. -/
def Read.cons (part : Part) (read : Read) : Read := { read with parts := part :: read.parts }

/-- Reads the parts of a string up to its closing quote.  A control character must be escaped. -/
def read? : List Char → Option Read
  | [] => none
  | '"' :: rest => some ⟨[], rest⟩
  | '\\' :: 'u' :: a :: b :: c :: d :: rest => do
      let unit ← unitOf? [a, b, c, d]
      return (← read? rest).cons (.unit unit)
  | '\\' :: letter :: rest => do
      let c ← escaped? letter
      return (← read? rest).cons (.char c)
  -- Any other character stands for itself.
  | c :: rest => if c.toNat < 0x20 ∨ c = '\\' then none else (read? rest).map (.cons (.char c))

/-- The text behind a string is shorter than the one it was read from. -/
theorem length_rest_lt {text : List Char} {read : Read} (h : read? text = some read) :
    read.rest.length < text.length := by
  fun_induction read? text generalizing read with
  | case1 => cases h
  | case2 rest => cases h; simp
  | case3 a b c d rest ih =>
      obtain ⟨unit, _, h⟩ := Option.bind_eq_some_iff.1 h
      obtain ⟨inner, found, same⟩ := Option.bind_eq_some_iff.1 h
      cases same
      have := ih found
      simp only [Read.cons, List.length_cons]
      omega
  | case4 letter rest _ ih =>
      obtain ⟨c, _, h⟩ := Option.bind_eq_some_iff.1 h
      obtain ⟨inner, found, same⟩ := Option.bind_eq_some_iff.1 h
      cases same
      have := ih found
      simp only [Read.cons, List.length_cons]
      omega
  | case5 => cases h
  | case6 c rest _ _ _ _ ih =>
      obtain ⟨inner, found, rfl⟩ := Option.map_eq_some_iff.1 h
      have := ih found
      simp only [Read.cons, List.length_cons]
      omega

end Quoted
end Json
end Stencil
