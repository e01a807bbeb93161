import InfixAlgebra.Numeric
import InfixAlgebra.Symbol

/-!
# Tokens

A text without the blanks at its ends is cut into lexemes: maximal runs of digits and points,
maximal runs of letters, and every other character by itself.  Joined together again they are the
text.

Lexemes are read as tokens.  Blanks separate tokens and are dropped.  A name that directly follows a
number is multiplied with it, so that `2.5x` has the tokens of `2.5*x`.  Reading stops at the
leftmost run of digits and points that is not a finite number, or character that begins no token.
-/

namespace InfixAlgebra

/-! ## Lexemes -/

namespace Text

/-- The blank characters: tab to carriage return, the space, and the spaces and separators beyond
ASCII. -/
def isBlank (c : Char) : Bool :=
  let n := c.toNat
  (0x09 ≤ n && n ≤ 0x0D) || n == 0x20 || n == 0x85 || n == 0xA0 || n == 0x1680 ||
    (0x2000 ≤ n && n ≤ 0x200A) || n == 0x2028 || n == 0x2029 || n == 0x202F || n == 0x205F ||
    n == 0x3000

/-- The characters from the first that is not blank to the last that is not blank. -/
def trim (cs : List Char) : List Char :=
  ((cs.dropWhile isBlank).reverse.dropWhile isBlank).reverse

/-- The characters that numbers are made of. -/
def isNumeric (c : Char) : Bool := c.isDigit || c == '.'

/-- Two neighbouring characters of one lexeme. -/
def joined (a b : Char) : Bool := (isNumeric a && isNumeric b) || (a.isAlpha && b.isAlpha)

/-- The lexemes of a text in their order. -/
def lexemes (cs : List Char) : List (List Char) := cs.splitBy joined

end Text

/-! ## Tokens of lexemes -/

/-- The tokens of infix arithmetic. -/
inductive Token (α : Type u) where
  | number (value : α)
  | symbol (symbol : Symbol)
  | operator (op : Operator)
  | opening
  | closing

namespace Token

variable {α : Type u}

/-- The token that a single character writes. -/
def ofChar? (c : Char) : Option (Token α) :=
  if c = '(' then some .opening
  else if c = ')' then some .closing
  else (Operator.ofChar? c).map .operator

variable [Numeric α]

/-- The finite number that a run of digits and points writes. -/
def finite? (run : List Char) : Option α := (Numeric.ofChars? run).filter Numeric.isFinite

/-- Reads lexemes after the tokens `done`, the last one first.  `afterNumber` says whether the
lexeme just before was a number. -/
def ofLexemes (done : List (Token α)) (afterNumber : Bool) :
    List (List Char) → Except Fault (List (Token α))
  | [] => .ok done.reverse
  | [] :: rest => ofLexemes done afterNumber rest
  | (c :: cs) :: rest =>
    if Text.isBlank c then
      ofLexemes done false rest
    else if Text.isNumeric c then
      match finite? (c :: cs) with
      | some x => ofLexemes (.number x :: done) true rest
      | none => .error (.invalidNumber (String.ofList (c :: cs)))
    else if c.isAlpha then
      match Symbol.ofName (String.ofList (c :: cs)) with
      | .ok s =>
        ofLexemes (.symbol s :: if afterNumber then .operator .mul :: done else done) false rest
      | .error fault => .error fault
    else
      match ofChar? c with
      | some token => ofLexemes (token :: done) false rest
      | none => .error (.unreadable (String.ofList (c :: cs ++ rest.flatten)))

/-- The tokens of a text. -/
def ofText (text : String) : Except Fault (List (Token α)) :=
  ofLexemes [] false (Text.lexemes (Text.trim text.toList))

end Token

end InfixAlgebra
