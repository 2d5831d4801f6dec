import Recast.Token

/-!
# Parse errors

What stops the reading of a source text, as causes; `ParseError.message` holds the wording.
-/

namespace Recast

/-- The most items that one list of a program may have. -/
def maxItems : Nat := 65535

/-- What the grammar allows at a place. -/
inductive Expectation where
  | token (kind : TokenKind)
  | type
  | typeOrAssign
  | expression
  | statementEnd
deriving DecidableEq, Repr

/-- How an error message calls what the grammar allows. -/
def Expectation.describe : Expectation → String
  | token kind => kind.describe
  | type => "type"
  | typeOrAssign => "type or `=`"
  | expression => "expression"
  | statementEnd => "newline or `;` after statement"

/-- Errors that stop lexing or parsing; `pos` is a byte offset. -/
inductive ParseError where
  /-- No token starts with the character at `pos`. -/
  | unexpectedChar (pos : Nat) (char : Char)
  /-- The token at `pos` does not fit; `found` is absent at the end of the text. -/
  | expected (pos : Nat) (what : Expectation) (found : Option TokenKind)
  /-- The list that starts at `pos` is longer than `maxItems`. -/
  | tooManyItems (pos : Nat)
deriving DecidableEq, Repr

/-- The error as text. -/
def ParseError.message : ParseError → String
  | unexpectedChar pos char =>
    toString pos ++ ": unexpected character `" ++ char.toString ++ "`"
  | expected pos what found =>
    toString pos ++ ": expected " ++ what.describe ++ ", found "
      ++ (found.map TokenKind.describe).getD endOfFile
  | tooManyItems pos =>
    toString pos ++ ": list of more than " ++ toString maxItems ++ " items"

end Recast
