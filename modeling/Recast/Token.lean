import Recast.Operator
import Recast.Span

/-!
# Tokens

The words of the language. Newlines are tokens because they end statements; comments are not, they
are kept beside the token list as trivia. The end of the text has no token of its own: a token list
that has run out stands for it.
-/

namespace Recast

/-- The two kinds of number literal. -/
inductive LiteralKind where
  | int
  | float
deriving DecidableEq, Repr, Inhabited

/-- Kinds of token. -/
inductive TokenKind where
  | newline
  | func
  | var
  | ret
  | literal (kind : LiteralKind)
  | ident
  | leftParen
  | rightParen
  | leftBrace
  | rightBrace
  | comma
  | semicolon
  | ellipsis
  | assign
  | op (op : BinaryOp)
deriving DecidableEq, Repr, Inhabited

/-- How an error message calls a token of this kind. -/
def TokenKind.describe : TokenKind → String
  | newline => "newline"
  | func => "`func`"
  | var => "`var`"
  | ret => "`return`"
  | literal .float => "float literal"
  | literal .int => "integer literal"
  | ident => "identifier"
  | leftParen => "`(`"
  | rightParen => "`)`"
  | leftBrace => "`\x7b`"
  | rightBrace => "`\x7d`"
  | comma => "`,`"
  | semicolon => "`;`"
  | ellipsis => "`...`"
  | assign => "`=`"
  | op o => "`" ++ o.symbol ++ "`"

/-- A token: its kind, its text and where the text stands. -/
structure Token where
  kind : TokenKind
  text : String
  span : Span
deriving DecidableEq, Repr, Inhabited

/-- How an error message calls the end of the source text. -/
def endOfFile : String := "end of file"

end Recast
