import Recast.ParseError
import Recast.Trivia

/-!
# Lexing

`munch` finds the longest lexeme at the head of a text, `lexemes` cuts a whole text into lexemes,
and `Lexed.ofLexemes` sorts them into tokens, comments and blank lines. Spaces, tabs and carriage
returns only separate. Digits and letters are the ASCII ones; other characters occur in comments
alone.
-/

namespace Recast

/-- A lexeme is a token of the grammar or a comment. -/
inductive LexemeKind where
  | token (kind : TokenKind)
  | comment
deriving DecidableEq, Repr

/-- A stretch of source text that is one token or one comment. -/
structure Lexeme where
  kind : LexemeKind
  text : String
  span : Span
deriving DecidableEq, Repr

namespace Lexer

/-- Characters that separate lexemes and mean nothing else. -/
def isSeparator (c : Char) : Bool := c == ' ' || c == '\t' || c == '\r'

/-- Characters that start an identifier or keyword. -/
def isWordStart (c : Char) : Bool := c.isAlpha || c == '_'

/-- Characters that continue an identifier or keyword. -/
def isWordChar (c : Char) : Bool := c.isAlphanum || c == '_'

/-- Characters that continue a number: digits and the grouping underscore. -/
def isDigitChar (c : Char) : Bool := c.isDigit || c == '_'

/-- A keyword, or else an identifier. -/
def wordKind (word : String) : TokenKind :=
  if word = "func" then .func
  else if word = "var" then .var
  else if word = "return" then .ret
  else .ident

/-- Number of characters in the longest initial stretch of characters that satisfy `p`. -/
def stretch (p : Char → Bool) (cs : List Char) : Nat := (cs.takeWhile p).length

/-- Length of the exponent at the head of a text: `e` or `E`, an optional sign, and digits. -/
def exponent? : List Char → Option Nat
  | [] => none
  | e :: cs =>
    if e == 'e' || e == 'E' then
      let sign := match cs with
        | '+' :: _ | '-' :: _ => 1
        | _ => 0
      match stretch Char.isDigit (cs.drop sign) with
      | 0 => none
      | digits => some (1 + sign + digits)
    else none

/-- The kind of the number whose first digit stands just before a text, and how many characters of
the text belong to it. A fraction needs a digit right after the point. -/
def number (cs : List Char) : LiteralKind × Nat :=
  let whole := stretch isDigitChar cs
  match cs.drop whole with
  | '.' :: d :: rest =>
    if d.isDigit then
      let fraction := stretch isDigitChar rest
      (.float, whole + 2 + fraction + (exponent? (rest.drop fraction)).getD 0)
    else (.int, whole)
  | rest =>
    match exponent? rest with
    | some n => (.float, whole + n)
    | none => (.int, whole)

/-- The longest lexeme that starts with the character `c` and goes on with characters of `cs`: its
kind, and how many characters of `cs` it takes. -/
def munch (c : Char) (cs : List Char) : Option (LexemeKind × Nat) :=
  let single (kind : TokenKind) : Option (LexemeKind × Nat) := some (.token kind, 0)
  let orEqual (plain withEqual : TokenKind) : Option (LexemeKind × Nat) :=
    if cs.head? = some '=' then some (.token withEqual, 1) else some (.token plain, 0)
  if c = '\n' then single .newline
  else if isWordStart c then
    let n := stretch isWordChar cs
    some (.token (wordKind (String.ofList (c :: cs.take n))), n)
  else if c.isDigit then
    let (kind, n) := number cs
    some (.token (.literal kind), n)
  else match c with
    | '(' => single .leftParen
    | ')' => single .rightParen
    | '{' => single .leftBrace
    | '}' => single .rightBrace
    | ',' => single .comma
    | ';' => single .semicolon
    | '+' => single (.op .add)
    | '-' => single (.op .sub)
    | '*' => single (.op .mul)
    | '%' => single (.op .rem)
    | '/' =>
      if cs.head? = some '/' then some (.comment, stretch (· != '\n') cs)
      else single (.op .div)
    | '=' => orEqual .assign (.op .eq)
    | '<' => orEqual (.op .lt) (.op .ltEq)
    | '>' => orEqual (.op .gt) (.op .gtEq)
    | '!' => if cs.head? = some '=' then some (.token (.op .notEq), 1) else none
    | '.' => if cs.take 2 = ['.', '.'] then some (.token .ellipsis, 2) else none
    | _ => none

/-- Cuts the text at byte offset `pos` into lexemes, after passing over its first `skip` characters,
which belong to the last lexeme of `found`. -/
def scan (found : List Lexeme) : (pos skip : Nat) → List Char → Except ParseError (List Lexeme)
  | _, _, [] => .ok found.reverse
  | pos, skip + 1, c :: cs => scan found (pos + c.utf8Size) skip cs
  | pos, 0, c :: cs =>
    if isSeparator c then scan found (pos + c.utf8Size) 0 cs
    else match munch c cs with
      | none => .error (.unexpectedChar pos c)
      | some (kind, n) =>
        let text := String.ofList (c :: cs.take n)
        let lexeme := ⟨kind, text, ⟨pos, pos + text.utf8ByteSize⟩⟩
        scan (lexeme :: found) (pos + c.utf8Size) n cs

end Lexer

/-- The lexemes of a source text, in order. -/
def lexemes (source : String) : Except ParseError (List Lexeme) :=
  Lexer.scan [] 0 0 source.toList

/-- A source text as the parser sees it. -/
structure Lexed where
  /-- All tokens; comments are not among them. -/
  tokens : List Token
  trivia : Trivia String
  /-- Byte offset of the end of the text. -/
  stop : Nat
deriving DecidableEq, Repr

namespace Lexed

/-- Progress of the sorting of lexemes; the lists are in reverse order. -/
structure Sorting where
  tokens : List Token
  comments : List (Comment String)
  blankLines : List Nat
  /-- The current line already holds a token or a comment. -/
  hasContent : Bool

/-- Files one lexeme. A newline ends a blank line when its line holds nothing else, and a comment
trails when its line already holds something. -/
def Sorting.add (s : Sorting) (lexeme : Lexeme) : Sorting :=
  match lexeme.kind with
  | .comment =>
    { s with
      comments := ⟨lexeme.text, lexeme.span, s.hasContent⟩ :: s.comments
      hasContent := true }
  | .token .newline =>
    { s with
      tokens := ⟨.newline, lexeme.text, lexeme.span⟩ :: s.tokens
      blankLines := if s.hasContent then s.blankLines else lexeme.span.start :: s.blankLines
      hasContent := false }
  | .token kind =>
    { s with tokens := ⟨kind, lexeme.text, lexeme.span⟩ :: s.tokens, hasContent := true }

/-- Sorts the lexemes of a text of `stop` bytes into tokens and trivia. -/
def ofLexemes (lexemes : List Lexeme) (stop : Nat) : Lexed :=
  let sorted := lexemes.foldl Sorting.add ⟨[], [], [], false⟩
  ⟨sorted.tokens.reverse, ⟨sorted.comments.reverse, sorted.blankLines.reverse⟩, stop⟩

end Lexed

/-- Reads a source text into tokens and trivia. -/
def lex (source : String) : Except ParseError Lexed := do
  let found ← lexemes source
  return .ofLexemes found source.utf8ByteSize

end Recast
