import Recast.Lexer
import Recast.Tree.Basic

/-!
# Parsing

A recursive descent parser over the token list. Binary expressions are read by precedence climbing:
`binary fuel m` reads the longest expression whose operators, outside parentheses and arguments,
bind at least as tightly as `m`. Statements end at a newline, a semicolon or the closing brace of
their block.

Recursion is bounded by fuel. Every call without a token in between goes one level down in the
grammar and there are four levels, so `4 * n + 4` is enough for `n` tokens; `Program.parse` starts
with that.
-/

namespace Recast

/-- Expressions as the parser makes them. -/
abbrev SourceExpr := Expr Empty Span

/-- Statements as the parser makes them. -/
abbrev SourceStmt := Stmt Empty Span

/-- Functions as the parser makes them. -/
abbrev SourceFunction := Function Empty Span

/-- Programs as the parser makes them. -/
abbrev SourceProgram := Program Empty Span

namespace Parser

/-- Why the parser stopped. -/
inductive Failure where
  /-- The first of the tokens `at` does not fit; there may be none left. -/
  | expected (what : Expectation) (rest : List Token)
  /-- A list that starts at a position is too long. -/
  | tooManyItems (pos : Nat)

/-- Parsing steps may fail; those that read tokens yield a value and the tokens after it. -/
abbrev Step := Except Failure

/-- The kind of the next token. -/
def next? (ts : List Token) : Option TokenKind := ts.head?.map Token.kind

/-- Reads one token of the given kind. -/
def token (kind : TokenKind) : List Token → Step (Token × List Token)
  | t :: ts => if t.kind = kind then .ok (t, ts) else .error (.expected (.token kind) (t :: ts))
  | [] => .error (.expected (.token kind) [])

/-- Passes over newlines. -/
def skipNewlines (ts : List Token) : List Token := ts.dropWhile (·.kind = .newline)

/-- Passes over newlines and semicolons. -/
def skipTerminators (ts : List Token) : List Token :=
  ts.dropWhile fun t => t.kind = .newline || t.kind = .semicolon

/-- Whether a statement may end here. -/
def atTerminator (ts : List Token) : Bool :=
  match next? ts with
  | some .newline | some .semicolon | some .rightBrace | none => true
  | _ => false

/-- Refuses a list of more than `maxItems` items; `pos` is where it starts. -/
def checkLength {β : Type} (items : List β) (pos : Nat) : Step Unit :=
  if items.length ≤ maxItems then .ok () else .error (.tooManyItems pos)

/-- Reads `item {, item}`; `gap` may pass over tokens after each comma. The items read so far are in
`found`, last first. -/
def commaList {β : Type} (gap : List Token → List Token)
    (item : List Token → Step (β × List Token)) :
    Nat → List β → List Token → Step (List β × List Token)
  | 0, _, ts => .error (.expected .expression ts)
  | fuel + 1, found, ts => do
    let (x, ts) ← item ts
    match ts with
    | ⟨.comma, _, _⟩ :: ts => commaList gap item fuel (x :: found) (gap ts)
    | _ => .ok ((x :: found).reverse, ts)

/-! ### Expressions -/

mutual

/-- Reads an expression whose operators bind at least as tightly as `m`. -/
def binary : Nat → (m : Nat) → List Token → Step (SourceExpr × List Token)
  | 0, _, ts => .error (.expected .expression ts)
  | fuel + 1, m, ts =>
    match unary fuel ts with
    | .error e => .error e
    | .ok (left, ts) => climb fuel m left ts

/-- Reads on after `left` as long as operators follow that bind at least as tightly as `m`. Newlines
may follow an operator. -/
def climb : Nat → (m : Nat) → (left : SourceExpr) → List Token → Step (SourceExpr × List Token)
  | 0, _, _, ts => .error (.expected .expression ts)
  | fuel + 1, m, left, ts =>
    match ts with
    | ⟨.op op, _, _⟩ :: rest =>
      if op.precedence < m then .ok (left, ts)
      else match binary fuel (op.precedence + 1) (skipNewlines rest) with
        | .error e => .error e
        | .ok (right, ts) =>
          climb fuel m (.binary (left.span.merge right.span) op left right) ts
    | _ => .ok (left, ts)

/-- Reads any number of minus signs and what they negate. -/
def unary : Nat → List Token → Step (SourceExpr × List Token)
  | 0, ts => .error (.expected .expression ts)
  | fuel + 1, ts =>
    match ts with
    | ⟨.op .sub, _, span⟩ :: rest =>
      match unary fuel rest with
      | .error e => .error e
      | .ok (operand, ts) => .ok (.neg (span.merge operand.span) operand, ts)
    | _ => operand fuel ts

/-- Reads an operand and the calls made on it. -/
def operand : Nat → List Token → Step (SourceExpr × List Token)
  | 0, ts => .error (.expected .expression ts)
  | fuel + 1, ts =>
    match primary fuel ts with
    | .error e => .error e
    | .ok (e, ts) => calls fuel e ts

/-- Reads the argument lists that follow a callee. Newlines may surround arguments, and a comma may
follow the last one. -/
def calls : Nat → (callee : SourceExpr) → List Token → Step (SourceExpr × List Token)
  | 0, _, ts => .error (.expected .expression ts)
  | fuel + 1, callee, ts =>
    match ts with
    | ⟨.leftParen, _, _⟩ :: rest =>
      match args fuel [] (skipNewlines rest) with
      | .error e => .error e
      | .ok (args, ts) =>
        match token .rightParen ts with
        | .error e => .error e
        | .ok (close, ts) =>
          match checkLength args callee.span.start with
          | .error e => .error e
          | .ok () => calls fuel (.call (callee.span.merge close.span) callee args) ts
    | _ => .ok (callee, ts)

/-- Reads arguments up to the closing parenthesis; those read so far are in `found`, last first. -/
def args : Nat → (found : List SourceExpr) → List Token → Step (List SourceExpr × List Token)
  | 0, _, ts => .error (.expected .expression ts)
  | fuel + 1, found, ts =>
    if next? ts = some .rightParen then .ok (found.reverse, ts)
    else match binary fuel 0 ts with
      | .error e => .error e
      | .ok (arg, ts) =>
        match skipNewlines ts with
        | ⟨.comma, _, _⟩ :: ts => args fuel (arg :: found) (skipNewlines ts)
        | ts => .ok ((arg :: found).reverse, ts)

/-- Reads a literal, a name or an expression in parentheses. -/
def primary : Nat → List Token → Step (SourceExpr × List Token)
  | 0, ts => .error (.expected .expression ts)
  | fuel + 1, ts =>
    match ts with
    | ⟨.literal kind, text, span⟩ :: rest => .ok (.literal span kind text, rest)
    | ⟨.ident, text, span⟩ :: rest => .ok (.name span text, rest)
    | ⟨.leftParen, _, span⟩ :: rest =>
      match binary fuel 0 rest with
      | .error e => .error e
      | .ok (inner, ts) =>
        match token .rightParen ts with
        | .error e => .error e
        | .ok (close, ts) => .ok (.paren (span.merge close.span) inner, ts)
    | ts => .error (.expected .expression ts)

end

/-- Reads an expression. -/
def expr (fuel : Nat) (ts : List Token) : Step (SourceExpr × List Token) := binary fuel 0 ts

/-- Reads `expr {, expr}`; newlines may follow a comma. Yields the list and the span of its last
item. -/
def exprList (fuel : Nat) (ts : List Token) : Step ((List SourceExpr × Span) × List Token) := do
  let start := (ts.head?.map Token.span).getD ⟨0, 0⟩
  let (items, ts) ← commaList skipNewlines (expr fuel) fuel [] ts
  checkLength items start.start
  return ((items, (items.getLast?.map Expr.span).getD start), ts)

/-! ### Statements -/

/-- Reads a written type. -/
def typeRef : List Token → Step (TypeRef String × List Token)
  | ⟨.ident, text, span⟩ :: ts => .ok (⟨text, span⟩, ts)
  | ts => .error (.expected .type ts)

/-- Reads a written type if one follows. -/
def typeRef? : List Token → Option (TypeRef String) × List Token
  | ⟨.ident, text, span⟩ :: ts => (some ⟨text, span⟩, ts)
  | ts => (none, ts)

/-- Reads a declaration of variables. -/
def varStmt (fuel : Nat) (ts : List Token) : Step (SourceStmt × List Token) := do
  let (start, ts) ← token .var ts
  let (names, ts) ← commaList id (token .ident) fuel [] ts
  checkLength names start.span.start
  let (type?, ts) := typeRef? ts
  let names := names.map Token.text
  match ts, type? with
  | ⟨.assign, _, _⟩ :: ts, _ =>
    let ((values, stop), ts) ← exprList fuel ts
    return (.var (start.span.merge stop) names type? values, ts)
  | _, some type => return (.var (start.span.merge type.span) names type? [], ts)
  | _, none => .error (.expected .typeOrAssign ts)

/-- Reads a `return`. -/
def returnStmt (fuel : Nat) (ts : List Token) : Step (SourceStmt × List Token) := do
  let (start, ts) ← token .ret ts
  if atTerminator ts then return (.ret start.span [], ts)
  let ((results, stop), ts) ← exprList fuel ts
  return (.ret (start.span.merge stop) results, ts)

/-- Reads an assignment or an expression that stands alone. -/
def simpleStmt (fuel : Nat) (ts : List Token) : Step (SourceStmt × List Token) := do
  let start := (ts.head?.map Token.span).getD ⟨0, 0⟩
  let ((targets, stop), ts) ← exprList fuel ts
  match ts, targets with
  | ⟨.assign, _, _⟩ :: ts, _ =>
    let ((values, stop), ts) ← exprList fuel ts
    return (.assign (start.merge stop) targets values, ts)
  | _, [e] => return (.expr (start.merge stop) e, ts)
  | _, _ => .error (.expected (.token .assign) ts)

/-- Reads a statement. -/
def stmt (fuel : Nat) (ts : List Token) : Step (SourceStmt × List Token) :=
  match next? ts with
  | some .var => varStmt fuel ts
  | some .ret => returnStmt fuel ts
  | _ => simpleStmt fuel ts

/-- Reads statements up to and including the closing brace of their block, which opened at
`opening`. Yields the statements and the span of the brace; those read so far are in `found`, last
first. -/
def stmts (fuel opening : Nat) :
    Nat → List SourceStmt → List Token → Step ((List SourceStmt × Span) × List Token)
  | 0, _, ts => .error (.expected .expression ts)
  | steps + 1, found, ts => do
    match skipTerminators ts with
    | ⟨.rightBrace, _, span⟩ :: ts =>
      checkLength found opening
      return ((found.reverse, span), ts)
    | ts =>
      let (s, ts) ← stmt fuel ts
      if atTerminator ts then stmts fuel opening steps (s :: found) ts
      else .error (.expected .statementEnd ts)

/-! ### Functions -/

/-- Reads a parameter. -/
def param (ts : List Token) : Step (Param String × List Token) := do
  let (name, ts) ← token .ident ts
  let (variadic, ts) := match ts with
    | ⟨.ellipsis, _, _⟩ :: ts => (true, ts)
    | _ => (false, ts)
  let (type, ts) ← typeRef ts
  return (⟨name.text, type, variadic, name.span.merge type.span⟩, ts)

/-- Reads the parameters up to the closing parenthesis. -/
def params (fuel : Nat) (ts : List Token) : Step (List (Param String) × List Token) :=
  if next? ts = some .rightParen then .ok ([], ts) else commaList id param fuel [] ts

/-- Reads the result types: none, one, or several in parentheses. -/
def results (fuel : Nat) (ts : List Token) : Step (List (TypeRef String) × List Token) := do
  match ts with
  | ⟨.ident, text, span⟩ :: ts => return ([⟨text, span⟩], ts)
  | ⟨.leftParen, _, _⟩ :: ts =>
    let (types, ts) ← commaList id typeRef fuel [] ts
    let (_, ts) ← token .rightParen ts
    return (types, ts)
  | _ => return ([], ts)

/-- Reads a function declaration. -/
def function (fuel : Nat) (ts : List Token) : Step (SourceFunction × List Token) := do
  let (start, ts) ← token .func ts
  let (name, ts) ← token .ident ts
  let (_, ts) ← token .leftParen ts
  let (params, ts) ← params fuel ts
  let (_, ts) ← token .rightParen ts
  checkLength params start.span.start
  let (results, ts) ← results fuel ts
  checkLength results start.span.start
  let (opening, ts) ← token .leftBrace ts
  let ((body, stop), ts) ← stmts fuel opening.span.start fuel [] ts
  return (⟨start.span.merge stop, name.text, params, results, body⟩, ts)

/-- Reads functions up to the end of the text; those read so far are in `found`, last first. -/
def functions (fuel : Nat) :
    Nat → List SourceFunction → List Token → Step (List SourceFunction)
  | 0, _, ts => .error (.expected .expression ts)
  | steps + 1, found, ts => do
    match skipTerminators ts with
    | [] => return found.reverse
    | ts =>
      let (f, ts) ← function fuel ts
      functions fuel steps (f :: found) ts

/-- Enough fuel for any number of recursive calls on these tokens. -/
def enoughFuel (ts : List Token) : Nat := 4 * ts.length + 4

/-- The failure as an error in a text of `stop` bytes. -/
def Failure.toError (stop : Nat) : Failure → ParseError
  | expected what [] => .expected stop what none
  | expected what (t :: _) => .expected t.span.start what (some t.kind)
  | tooManyItems pos => .tooManyItems pos

end Parser

/-- Reads the functions from the tokens of a text and keeps its trivia. -/
def Lexed.parse (lexed : Lexed) : Except ParseError SourceProgram :=
  let fuel := Parser.enoughFuel lexed.tokens
  match Parser.functions fuel fuel [] lexed.tokens with
  | .ok functions => .ok ⟨functions, lexed.trivia⟩
  | .error failure => .error (failure.toError lexed.stop)

/-- Reads a source text. -/
def parse (source : String) : Except ParseError SourceProgram := lex source >>= Lexed.parse

end Recast
