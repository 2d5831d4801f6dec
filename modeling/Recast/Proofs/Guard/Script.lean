import Recast.Parser
import Recast.Proofs.Guard.Build

/-!
# Parsing into a store

A parser that goes through the marks of a source text with a cursor and puts each node into the
store as soon as it has read it. Texts are looked up in the source by their spans and nodes by their
ids, each access has its guard, and lists are stored when their length has been checked.
-/

namespace Recast

variable {α β γ : Type}

/-- Where a token stands and of what kind it is; the end of the text has no kind. -/
structure Mark where
  kind? : Option TokenKind
  span : Span

/-- Whether a statement may end before the mark. -/
def Mark.isTerminator (mark : Mark) : Bool :=
  match mark.kind? with
  | some .newline | some .semicolon | some .rightBrace | none => true
  | _ => false

/-- A source text, the marks of its tokens with one for its end, where its comments stand and
whether they trail, and its blank lines. -/
structure Script where
  source : String
  marks : Array Mark
  comments : List (Span × Bool)
  blankLines : List Nat

/-- The mark of a token. -/
def Token.mark (t : Token) : Mark := ⟨some t.kind, t.span⟩

/-- The mark of the end of a text. -/
def Lexed.endMark (lexed : Lexed) : Mark := ⟨none, ⟨lexed.stop, lexed.stop⟩⟩

/-- What a parser needs to know about a source text. -/
def Lexed.script (lexed : Lexed) (source : String) : Script where
  source
  marks := (lexed.tokens.map Token.mark ++ [lexed.endMark]).toArray
  comments := lexed.trivia.comments.map fun c => (c.span, c.trailing)
  blankLines := lexed.trivia.blankLines

/-- How far a parser has come: the number of the next mark, and what is stored. -/
structure Cursor where
  pos : Nat
  store : Store

/-- Steps of a parser. -/
abbrev Reading := StateT Cursor (ExceptT ParseError Guarded)

namespace Reading

/-- A step that may crash. -/
def guarded (x : Guarded α) : Reading α := fun cursor => do
  let a ← liftM x
  return (a, cursor)

/-- A step that adds to the store. -/
def build (f : Store → Guarded (α × Store)) : Reading α := fun cursor => do
  let (a, store) ← liftM (f cursor.store)
  return (a, { cursor with store })

/-- Ends the parsing. -/
def fail (e : ParseError) : Reading α := fun _ => throw e

/-- The span of an expression in the store. -/
def spanOf (id : ExprId) : Reading Span := do
  let node ← guarded (entry (← get).store.exprs id)
  return node.span

/-- Refuses a list of more than `maxItems` items; `pos` is where it starts. -/
def checkLength (items : List β) (pos : Nat) : Reading Unit :=
  if items.length ≤ maxItems then return else fail (.tooManyItems pos)

end Reading

open Reading

namespace Script

variable (x : Script)

/-! ### The cursor -/

/-- The next mark. -/
def current : Reading Mark := do
  guarded (entry x.marks (min (← get).pos (x.marks.size - 1)))

/-- Goes past the next mark, unless it is the end. -/
def advance : Reading Mark := do
  let mark ← x.current
  if mark.kind?.isSome then modify fun cursor => { cursor with pos := cursor.pos + 1 }
  return mark

/-- Goes past a mark of the given kind, if it is the next one. -/
def eat? (kind : TokenKind) : Reading (Option Mark) := do
  if (← x.current).kind? = some kind then some <$> x.advance else return none

/-- Fails at the next mark. -/
def unexpected (what : Expectation) : Reading α := do
  let mark ← x.current
  fail (.expected mark.span.start what mark.kind?)

/-- Goes past a mark of the given kind. -/
def expect (kind : TokenKind) : Reading Mark := do
  match ← x.eat? kind with
  | some mark => return mark
  | none => x.unexpected (.token kind)

/-- Goes past at most `n` marks of kinds that `p` accepts. -/
def skipFor (p : TokenKind → Bool) : Nat → Reading Unit
  | 0 => guarded (crash .endless)
  | n + 1 => do
    if (← x.current).kind?.any p then
      let _ ← x.advance
      skipFor p n

/-- Goes past all marks of kinds that `p` accepts. -/
def skip (p : TokenKind → Bool) : Reading Unit := x.skipFor p x.marks.size

/-- Passes over newlines. -/
def skipNewlines : Reading Unit := x.skip (· = .newline)

/-- Passes over newlines and semicolons. -/
def skipTerminators : Reading Unit := x.skip fun kind => kind = .newline || kind = .semicolon

/-- Whether a statement may end here. -/
def atTerminator : Reading Bool := Mark.isTerminator <$> x.current

/-- The text of a mark. -/
def text (mark : Mark) : Reading String := guarded (sourceText x.source mark.span)

/-- Interns the text of a mark. -/
def name (mark : Mark) : Reading Name := do
  let text ← x.text mark
  build fun s => Guarded.intern s text

/-- Reads `item {, item}`. The items read so far are in `found`, last first. -/
def commaList (gap : Reading Unit) (item : Reading β) : Nat → List β → Reading (List β)
  | 0, _ => x.unexpected .expression
  | fuel + 1, found => do
    let y ← item
    match ← x.eat? .comma with
    | some _ => do
      gap
      commaList gap item fuel (y :: found)
    | none => return (y :: found).reverse

/-! ### Expressions -/

mutual

/-- Reads an expression whose operators bind at least as tightly as `m`. -/
def binary : Nat → (m : Nat) → Reading ExprId
  | 0, _ => x.unexpected .expression
  | fuel + 1, m => do
    let left ← unary fuel
    climb fuel m left

/-- Reads on after `left` as long as operators follow that bind at least as tightly as `m`. -/
def climb : Nat → (m : Nat) → (left : ExprId) → Reading ExprId
  | 0, _, _ => x.unexpected .expression
  | fuel + 1, m, left => do
    match (← x.current).kind? with
    | some (.op op) =>
      if op.precedence < m then return left
      else do
        let _ ← x.advance
        x.skipNewlines
        let right ← binary fuel (op.precedence + 1)
        let span := (← spanOf left).merge (← spanOf right)
        let left ← build fun s => Guarded.addExpr s (.binary op left right) span
        climb fuel m left
    | _ => return left

/-- Reads any number of minus signs and what they negate. -/
def unary : Nat → Reading ExprId
  | 0 => x.unexpected .expression
  | fuel + 1 => do
    match ← x.eat? (.op .sub) with
    | some minus => do
      let operand ← unary fuel
      let span := minus.span.merge (← spanOf operand)
      build fun s => Guarded.addExpr s (.neg operand) span
    | none => operand fuel

/-- Reads an operand and the calls made on it. -/
def operand : Nat → Reading ExprId
  | 0 => x.unexpected .expression
  | fuel + 1 => do
    let e ← primary fuel
    calls fuel e

/-- Reads the argument lists that follow a callee. -/
def calls : Nat → (callee : ExprId) → Reading ExprId
  | 0, _ => x.unexpected .expression
  | fuel + 1, callee => do
    match ← x.eat? .leftParen with
    | some _ => do
      x.skipNewlines
      let args ← args fuel []
      let close ← x.expect .rightParen
      let span ← spanOf callee
      checkLength args span.start
      let call ← build fun s => Guarded.addExpr s (.call callee args) (span.merge close.span)
      calls fuel call
    | none => return callee

/-- Reads arguments up to the closing parenthesis; those read so far are in `found`, last first. -/
def args : Nat → (found : List ExprId) → Reading (List ExprId)
  | 0, _ => x.unexpected .expression
  | fuel + 1, found => do
    if (← x.current).kind? = some .rightParen then return found.reverse
    else do
      let arg ← binary fuel 0
      x.skipNewlines
      match ← x.eat? .comma with
      | some _ => do
        x.skipNewlines
        args fuel (arg :: found)
      | none => return (arg :: found).reverse

/-- Reads a literal, a name or an expression in parentheses. -/
def primary : Nat → Reading ExprId
  | 0 => x.unexpected .expression
  | fuel + 1 => do
    let mark ← x.current
    match mark.kind? with
    | some (.literal kind) => do
      let lexeme ← x.text mark
      let _ ← x.advance
      build fun s => Guarded.addExpr s (.literal kind lexeme) mark.span
    | some .ident => do
      let text ← x.text mark
      let _ ← x.advance
      build fun s => Guarded.addExpr s (.name text) mark.span
    | some .leftParen => do
      let _ ← x.advance
      let inner ← binary fuel 0
      let close ← x.expect .rightParen
      build fun s => Guarded.addExpr s (.paren inner) (mark.span.merge close.span)
    | _ => x.unexpected .expression

end

/-- Reads `expr {, expr}`. Yields the list and the span of its last item. -/
def exprList (fuel : Nat) : Reading (Slice ExprId × Span) := do
  let start := (← x.current).span
  let items ← x.commaList x.skipNewlines (x.binary fuel 0) fuel []
  checkLength items start.start
  let stop ← match items.getLast? with
    | some last => spanOf last
    | none => pure start
  let list ← build fun s => Guarded.addExprList s items
  return (list, stop)

/-! ### Statements -/

/-- Reads a written type. -/
def typeRef : Reading (TypeRef Name) := do
  match ← x.eat? .ident with
  | some mark => do
    let name ← x.name mark
    return ⟨name, mark.span⟩
  | none => x.unexpected .type

/-- Reads a written type if one follows. -/
def typeRef? : Reading (Option (TypeRef Name)) := do
  if (← x.current).kind? = some .ident then some <$> x.typeRef else return none

/-- Reads an identifier. -/
def ident : Reading Name := do
  let mark ← x.expect .ident
  x.name mark

/-- Reads the values of a declaration, unless it has a type only. -/
def varValues (fuel : Nat) (type? : Option (TypeRef Name)) : Reading (Slice ExprId × Span) := do
  match ← x.eat? .assign, type? with
  | some _, _ => x.exprList fuel
  | none, some type => return (.empty, type.span)
  | none, none => x.unexpected .typeOrAssign

/-- Reads a declaration of variables. -/
def varStmt (fuel : Nat) : Reading StmtId := do
  let start ← x.expect .var
  let names ← x.commaList (pure ()) x.ident fuel []
  checkLength names start.span.start
  let type? ← x.typeRef?
  let (values, stop) ← x.varValues fuel type?
  let names ← build fun s => Guarded.addNameList s names
  build fun s => Guarded.pushStmt s ⟨.var names type? values, start.span.merge stop⟩

/-- Reads a `return`. -/
def returnStmt (fuel : Nat) : Reading StmtId := do
  let start ← x.expect .ret
  let (results, stop) ← if ← x.atTerminator then pure (.empty, start.span) else x.exprList fuel
  build fun s => Guarded.pushStmt s ⟨.ret results, start.span.merge stop⟩

/-- Reads an assignment or an expression that stands alone. -/
def simpleStmt (fuel : Nat) : Reading StmtId := do
  let start := (← x.current).span
  let (targets, stop) ← x.exprList fuel
  match ← x.eat? .assign with
  | some _ => do
    let (values, stop) ← x.exprList fuel
    build fun s => Guarded.pushStmt s ⟨.assign targets values, start.merge stop⟩
  | none => do
    match ← guarded ((← get).store.exprLists.read targets) with
    | [e] => build fun s => Guarded.pushStmt s ⟨.expr e, start.merge stop⟩
    | _ => x.unexpected (.token .assign)

/-- Reads a statement. -/
def stmt (fuel : Nat) : Reading StmtId := do
  match (← x.current).kind? with
  | some .var => x.varStmt fuel
  | some .ret => x.returnStmt fuel
  | _ => x.simpleStmt fuel

/-- Reads statements up to and including the closing brace of their block, which opened at
`opening`. Yields the statements and the span of the brace; those read so far are in `found`, last
first. -/
def stmts (fuel opening : Nat) : Nat → (found : List StmtId) → Reading (List StmtId × Span)
  | 0, _ => x.unexpected .expression
  | steps + 1, found => do
    x.skipTerminators
    match ← x.eat? .rightBrace with
    | some close => do
      checkLength found opening
      return (found.reverse, close.span)
    | none => do
      let id ← x.stmt fuel
      if ← x.atTerminator then stmts fuel opening steps (id :: found)
      else x.unexpected .statementEnd

/-! ### Functions -/

/-- Reads a parameter. -/
def param : Reading (Param Name) := do
  let mark ← x.expect .ident
  let name ← x.name mark
  let dots? ← x.eat? .ellipsis
  let type ← x.typeRef
  return ⟨name, type, dots?.isSome, mark.span.merge type.span⟩

/-- Reads the parameters up to the closing parenthesis. -/
def params (fuel : Nat) : Reading (List (Param Name)) := do
  if (← x.current).kind? = some .rightParen then return []
  else x.commaList (pure ()) x.param fuel []

/-- Reads the result types: none, one, or several in parentheses. -/
def results (fuel : Nat) : Reading (List (TypeRef Name)) := do
  if (← x.current).kind? = some .ident then
    let type ← x.typeRef
    return [type]
  else
    match ← x.eat? .leftParen with
    | some _ => do
      let types ← x.commaList (pure ()) x.typeRef fuel []
      let _ ← x.expect .rightParen
      return types
    | none => return []

/-- Reads a function declaration. -/
def function (fuel : Nat) : Reading Unit := do
  let start ← x.expect .func
  let name ← x.ident
  let _ ← x.expect .leftParen
  let params ← x.params fuel
  let _ ← x.expect .rightParen
  checkLength params start.span.start
  let params ← build fun s => Guarded.addParams s params
  let results ← x.results fuel
  checkLength results start.span.start
  let results ← build fun s => Guarded.addTypeList s results
  let opening ← x.expect .leftBrace
  let (body, stop) ← x.stmts fuel opening.span.start fuel []
  let body ← build fun s => Guarded.addStmtList s body
  let _ ← build fun s =>
    Guarded.pushFunction s ⟨⟨name, params, results, body⟩, start.span.merge stop⟩

/-- Reads functions up to the end of the text. -/
def functions (fuel : Nat) : (steps : Nat) → Reading Unit
  | 0 => x.unexpected .expression
  | steps + 1 => do
    x.skipTerminators
    if (← x.current).kind?.isNone then return
    else do
      x.function fuel
      functions fuel steps

/-- Interns the text of a comment, of which it is known where it stands and whether it trails. -/
def comment (c : Span × Bool) : Reading (Comment Name) := do
  let text ← x.name ⟨none, c.1⟩
  return ⟨text, c.1, c.2⟩

/-- Keeps the comments and blank lines. -/
def attachTrivia : Reading Unit := do
  let comments ← x.comments.mapM x.comment
  modify fun cursor => { cursor with store.trivia := ⟨comments, x.blankLines⟩ }

/-- Reads the functions and keeps the trivia. -/
def file (fuel : Nat) : Reading Unit := do
  x.functions fuel fuel
  x.attachTrivia

end Script

/-- Reads a source text into tokens and trivia. An error quotes what it is about. -/
def Guarded.lex (source : String) : Guarded (Except ParseError Lexed) :=
  match Recast.lex source with
  | .error (.unexpectedChar pos c) => do
    let _ ← sourceText source ⟨pos, pos + c.utf8Size⟩
    return .error (.unexpectedChar pos c)
  | result => return result

/-- Reads a source text into a store. -/
def Guarded.parse (source : String) : Guarded (Except ParseError Store) := do
  match ← lex source with
  | .error e => return .error e
  | .ok lexed => do
    let x := lexed.script source
    match ← (x.file (Parser.enoughFuel lexed.tokens) ⟨0, .empty⟩).run with
    | .error e => return .error e
    | .ok ((), cursor) => return .ok cursor.store

end Recast
