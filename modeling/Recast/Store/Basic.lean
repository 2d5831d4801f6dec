import Recast.Interner
import Recast.Store.Pool
import Recast.Tree.Basic

/-!
# Node store

A store keeps the nodes of one source text in arrays and lets them refer to each other by index, so
that an edit can replace one child and leave all else in place. Nodes are appended and never
removed. Child lists live in pools, strings in an interner.

A *shape* is one node whose children are ids. Its type says how strings (`ν`) and lists (`F`) are
held: a store has interned names and slices of its pools, its clients have strings and lists.
-/

namespace Recast

/-- Index of an expression in a store. -/
abbrev ExprId := Nat

/-- Index of a statement in a store. -/
abbrev StmtId := Nat

/-- Index of a function in a store. -/
abbrev FunctionId := Nat

/-- One expression; its children are ids. -/
inductive ExprShape (ν : Type) (F : Type → Type) where
  | literal (kind : LiteralKind) (lexeme : ν)
  | name (text : ν)
  | paren (inner : ExprId)
  | neg (operand : ExprId)
  | binary (op : BinaryOp) (left right : ExprId)
  | call (callee : ExprId) (args : F ExprId)

/-- One statement; its children are ids. -/
inductive StmtShape (ν : Type) (F : Type → Type) where
  | var (names : F ν) (type? : Option (TypeRef ν)) (values : F ExprId)
  | assign (targets values : F ExprId)
  | ret (results : F ExprId)
  | expr (expr : ExprId)

/-- One function; its statements are ids. -/
structure FunctionShape (ν : Type) (F : Type → Type) where
  name : ν
  params : F (Param ν)
  results : F (TypeRef ν)
  body : F StmtId

/-- A shape and where it stands. -/
structure Node (σ : Type) where
  shape : σ
  span : Span

/-- The tag of a node that was read from a store. -/
structure Placed where
  id : Nat
  span : Span
deriving DecidableEq, Repr

instance : Spanned Placed := ⟨Placed.span⟩

/-- The nodes, lists, strings and trivia of one source text. -/
structure Store where
  exprs : Array (Node (ExprShape Name Slice))
  stmts : Array (Node (StmtShape Name Slice))
  functions : Array (Node (FunctionShape Name Slice))
  params : Pool (Param Name)
  exprLists : Pool ExprId
  stmtLists : Pool StmtId
  typeLists : Pool (TypeRef Name)
  nameLists : Pool Name
  interner : Interner
  trivia : Trivia Name

namespace Store

/-- The store without nodes. -/
def empty : Store where
  exprs := #[]
  stmts := #[]
  functions := #[]
  params := .empty
  exprLists := .empty
  stmtLists := .empty
  typeLists := .empty
  nameLists := .empty
  interner := .new
  trivia := .none

instance : Inhabited Store := ⟨empty⟩

/-! ### Strings -/

/-- Interns a string. -/
def intern (s : Store) (text : String) : Name × Store :=
  let (n, interner) := s.interner.intern text
  (n, { s with interner })

/-- The string of a name. -/
def text (s : Store) (n : Name) : String := s.interner.text n

/-- A written type with its name interned. -/
def internType (s : Store) (t : TypeRef String) : TypeRef Name × Store :=
  let (n, s) := s.intern t.name
  (⟨n, t.span⟩, s)

/-- A written type with its name interned, if there is one. -/
def internType? (s : Store) : Option (TypeRef String) → Option (TypeRef Name) × Store
  | none => (none, s)
  | some type => let (t, s) := s.internType type; (some t, s)

/-- A parameter with its names interned. -/
def internParam (s : Store) (p : Param String) : Param Name × Store :=
  let (n, s) := s.intern p.name
  let (t, s) := s.internType p.type
  (⟨n, t, p.variadic, p.span⟩, s)

/-- A comment with its text interned. -/
def internComment (s : Store) (c : Comment String) : Comment Name × Store :=
  let (n, s) := s.intern c.text
  (⟨n, c.span, c.trailing⟩, s)

/-- Applies a step that interns to every item of a list, in order. -/
def internAll {β γ : Type} (f : Store → β → γ × Store) (s : Store) (xs : List β) :
    List γ × Store :=
  let (found, s) := xs.foldl (fun (found, s) x => let (y, s) := f s x; (y :: found, s)) ([], s)
  (found.reverse, s)

/-- A written type with its name as text. -/
def typeText (s : Store) (t : TypeRef Name) : TypeRef String := ⟨s.text t.name, t.span⟩

/-- A parameter with its names as text. -/
def paramText (s : Store) (p : Param Name) : Param String :=
  ⟨s.text p.name, s.typeText p.type, p.variadic, p.span⟩

/-- A comment with its text as a string. -/
def commentText (s : Store) (c : Comment Name) : Comment String :=
  ⟨s.text c.text, c.span, c.trailing⟩

/-! ### Lists -/

/-- Stores a list of expression ids. -/
def addExprList (s : Store) (ids : List ExprId) : Slice ExprId × Store :=
  let (slice, exprLists) := s.exprLists.add ids
  (slice, { s with exprLists })

/-- Stores a list of statement ids. -/
def addStmtList (s : Store) (ids : List StmtId) : Slice StmtId × Store :=
  let (slice, stmtLists) := s.stmtLists.add ids
  (slice, { s with stmtLists })

/-- Stores a parameter list. -/
def addParams (s : Store) (params : List (Param Name)) : Slice (Param Name) × Store :=
  let (slice, params) := s.params.add params
  (slice, { s with params })

/-- Stores a list of types. -/
def addTypeList (s : Store) (types : List (TypeRef Name)) : Slice (TypeRef Name) × Store :=
  let (slice, typeLists) := s.typeLists.add types
  (slice, { s with typeLists })

/-- Stores a list of names. -/
def addNameList (s : Store) (names : List Name) : Slice Name × Store :=
  let (slice, nameLists) := s.nameLists.add names
  (slice, { s with nameLists })

/-! ### Nodes -/

/-- Appends an expression. -/
def pushExpr (s : Store) (node : Node (ExprShape Name Slice)) : ExprId × Store :=
  (s.exprs.size, { s with exprs := s.exprs.push node })

/-- Appends a statement. -/
def pushStmt (s : Store) (node : Node (StmtShape Name Slice)) : StmtId × Store :=
  (s.stmts.size, { s with stmts := s.stmts.push node })

/-- Appends a function. -/
def pushFunction (s : Store) (node : Node (FunctionShape Name Slice)) : FunctionId × Store :=
  (s.functions.size, { s with functions := s.functions.push node })

/-- Interns the strings and stores the lists of an expression. -/
def internExpr (s : Store) :
    ExprShape String List → ExprShape Name Slice × Store
  | .literal kind lexeme => let (n, s) := s.intern lexeme; (.literal kind n, s)
  | .name text => let (n, s) := s.intern text; (.name n, s)
  | .paren inner => (.paren inner, s)
  | .neg operand => (.neg operand, s)
  | .binary op left right => (.binary op left right, s)
  | .call callee args => let (slice, s) := s.addExprList args; (.call callee slice, s)

/-- Interns the strings and stores the lists of a statement. Nothing is stored for a declaration
without values and for a `return` without results. -/
def internStmt (s : Store) :
    StmtShape String List → StmtShape Name Slice × Store
  | .var names type? values =>
    let (names, s) := internAll intern s names
    let (type?, s) := s.internType? type?
    let (values, s) := if values.isEmpty then (.empty, s) else s.addExprList values
    let (names, s) := s.addNameList names
    (.var names type? values, s)
  | .assign targets values =>
    let (targets, s) := s.addExprList targets
    let (values, s) := s.addExprList values
    (.assign targets values, s)
  | .ret results =>
    let (results, s) := if results.isEmpty then (.empty, s) else s.addExprList results
    (.ret results, s)
  | .expr e => (.expr e, s)

/-- Interns the strings and stores the lists of a function. -/
def internFunction (s : Store) (f : FunctionShape String List) :
    FunctionShape Name Slice × Store :=
  let (name, s) := s.intern f.name
  let (params, s) := internAll internParam s f.params
  let (params, s) := s.addParams params
  let (results, s) := internAll internType s f.results
  let (results, s) := s.addTypeList results
  let (body, s) := s.addStmtList f.body
  (⟨name, params, results, body⟩, s)

/-- Appends an expression given by its shape. -/
def addExpr (s : Store) (shape : ExprShape String List) (span : Span) : ExprId × Store :=
  let (shape, s) := s.internExpr shape
  s.pushExpr ⟨shape, span⟩

/-- Appends a statement given by its shape. -/
def addStmt (s : Store) (shape : StmtShape String List) (span : Span) : StmtId × Store :=
  let (shape, s) := s.internStmt shape
  s.pushStmt ⟨shape, span⟩

/-- Appends a function given by its shape. -/
def addFunction (s : Store) (shape : FunctionShape String List) (span : Span) :
    FunctionId × Store :=
  let (shape, s) := s.internFunction shape
  s.pushFunction ⟨shape, span⟩

/-- Replaces the trivia. -/
def setTrivia (s : Store) (trivia : Trivia String) : Store :=
  let (comments, s) := internAll internComment s trivia.comments
  { s with trivia := ⟨comments, trivia.blankLines⟩ }

/-! ### Reading one node -/

/-- The shape of an expression in a store, with strings and lists for names and slices. -/
def exprShape (s : Store) : ExprShape Name Slice → ExprShape String List
  | .literal kind lexeme => .literal kind (s.text lexeme)
  | .name text => .name (s.text text)
  | .paren inner => .paren inner
  | .neg operand => .neg operand
  | .binary op left right => .binary op left right
  | .call callee args => .call callee (s.exprLists.list args)

/-- The shape of a statement in a store, with strings and lists for names and slices. -/
def stmtShape (s : Store) : StmtShape Name Slice → StmtShape String List
  | .var names type? values =>
    .var ((s.nameLists.list names).map s.text) (type?.map s.typeText) (s.exprLists.list values)
  | .assign targets values => .assign (s.exprLists.list targets) (s.exprLists.list values)
  | .ret results => .ret (s.exprLists.list results)
  | .expr e => .expr e

/-- The shape of a function in a store, with strings and lists for names and slices. -/
def functionShape (s : Store) (f : FunctionShape Name Slice) : FunctionShape String List where
  name := s.text f.name
  params := (s.params.list f.params).map s.paramText
  results := (s.typeLists.list f.results).map s.typeText
  body := s.stmtLists.list f.body

/-- An expression, if the store has it. -/
def expr? (s : Store) (id : ExprId) : Option (Node (ExprShape String List)) :=
  s.exprs[id]?.map fun node => ⟨s.exprShape node.shape, node.span⟩

/-- A statement, if the store has it. -/
def stmt? (s : Store) (id : StmtId) : Option (Node (StmtShape String List)) :=
  s.stmts[id]?.map fun node => ⟨s.stmtShape node.shape, node.span⟩

/-- A function, if the store has it. -/
def function? (s : Store) (id : FunctionId) : Option (Node (FunctionShape String List)) :=
  s.functions[id]?.map fun node => ⟨s.functionShape node.shape, node.span⟩

/-- The trivia, with strings for names. -/
def triviaText (s : Store) : Trivia String :=
  ⟨s.trivia.comments.map s.commentText, s.trivia.blankLines⟩

end Store

/-- The children of an expression, in source order. -/
def ExprShape.children {ν : Type} : ExprShape ν List → List ExprId
  | literal .. | name .. => []
  | paren inner => [inner]
  | neg operand => [operand]
  | binary _ left right => [left, right]
  | call callee args => callee :: args

/-- The expressions of a statement, in source order. -/
def StmtShape.children {ν : Type} : StmtShape ν List → List ExprId
  | var _ _ values => values
  | assign targets values => targets ++ values
  | ret results => results
  | expr e => [e]

end Recast
