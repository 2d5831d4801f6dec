import Recast.Token
import Recast.Trivia

/-!
# Syntax trees

The tree of one source text. Every node carries a tag of type `α` that says where it stands; the
parser tags nodes with spans, a store with ids and spans. A hole of type `ε` stands where a store
refers to a node that it does not have; trees of a type with `ε = Empty` have no holes, and the
parser makes those.

Names of variables, types and functions, and the lexemes of number literals, have type `ν` in the
parts that stores share: strings here, interned names in a store.
-/

namespace Recast

/-- A written type. -/
structure TypeRef (ν : Type) where
  name : ν
  span : Span
deriving DecidableEq, Repr

/-- A function parameter, `name T` or `name ...T`. -/
structure Param (ν : Type) where
  name : ν
  type : TypeRef ν
  variadic : Bool
  span : Span
deriving DecidableEq, Repr

/-- Expressions. -/
inductive Expr (ε α : Type) where
  /-- A missing expression. -/
  | hole (label : ε)
  /-- A number literal, kept as its lexeme. -/
  | literal (tag : α) (kind : LiteralKind) (lexeme : String)
  /-- A reference to a variable, function or type. -/
  | name (tag : α) (text : String)
  /-- An expression in parentheses. -/
  | paren (tag : α) (inner : Expr ε α)
  /-- A negated expression. -/
  | neg (tag : α) (operand : Expr ε α)
  | binary (tag : α) (op : BinaryOp) (left right : Expr ε α)
  /-- A call; it is a conversion when the callee names a type. -/
  | call (tag : α) (callee : Expr ε α) (args : List (Expr ε α))

/-- Statements. -/
inductive Stmt (ε α : Type) where
  /-- A missing statement. -/
  | hole (label : ε)
  /-- A declaration `var a, b T = x, y`; it has a type or values. -/
  | var (tag : α) (names : List String) (type? : Option (TypeRef String))
      (values : List (Expr ε α))
  /-- An assignment `a, b = x, y`. -/
  | assign (tag : α) (targets values : List (Expr ε α))
  /-- A `return`, with any number of results. -/
  | ret (tag : α) (results : List (Expr ε α))
  /-- An expression that stands alone. -/
  | expr (tag : α) (expr : Expr ε α)

/-- A function declaration. -/
structure Function (ε α : Type) where
  tag : α
  name : String
  params : List (Param String)
  results : List (TypeRef String)
  body : List (Stmt ε α)

/-- The functions of a source text in order, with its trivia. -/
structure Program (ε α : Type) where
  functions : List (Function ε α)
  trivia : Trivia String

variable {ε α : Type}

namespace Expr

/-- The tag of an expression that is not a hole. -/
def tag? : Expr ε α → Option α
  | hole _ => none
  | literal tag _ _ | name tag _ | paren tag _ | neg tag _ | binary tag _ _ _ | call tag _ _ =>
    some tag

/-- Where an expression stands; a hole stands nowhere and has the empty span at 0. -/
def span [Spanned α] (e : Expr ε α) : Span := (e.tag?.map Spanned.span).getD ⟨0, 0⟩

/-- The parts of an expression, in source order. -/
def children : Expr ε α → List (Expr ε α)
  | hole _ | literal .. | name .. => []
  | paren _ inner => [inner]
  | neg _ operand => [operand]
  | binary _ _ left right => [left, right]
  | call _ callee args => callee :: args

/-- Whether the expression is a call. -/
def isCall : Expr ε α → Bool
  | call .. => true
  | _ => false

end Expr

namespace Stmt

/-- The tag of a statement that is not a hole. -/
def tag? : Stmt ε α → Option α
  | hole _ => none
  | var tag _ _ _ | assign tag _ _ | ret tag _ | expr tag _ => some tag

/-- Where a statement stands; a hole stands nowhere and has the empty span at 0. -/
def span [Spanned α] (s : Stmt ε α) : Span := (s.tag?.map Spanned.span).getD ⟨0, 0⟩

/-- The expressions of a statement, in source order. -/
def children : Stmt ε α → List (Expr ε α)
  | hole _ => []
  | var _ _ _ values => values
  | assign _ targets values => targets ++ values
  | ret _ results => results
  | expr _ e => [e]

end Stmt

/-- Where a function stands. -/
def Function.span [Spanned α] (f : Function ε α) : Span := Spanned.span f.tag

end Recast
