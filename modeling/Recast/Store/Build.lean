import Recast.Store.Basic

/-!
# From trees to stores

`Store.ofProgram` stores a tree that the parser made. Nodes are numbered children first, so the ids
of expressions are their positions in the order in which the parser finishes them; strings are
interned in source order, those of comments last.
-/

namespace Recast

namespace Store

mutual

/-- Stores an expression after its children. -/
def addExprTree (s : Store) : Expr Empty Span → ExprId × Store
  | .literal span kind lexeme => s.addExpr (.literal kind lexeme) span
  | .name span text => s.addExpr (.name text) span
  | .paren span inner =>
    let (inner, s) := s.addExprTree inner
    s.addExpr (.paren inner) span
  | .neg span operand =>
    let (operand, s) := s.addExprTree operand
    s.addExpr (.neg operand) span
  | .binary span op left right =>
    let (left, s) := s.addExprTree left
    let (right, s) := s.addExprTree right
    s.addExpr (.binary op left right) span
  | .call span callee args =>
    let (callee, s) := s.addExprTree callee
    let (args, s) := s.addExprTrees [] args
    s.addExpr (.call callee args) span

/-- Stores expressions in order; `found` has the ids of earlier ones, last first. -/
def addExprTrees (s : Store) (found : List ExprId) :
    List (Expr Empty Span) → List ExprId × Store
  | [] => (found.reverse, s)
  | e :: es =>
    let (id, s) := s.addExprTree e
    s.addExprTrees (id :: found) es

end

/-- Stores a statement after its expressions. The names that it declares are interned before the
strings of its values. An expression that stands alone takes up a list of one item in the pool, as
the first list of an assignment does. -/
def addStmtTree (s : Store) : Stmt Empty Span → StmtId × Store
  | .var span names type? values =>
    let (_, s) := internAll intern s names
    let (_, s) := s.internType? type?
    let (values, s) := s.addExprTrees [] values
    s.addStmt (.var names type? values) span
  | .assign span targets values =>
    let (targets, s) := s.addExprTrees [] targets
    let (targets, s) := s.addExprList targets
    let (values, s) := s.addExprTrees [] values
    let (values, s) := s.addExprList values
    s.pushStmt ⟨.assign targets values, span⟩
  | .ret span results =>
    let (results, s) := s.addExprTrees [] results
    s.addStmt (.ret results) span
  | .expr span e =>
    let (e, s) := s.addExprTree e
    let (_, s) := s.addExprList [e]
    s.addStmt (.expr e) span

/-- Stores a function after its statements. -/
def addFunctionTree (s : Store) (f : Function Empty Span) : Store :=
  let (name, s) := s.intern f.name
  let (params, s) := internAll internParam s f.params
  let (params, s) := s.addParams params
  let (results, s) := internAll internType s f.results
  let (results, s) := s.addTypeList results
  let (body, s) := internAll addStmtTree s f.body
  let (body, s) := s.addStmtList body
  (s.pushFunction ⟨⟨name, params, results, body⟩, f.tag⟩).2

/-- The store of a program. -/
def ofProgram (p : Program Empty Span) : Store :=
  (p.functions.foldl addFunctionTree empty).setTrivia p.trivia

end Store

end Recast
