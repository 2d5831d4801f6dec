import Recast.Store.Basic

/-!
# From stores to trees

`Store.expr` reads the tree below an expression, `Store.program` the whole program. An id that names
no node becomes a hole. Reading goes at most one level deeper than there are nodes, which is as deep
as a store without cycles can be.
-/

namespace Recast

namespace Store

/-- The tree below an expression, down to a given depth. -/
def exprTo (s : Store) : (depth : Nat) → ExprId → Expr ExprId Placed
  | 0, id => .hole id
  | depth + 1, id =>
    match s.exprs[id]? with
    | none => .hole id
    | some ⟨shape, span⟩ =>
      match shape with
      | .literal kind lexeme => .literal ⟨id, span⟩ kind (s.text lexeme)
      | .name text => .name ⟨id, span⟩ (s.text text)
      | .paren inner => .paren ⟨id, span⟩ (s.exprTo depth inner)
      | .neg operand => .neg ⟨id, span⟩ (s.exprTo depth operand)
      | .binary op left right =>
        .binary ⟨id, span⟩ op (s.exprTo depth left) (s.exprTo depth right)
      | .call callee args =>
        .call ⟨id, span⟩ (s.exprTo depth callee)
          ((s.exprLists.list args).map fun arg => s.exprTo depth arg)

/-- The tree below an expression. -/
def expr (s : Store) (id : ExprId) : Expr ExprId Placed := s.exprTo (s.exprs.size + 1) id

/-- The trees below the expressions of a list. -/
def exprList (s : Store) (slice : Slice ExprId) : List (Expr ExprId Placed) :=
  (s.exprLists.list slice).map s.expr

/-- A statement as a tree. -/
def stmt (s : Store) (id : StmtId) : Stmt ExprId Placed :=
  match s.stmts[id]? with
  | none => .hole id
  | some ⟨shape, span⟩ =>
    match shape with
    | .var names type? values =>
      .var ⟨id, span⟩ ((s.nameLists.list names).map s.text) (type?.map s.typeText)
        (s.exprList values)
    | .assign targets values => .assign ⟨id, span⟩ (s.exprList targets) (s.exprList values)
    | .ret results => .ret ⟨id, span⟩ (s.exprList results)
    | .expr e => .expr ⟨id, span⟩ (s.expr e)

/-- A function as a tree. -/
def functionTree (s : Store) (id : FunctionId) (node : Node (FunctionShape Name Slice)) :
    Function ExprId Placed where
  tag := ⟨id, node.span⟩
  name := s.text node.shape.name
  params := (s.params.list node.shape.params).map s.paramText
  results := (s.typeLists.list node.shape.results).map s.typeText
  body := (s.stmtLists.list node.shape.body).map s.stmt

/-- The functions with the trivia. -/
def program (s : Store) : Program ExprId Placed where
  functions := s.functions.toList.mapIdx s.functionTree
  trivia := s.triviaText

end Store

end Recast
