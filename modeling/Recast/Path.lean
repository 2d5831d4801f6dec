import Recast.Store.Basic

/-!
# Paths to a position

`Program.pathAt p pos` finds the nodes that enclose a byte offset: a function, a statement of its
body, and expressions each of which is a part of the one before. Where a node and a part of it both
enclose the position, the part is on the path as well, so the innermost node is the deepest one.

A hole could stand anywhere, so a search that comes to a hole stops there.
-/

namespace Recast

variable {ε α : Type} [Spanned α]

/-- Whether an expression encloses a position. -/
def Expr.encloses (pos : Nat) : Expr ε α → Bool
  | .hole _ => true
  | e => e.span.contains pos

/-- Whether a statement encloses a position. -/
def Stmt.encloses (pos : Nat) : Stmt ε α → Bool
  | .hole _ => true
  | s => s.span.contains pos

/-- Whether a function encloses a position. -/
def Function.encloses (pos : Nat) (f : Function ε α) : Bool := f.span.contains pos

mutual

/-- An expression and the parts of it that enclose a position, outermost first. -/
def Expr.chain (pos : Nat) : Expr ε α → List (Expr ε α)
  | .hole label => [.hole label]
  | .literal tag kind lexeme => [.literal tag kind lexeme]
  | .name tag text => [.name tag text]
  | .paren tag inner =>
    .paren tag inner :: (if inner.encloses pos then inner.chain pos else [])
  | .neg tag operand =>
    .neg tag operand :: (if operand.encloses pos then operand.chain pos else [])
  | .binary tag op left right =>
    .binary tag op left right ::
      (if left.encloses pos then left.chain pos
      else if right.encloses pos then right.chain pos
      else [])
  | .call tag callee args =>
    .call tag callee args ::
      (if callee.encloses pos then callee.chain pos else Expr.firstChain pos args)

/-- The chain of the first of some expressions that encloses a position. -/
def Expr.firstChain (pos : Nat) : List (Expr ε α) → List (Expr ε α)
  | [] => []
  | e :: es => if e.encloses pos then e.chain pos else Expr.firstChain pos es

end

/-- The nodes that enclose a position. -/
structure Path (ε α : Type) where
  function : Function ε α
  /-- The statement of the function's body that encloses the position. -/
  stmt? : Option (Stmt ε α)
  /-- The enclosing expressions of that statement, innermost first. -/
  exprs : List (Expr ε α)

/-- The path to a position, if a function encloses it. -/
def Program.pathAt (p : Program ε α) (pos : Nat) : Option (Path ε α) :=
  match p.functions.find? (·.encloses pos) with
  | none => none
  | some f =>
    let stmt? := f.body.find? (·.encloses pos)
    let chain := match stmt? with
      | none => []
      | some s => Expr.firstChain pos s.children
    some ⟨f, stmt?, chain.reverse⟩

namespace Path

/-- Where the innermost node stands. -/
def innermostSpan (path : Path ε α) : Span :=
  match path.exprs, path.stmt? with
  | e :: _, _ => e.span
  | [], some s => s.span
  | [], none => path.function.span

/-- Each expression of the path with the one just around it, innermost first. -/
def exprPairs (path : Path ε α) : List (Expr ε α × Expr ε α) := path.exprs.zip path.exprs.tail

/-- The outermost expression of the path with the statement around it. -/
def stmtPair? (path : Path ε α) : Option (Expr ε α × Stmt ε α) :=
  match path.exprs.getLast?, path.stmt? with
  | some e, some s => some (e, s)
  | _, _ => none

/-- The label of the hole at which the search ended. -/
def hole? : Path ε α → Option ε
  | ⟨_, _, .hole label :: _⟩ => some label
  | ⟨_, some (.hole label), _⟩ => some label
  | _ => none

end Path

/-- A node of any sort, by its id. -/
inductive NodeId where
  | function (id : FunctionId)
  | stmt (id : StmtId)
  | expr (id : ExprId)
deriving DecidableEq, Repr

/-- The nodes of a path with their spans, innermost first. -/
def Path.nodes (path : Path ExprId Placed) : List (NodeId × Span) :=
  (path.exprs.filterMap fun e => e.tag?.map fun tag => (.expr tag.id, tag.span))
    ++ (path.stmt?.bind Stmt.tag?).toList.map (fun tag => (.stmt tag.id, tag.span))
    ++ [(.function path.function.tag.id, path.function.tag.span)]

/-- Whether a path was found and its innermost node starts right at the position. -/
def pathIsExact (path? : Option (Path ε α)) (pos : Nat) : Bool :=
  path?.any fun path => path.innermostSpan.start == pos

end Recast
