import Recast.Proofs.Guard.Access
import Recast.Session

/-!
# Guarded additions to a store

The operations that add to a store, with a guard for the room in each arena and for the length of
each list. Short lists are all that they ask for.
-/

namespace Recast

variable {β γ : Type}

namespace Guarded

/-- Interns a string; a new one takes an entry. -/
def intern (s : Store) (text : String) : Guarded (Name × Store) := do
  if (s.interner.get? text).isNone then requireRoom s.interner.size
  return s.intern text

/-- Interns the name of a written type. -/
def internType (s : Store) (t : TypeRef String) : Guarded (TypeRef Name × Store) := do
  let (n, s) ← intern s t.name
  return (⟨n, t.span⟩, s)

/-- Appends a list to a pool. -/
def add (p : Pool β) (xs : List β) : Guarded (Slice β × Pool β) := do
  requireRoom p.items.size
  requireSlice xs
  return p.add xs

/-- Stores a list of expression ids. -/
def addExprList (s : Store) (ids : List ExprId) : Guarded (Slice ExprId × Store) := do
  let (slice, exprLists) ← add s.exprLists ids
  return (slice, { s with exprLists })

/-- Stores a list of statement ids. -/
def addStmtList (s : Store) (ids : List StmtId) : Guarded (Slice StmtId × Store) := do
  let (slice, stmtLists) ← add s.stmtLists ids
  return (slice, { s with stmtLists })

/-- Stores a parameter list. -/
def addParams (s : Store) (params : List (Param Name)) :
    Guarded (Slice (Param Name) × Store) := do
  let (slice, params) ← add s.params params
  return (slice, { s with params })

/-- Stores a list of types. -/
def addTypeList (s : Store) (types : List (TypeRef Name)) :
    Guarded (Slice (TypeRef Name) × Store) := do
  let (slice, typeLists) ← add s.typeLists types
  return (slice, { s with typeLists })

/-- Stores a list of names. -/
def addNameList (s : Store) (names : List Name) : Guarded (Slice Name × Store) := do
  let (slice, nameLists) ← add s.nameLists names
  return (slice, { s with nameLists })

/-- Appends an expression. -/
def pushExpr (s : Store) (node : Node (ExprShape Name Slice)) : Guarded (ExprId × Store) := do
  requireRoom s.exprs.size
  return s.pushExpr node

/-- Appends a statement. -/
def pushStmt (s : Store) (node : Node (StmtShape Name Slice)) : Guarded (StmtId × Store) := do
  requireRoom s.stmts.size
  return s.pushStmt node

/-- Appends a function. -/
def pushFunction (s : Store) (node : Node (FunctionShape Name Slice)) :
    Guarded (FunctionId × Store) := do
  requireRoom s.functions.size
  return s.pushFunction node

/-- Interns the strings and stores the lists of an expression. -/
def internExpr (s : Store) : ExprShape String List → Guarded (ExprShape Name Slice × Store)
  | .literal kind lexeme => do
    let (n, s) ← intern s lexeme
    return (.literal kind n, s)
  | .name text => do
    let (n, s) ← intern s text
    return (.name n, s)
  | .paren inner => return (.paren inner, s)
  | .neg operand => return (.neg operand, s)
  | .binary op left right => return (.binary op left right, s)
  | .call callee args => do
    let (slice, s) ← addExprList s args
    return (.call callee slice, s)

/-- Appends an expression given by its shape. -/
def addExpr (s : Store) (shape : ExprShape String List) (span : Span) :
    Guarded (ExprId × Store) := do
  let (shape, s) ← internExpr s shape
  pushExpr s ⟨shape, span⟩

end Guarded

namespace Yields

variable {s : Store}

theorem intern (s : Store) (text : String) : Yields (Guarded.intern s text) (s.intern text) := by
  unfold Guarded.intern
  split
  · exact (requireRoom _).bind (pure _)
  · exact pure _

theorem internType (s : Store) (t : TypeRef String) :
    Yields (Guarded.internType s t) (s.internType t) := (intern s t.name).bind (pure _)

theorem add {p : Pool β} {xs : List β} (short : xs.length ≤ maxItems) :
    Yields (Guarded.add p xs) (p.add xs) :=
  (requireRoom _).bind ((requireSlice short).bind (pure _))

theorem addExprList {ids : List ExprId} (short : ids.length ≤ maxItems) :
    Yields (Guarded.addExprList s ids) (s.addExprList ids) := (add short).bind (pure _)

theorem addStmtList {ids : List StmtId} (short : ids.length ≤ maxItems) :
    Yields (Guarded.addStmtList s ids) (s.addStmtList ids) := (add short).bind (pure _)

theorem addParams {params : List (Param Name)} (short : params.length ≤ maxItems) :
    Yields (Guarded.addParams s params) (s.addParams params) := (add short).bind (pure _)

theorem addTypeList {types : List (TypeRef Name)} (short : types.length ≤ maxItems) :
    Yields (Guarded.addTypeList s types) (s.addTypeList types) := (add short).bind (pure _)

theorem addNameList {names : List Name} (short : names.length ≤ maxItems) :
    Yields (Guarded.addNameList s names) (s.addNameList names) := (add short).bind (pure _)

theorem pushExpr (s : Store) (node : Node (ExprShape Name Slice)) :
    Yields (Guarded.pushExpr s node) (s.pushExpr node) := (requireRoom _).bind (pure _)

theorem pushStmt (s : Store) (node : Node (StmtShape Name Slice)) :
    Yields (Guarded.pushStmt s node) (s.pushStmt node) := (requireRoom _).bind (pure _)

theorem pushFunction (s : Store) (node : Node (FunctionShape Name Slice)) :
    Yields (Guarded.pushFunction s node) (s.pushFunction node) := (requireRoom _).bind (pure _)

/-- Of the expressions only calls have a list, which has to be short. -/
theorem addExpr {shape : ExprShape String List} (h : Session.requireExpr shape = .ok ())
    (span : Span) : Yields (Guarded.addExpr s shape span) (s.addExpr shape span) := by
  refine bind (a := s.internExpr shape) ?_ (pushExpr _ _)
  cases shape with
  | literal kind lexeme => exact (intern s lexeme).bind (pure _)
  | name text => exact (intern s text).bind (pure _)
  | paren | neg | binary => exact pure _
  | call callee args =>
    have short : args.length ≤ maxItems := by
      rw [Session.requireExpr, requireShort] at h
      split at h
      · assumption
      · cases h
    exact (addExprList short).bind (pure _)

end Yields

end Recast
