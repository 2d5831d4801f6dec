import Recast.Fix

/-!
# Editing sessions

A session is a store that a client reads and edits node by node, with what the last type check
found. Clients pass ids as they please, so every step makes sure that the nodes it reads exist and
that new lists are not too long; if not, it fails with a `Fault` and leaves the nodes as they were.
The strings of a node that was refused stay interned.
-/

namespace Recast

variable {ε α : Type}

/-! ### Holes -/

mutual

/-- Whether a part of an expression is missing. -/
def Expr.hasHole : Expr ε α → Bool
  | .hole _ => true
  | .literal .. | .name .. => false
  | .paren _ inner => inner.hasHole
  | .neg _ operand => operand.hasHole
  | .binary _ _ left right => left.hasHole || right.hasHole
  | .call _ callee args => callee.hasHole || Expr.anyHasHole args

/-- Whether a part of some expression of a list is missing. -/
def Expr.anyHasHole : List (Expr ε α) → Bool
  | [] => false
  | e :: es => e.hasHole || Expr.anyHasHole es

end

/-- Whether a statement or a part of it is missing. -/
def Stmt.hasHole : Stmt ε α → Bool
  | .hole _ => true
  | s => Expr.anyHasHole s.children

/-- Whether a statement of a program or a part of one is missing. -/
def Program.hasHole (p : Program ε α) : Bool := p.functions.any fun f => f.body.any Stmt.hasHole

/-! ### Faults -/

/-- Why a step of a session cannot be done. -/
inductive Fault where
  /-- The step has to read a node that the store does not have. -/
  | missingNode
  /-- A list has too many items. -/
  | tooManyItems (length : Nat)
deriving DecidableEq, Repr

/-- The fault as text; there is nothing to say about a missing node. -/
def Fault.message? : Fault → Option String
  | missingNode => none
  | tooManyItems length => some ("list of " ++ toString length ++ " items exceeds u16::MAX")

/-- Fails unless the condition holds. -/
def require (condition : Bool) : Except Fault Unit :=
  if condition then .ok () else .error .missingNode

/-- The value, which has to be there. -/
def present {β : Type} : Option β → Except Fault β
  | some x => .ok x
  | none => .error .missingNode

/-- Fails if a list is longer than the longest that a store holds. -/
def requireShort {β : Type} (items : List β) : Except Fault Unit :=
  if items.length ≤ maxItems then .ok () else .error (.tooManyItems items.length)

/-! ### Reading -/

namespace Store

/-- The text of an expression. -/
def exprText (s : Store) (id : ExprId) : Except Fault String := do
  let e := s.expr id
  require !e.hasHole
  return e.text

/-- The text of the whole program. A comment at the largest offset lies beyond all text. -/
def programText (s : Store) : Except Fault String := do
  let p := s.program
  require !p.hasHole
  return p.renderBefore (some Span.limit)

/-- The nodes that enclose a position, and whether the innermost starts there. -/
def lookup (p : Program ExprId Placed) (pos : Nat) :
    Except Fault (List (NodeId × Span) × Bool) := do
  let path? := p.pathAt pos
  require !(path?.any fun path => path.hole?.isSome)
  return ((path?.map Path.nodes).getD [], pathIsExact path? pos)

/-- The type of an expression. -/
def typeName (s : Store) (info : TypeInfo) (id : ExprId) : Except Fault (Option String) := do
  let e := s.expr id
  require (info.typeHole? e).isNone
  return (info.typeOf e).map BasicType.name

/-- The callee and the argument of a conversion. -/
def conversionOf (s : Store) (id : ExprId) : Except Fault (Option (String × ExprId)) := do
  let node ← present (s.expr? id)
  match node.shape with
  | .call callee _ => require (s.expr? callee).isSome
  | _ => pure ()
  return s.conversion? id

/-- Makes sure that the node of a slot exists. -/
def requireSlot (s : Store) : Slot → Except Fault Unit
  | .varValue id _ | .assignValue id _ | .returnValue id _ => require (s.stmts[id]?).isSome
  | .callArg id _ | .operand id _ => require (s.exprs[id]?).isSome

/-- Makes sure that a repair reads no missing node. -/
def requireRepair (s : Store) (rules : RuleTable) (info : TypeInfo) :
    Repair → Except Fault Unit
  | .convert slot target _ condition? => do
    s.requireSlot slot
    let current? := s.slot? slot
    match condition? with
    | some goal =>
      if let some current := current? then
        let _ ← s.typeName info current
      let _ ← s.typeName info goal
    | none => pure ()
    if Repair.conditionHolds info.oracle s slot condition? then
      if let some current := current? then
        match ← s.conversionOf current with
        | some (callee, arg) =>
          if callee = target then
            let _ ← s.typeName info arg
        | none => pure ()
  | .balance id => do
    let node ← present (s.expr? id)
    match node.shape with
    | .binary _ left right =>
      let _ ← s.typeName info left
      let _ ← s.typeName info right
      if (Repair.balance? rules info.oracle s id).isSome then
        let _ ← s.conversionOf left
        let _ ← s.conversionOf right
    | _ => pure ()

/-- The items of a list up to and including the first that `p` accepts. -/
def upToFirst {β : Type} (p : β → Bool) : List β → List β
  | [] => []
  | x :: xs => if p x then [x] else x :: upToFirst p xs

/-- The expressions of whose types `Clash.repair?` takes notice, in the order in which it does. -/
def consulted (q : TypeOracle) (s : Store) (path : Path ExprId Placed) : Clash → List ExprId
  | .declaration declared _ =>
    match path.stmtPair? with
    | some (child, .var _ _ (some type) _) =>
      if q.denoted type = some declared then [child.ref] else []
    | _ => []
  | .argument param arg =>
    (upToFirst (fun pair => (Clash.convertArgument? q s param arg pair).isSome)
      path.exprPairs).flatMap fun
      | (child, .call _ _ args) => if (indexIn? args child).isSome then [child.ref] else []
      | _ => []
  | .assignment .. => []
  | .operands leftType rightType =>
    (upToFirst (fun pair => (Clash.balanceAround? q s leftType rightType pair).isSome)
      path.exprPairs).flatMap fun
      | (child, .binary _ _ left right) =>
        if child.ref = left.ref || child.ref = right.ref then
          if q.typeOf s left.ref = some leftType then [left.ref, right.ref] else [left.ref]
        else []
      | _ => []
  | .result .. =>
    match path.stmtPair? with
    | some (child, .ret _ results) =>
      let want? := do
        let i ← indexIn? results child
        let declared ← path.function.results[i]?
        q.denoted declared
      if want?.isSome then [child.ref] else []
    | _ => []

/-- Makes sure that no missing node is read in working out the repair for a diagnostic. -/
def requireDiagnostic (s : Store) (info : TypeInfo) (p : Program ExprId Placed) (mapper : Mapper)
    (d : Diagnostic) : Except Fault Unit := do
  match mapper d.message with
  | none => return
  | some clash =>
    let (_, isExact) ← lookup p d.pos
    if isExact then
      match p.pathAt d.pos with
      | some path => (consulted info.oracle s path clash).forM fun id => do
        let _ ← s.typeName info id
      | none => return

end Store

/-! ### Sessions -/

/-- A store, and what the last check of it found. -/
structure Session where
  store : Store
  info : TypeInfo
  diagnostics : List Diagnostic

namespace Session

/-- A session on a store, which is checked. -/
def ofStore (store : Store) : Session :=
  let checked := store.program.check
  ⟨store, checked.info, checked.diagnostics⟩

/-- A session on a source text. -/
def ofSource (source : String) : Except ParseError Session := do
  return ofStore (.ofProgram (← parse source))

/-- A session without any nodes. -/
def new : Session := ofStore .empty

/-- Interns the name of a type; yields the type that it denotes. -/
def denotedType (s : Session) (name : String) : Option String × Session :=
  let (_, store) := s.store.intern name
  (s.info.oracle.denoted ⟨name, ⟨0, 0⟩⟩, { s with store })

/-- Appends a conversion of an expression. -/
def addConversion (s : Session) (typeName : String) (arg : ExprId) :
    Except Fault (ExprId × Session) := do
  require (s.store.exprs[arg]?).isSome
  let (id, store) := s.store.addConversion typeName arg
  return (id, { s with store })

/-- The expression in a slot. -/
def slot (s : Session) (slot : Slot) : Except Fault (Option ExprId) := do
  s.store.requireSlot slot
  return s.store.slot? slot

/-- Puts an expression into a slot; yields whether the slot exists. -/
def setSlot (s : Session) (slot : Slot) (e : ExprId) : Except Fault (Bool × Session) := do
  s.store.requireSlot slot
  match s.store.setSlot? slot e with
  | some store => return (true, { s with store })
  | none => return (false, s)

/-- Makes sure that the lists of an expression are not too long. -/
def requireExpr : ExprShape String List → Except Fault Unit
  | .call _ args => requireShort args
  | _ => .ok ()

/-- Makes sure that the lists of a statement are not too long. -/
def requireStmt : StmtShape String List → Except Fault Unit
  | .var names _ values => do
    requireShort names
    requireShort values
  | .assign targets values => do
    requireShort targets
    requireShort values
  | .ret results => requireShort results
  | .expr _ => .ok ()

/-- Makes sure that the lists of a function are not too long. -/
def requireFunction (f : FunctionShape String List) : Except Fault Unit := do
  requireShort f.params
  requireShort f.results
  requireShort f.body

/-- What a step yields, and the session after it. -/
abbrev Outcome (β : Type) := Except Fault β × Session

/-- The session with the strings of another store, and all else as it was. -/
def withStrings (s : Session) (other : Store) : Session :=
  { s with store := { s.store with interner := other.interner } }

/-- Appends an expression. -/
def addExpr (s : Session) (shape : ExprShape String List) (span : Span) : Outcome ExprId :=
  match requireExpr shape with
  | .error fault => (.error fault, s.withStrings (s.store.internExpr shape).2)
  | .ok () =>
    let (id, store) := s.store.addExpr shape span
    (.ok id, { s with store })

/-- Replaces the shape of an expression, which stays where it is. -/
def replaceExpr (s : Session) (id : ExprId) (shape : ExprShape String List) :
    Outcome (Node (ExprShape String List)) :=
  match requireExpr shape, s.store.exprs[id]? with
  | .error fault, _ => (.error fault, s.withStrings (s.store.internExpr shape).2)
  | .ok (), none => (.error .missingNode, s.withStrings (s.store.internExpr shape).2)
  | .ok (), some old =>
    let (shape, store) := s.store.internExpr shape
    let store := { store with exprs := store.exprs.setIfInBounds id ⟨shape, old.span⟩ }
    (.ok ⟨store.exprShape shape, old.span⟩, { s with store })

/-- Appends a statement. -/
def addStmt (s : Session) (shape : StmtShape String List) (span : Span) : Outcome StmtId :=
  match requireStmt shape with
  | .error fault => (.error fault, s.withStrings (s.store.internStmt shape).2)
  | .ok () =>
    let (id, store) := s.store.addStmt shape span
    (.ok id, { s with store })

/-- Appends a function. -/
def addFunction (s : Session) (shape : FunctionShape String List) (span : Span) :
    Outcome FunctionId :=
  match requireFunction shape with
  | .error fault => (.error fault, s.withStrings (s.store.internFunction shape).2)
  | .ok () =>
    let (id, store) := s.store.addFunction shape span
    (.ok id, { s with store })

/-- Replaces the comments and blank lines. -/
def setTrivia (s : Session) (trivia : Trivia String) : Session :=
  { s with store := s.store.setTrivia trivia }

/-- Checks the program again. -/
def check (s : Session) : Except Fault Session := do
  require !s.store.program.hasHole
  return ofStore s.store

/-- The repairs for a list of diagnostics of a program that is the view of a session's store. -/
def planIn (s : Session) (p : Program ExprId Placed) (mapper : Mapper) :
    List Diagnostic → Except Fault (Except MisplacedClash (List Repair))
  | [] => .ok (.ok [])
  | d :: ds => do
    s.store.requireDiagnostic s.info p mapper d
    match planOne mapper s.info.oracle s.store p d with
    | .error e => return .error e
    | .ok repair? => return (← planIn s p mapper ds).map (repair?.toList ++ ·)

/-- The repairs for a list of diagnostics. -/
def plan (s : Session) (mapper : Mapper) (ds : List Diagnostic) :
    Except Fault (Except MisplacedClash (List Repair)) :=
  s.planIn s.store.program mapper ds

/-- Applies repairs in order up to the first that reads a missing node; the session keeps what was
done before. -/
def perform (s : Session) (rules : RuleTable) (repairs : List Repair) : Outcome RepairReport :=
  let step (state : Outcome RepairReport) (r : Repair) : Outcome RepairReport :=
    match state with
    | (.error fault, s) => (.error fault, s)
    | (.ok report, s) =>
      match s.store.requireRepair rules s.info r with
      | .error fault => (.error fault, s)
      | .ok () =>
        let (store, report) := performNext rules s.info.oracle (s.store, report) r
        (.ok report, { s with store })
  repairs.foldl step (.ok .none, s)

end Session

end Recast
