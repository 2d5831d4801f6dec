import Recast.Clash
import Recast.Diagnostic
import Recast.Path
import Recast.Repair.Basic

/-!
# From clashes to repairs

A clash is reported at a position, and many nodes can start there. `Clash.repair?` goes outward from
the innermost of them to the first construct of the clash's category whose types are those of the
clash; without one there is no repair. `planAll` does so for a list of diagnostics.
-/

namespace Recast

/-- The id by which its parent refers to an expression. -/
def Expr.ref : Expr ExprId Placed → ExprId
  | .hole id => id
  | .literal tag _ _ | .name tag _ | .paren tag _ | .neg tag _ | .binary tag _ _ _
  | .call tag _ _ => tag.id

/-- The position of an expression in a list. -/
def indexIn? (es : List (Expr ExprId Placed)) (e : Expr ExprId Placed) : Option Nat :=
  es.findIdx? fun other => other.ref == e.ref

namespace Clash

variable (q : TypeOracle) (s : Store) (path : Path ExprId Placed)

/-- The value of a declaration of the declared type. -/
def repairDeclaration? (declared value : String) : Option Repair :=
  match path.stmtPair? with
  | some (child, .var tag _ (some type) values) =>
    if q.denoted type = some declared && q.typeOf s child.ref = some value
        && q.convertible value declared then
      (indexIn? values child).map fun i => .convert (.varValue tag.id i) declared value none
    else none
  | _ => none

/-- The conversion of an expression, if the expression just around it is a call of which it is an
argument of the argument's type. -/
def convertArgument? (param arg : String) :
    Expr ExprId Placed × Expr ExprId Placed → Option Repair
  | (child, .call tag _ args) =>
    match indexIn? args child with
    | some i =>
      if q.typeOf s child.ref = some arg && q.convertible arg param then
        some (.convert (.callArg tag.id i) param arg none)
      else none
    | none => none
  | _ => none

/-- The innermost argument of the argument's type. -/
def repairArgument? (param arg : String) : Option Repair :=
  path.exprPairs.findSome? (convertArgument? q s param arg)

/-- The value of an assignment, on condition that it is convertible to the type of its target. -/
def repairAssignment? (target source : String) : Option Repair :=
  match path.stmtPair? with
  | some (child, .assign tag targets values) =>
    match indexIn? values child with
    | some i => targets[i]?.map fun left =>
        .convert (.assignValue tag.id i) target source (some left.ref)
    | none => none
  | _ => none

/-- The balancing of the expression just around another one, if it is a binary expression with that
operand and operands of the two types. -/
def balanceAround? (leftType rightType : String) :
    Expr ExprId Placed × Expr ExprId Placed → Option Repair
  | (child, .binary tag _ left right) =>
    if (child.ref = left.ref || child.ref = right.ref) && q.typeOf s left.ref = some leftType
        && q.typeOf s right.ref = some rightType then
      some (.balance tag.id)
    else none
  | _ => none

/-- The innermost binary expression whose operands have the two types. -/
def repairOperands? (leftType rightType : String) : Option Repair :=
  path.exprPairs.findSome? (balanceAround? q s leftType rightType)

/-- The result of a `return`, to be converted to the type that its function declares. -/
def repairResult? (actual : String) : Option Repair :=
  match path.stmtPair? with
  | some (child, .ret tag results) => do
    let i ← indexIn? results child
    let declared ← path.function.results[i]?
    let want ← q.denoted declared
    let got ← q.typeOf s child.ref
    if q.convertible got want then return .convert (.returnValue tag.id i) want actual none
    else none
  | _ => none

/-- The repair that mends a clash reported at the end of a path, if there is one. -/
def repair? (clash : Clash) : Option Repair :=
  match clash with
  | declaration declared value => repairDeclaration? q s path declared value
  | argument param arg => repairArgument? q s path param arg
  | assignment target source => repairAssignment? path target source
  | operands left right => repairOperands? q s path left right
  | result _ actual => repairResult? q s path actual

end Clash

/-- A clash was reported at a position where no node starts, so the diagnostics are not about this
tree. -/
structure MisplacedClash where
  pos : Nat
  message : String
deriving DecidableEq, Repr

/-- The error as text. -/
def MisplacedClash.text (e : MisplacedClash) : String :=
  "cannot get exact node position for type error: " ++ toString e.pos ++ ": " ++ e.message

/-- The repair for one diagnostic of a program that is the view of a store. Nothing is done about
messages that report no clash. -/
def planOne (mapper : Mapper) (q : TypeOracle) (s : Store) (p : Program ExprId Placed)
    (d : Diagnostic) : Except MisplacedClash (Option Repair) :=
  match mapper d.message with
  | none => .ok none
  | some clash =>
    match p.pathAt d.pos with
    | some path =>
      if path.innermostSpan.start = d.pos then .ok (clash.repair? q s path)
      else .error ⟨d.pos, d.message⟩
    | none => .error ⟨d.pos, d.message⟩

/-- The repairs for a list of diagnostics, in order. -/
def planAll (mapper : Mapper) (q : TypeOracle) (s : Store) (ds : List Diagnostic) :
    Except MisplacedClash (List Repair) := do
  let p := s.program
  let found ← ds.mapM (planOne mapper q s p)
  return found.filterMap id

end Recast
