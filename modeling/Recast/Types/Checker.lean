import Recast.Tree.Text
import Recast.Types.Complaint
import Recast.Types.Info

/-!
# Type checking

`Program.check` walks every function once. It works out the types of expressions, records what later
queries need in a `TypeInfo`, and lists what is wrong.

An expression whose type cannot be worked out has no type, and nothing is said on that account about
the operators and conversions around it: there one mistake gives one finding.
-/

namespace Recast

variable {ε : Type}

/-- Whether an expression is made of literals and operators. -/
def Expr.isConstant : Expr ε Placed → Bool
  | .hole _ | .name .. | .call .. => false
  | .literal .. => true
  | .paren _ inner => inner.isConstant
  | .neg _ operand => operand.isConstant
  | .binary _ _ left right => left.isConstant && right.isConstant

/-- The name that an expression is, parentheses aside. -/
def Expr.bareName? : Expr ε Placed → Option String
  | .name _ text => some text
  | .paren _ inner => inner.bareName?
  | _ => none

namespace Checker

/-- What the checker knows at some point of its walk. -/
structure State where
  info : TypeInfo
  /-- The variables of the current function that are declared so far. -/
  locals : Std.HashMap String (Option BasicType)
  findings : Array Finding

/-- Steps of the checker. -/
abbrev Check := StateM State

/-- Notes something wrong at a span. -/
def report (span : Span) (complaint : Complaint) : Check Unit :=
  modify fun s => { s with findings := s.findings.push ⟨complaint, span⟩ }

/-- Records the type of the variable that an identifier refers to. -/
def recordVariable (id : ExprId) (type? : Option BasicType) : Check Unit :=
  modify fun s =>
    { s with info := { s.info with bindings := s.info.bindings.insert id type? } }

/-- The type of a local variable, if there is one of that name. -/
def local? (name : String) : Check (Option (Option BasicType)) :=
  return (← get).locals[name]?

/-- Declares a local variable; yields whether it is new. -/
def declareLocal (name : String) (type? : Option BasicType) : Check Bool := do
  let isNew := !(← get).locals.contains name
  modify fun s => { s with locals := s.locals.insert name type? }
  return isNew

/-- How a message describes an expression of a known type. -/
def modeOf (locals : Std.HashMap String (Option BasicType)) (e : Expr ε Placed)
    (type : BasicType) : Mode :=
  if type.isUntyped then if e.isConstant then .constant else .value
  else if e.bareName?.any locals.contains then .variable
  else .value

/-- Quotes an expression of a known type. -/
def quote (e : Expr ε Placed) (type : BasicType) : Check Quoted :=
  return ⟨e.text, modeOf (← get).locals e type, type⟩

/-- Quotes an expression if its type is known. -/
def quote? (e : Expr ε Placed) : Option BasicType → Check (Option Quoted)
  | some type => return some (← quote e type)
  | none => return none

/-- Works out the type of a written type. -/
def resolve (t : TypeRef String) : Check (Option BasicType) := do
  match BasicType.ofKeyword? t.name with
  | some type => return some type
  | none =>
    report t.span (.undefined t.name)
    return none

/-- Works out several written types. -/
def resolveAll (ts : List (TypeRef String)) : Check (List (Option BasicType)) :=
  ts.mapM resolve

/-! ### Expressions -/

/-- Checks that a value of type `type?` fits its destination of type `target?`; with either type
unknown there is nothing to check. -/
def checkFit (value : Expr ε Placed) (type? target? : Option BasicType)
    (destination : Destination) : Check Unit := do
  match type?, target? with
  | some type, some target =>
    if !type.assignableTo target then
      report value.span (.unfit (← quote value type) target destination)
  | _, _ => return

/-- Checks the fit of values one by one. -/
def checkFits (destination : Destination) :
    List (Expr ε Placed) → (types targets : List (Option BasicType)) → Check Unit
  | value :: values, type? :: types, target? :: targets => do
    checkFit value type? target? destination
    checkFits destination values types targets
  | _, _, _ => return

/-- Checks an identifier that is used as a value. -/
def checkName (tag : Placed) (name : String) : Check (Option BasicType) := do
  match ← local? name with
  | some type? =>
    recordVariable tag.id type?
    return type?
  | none =>
    let signatures := (← get).info.signatures
    report tag.span <|
      if (BasicType.ofKeyword? name).isSome then .typeAsValue name
      else if signatures.contains name || name = "println" then .functionAsValue name
      else .undefined name
    return none

/-- Checks a negation whose operand has a type. -/
def checkNegation (tag : Placed) (operand : Expr ε Placed) (type : BasicType) :
    Check (Option BasicType) := do
  if type.isNumeric then return some type
  report tag.span (.undefinedOperator "-" (← quote operand type))
  return none

/-- Checks a binary expression whose operands have types. -/
def checkOperands (tag : Placed) (op : BinaryOp) (left right : Expr ε Placed) (l r : BasicType) :
    Check (Option BasicType) := do
  match l.unify? r with
  | some operand =>
    if op.isDefinedOn operand then return op.result? l r
    report tag.span (.undefinedOperator op.symbol (← quote left l))
    return none
  | none =>
    if l = .untypedFloat && r.isInteger then
      report left.span (.truncated left.text r)
    else if r = .untypedFloat && l.isInteger then
      report right.span (.truncated right.text l)
    else
      report tag.span (.mismatchedOperands (Expr.binary tag op left right).text l r)
    return none

/-- Records the callee of a call if it is a local variable. Variables hide types and functions. -/
def bindCallee : Expr ε Placed → Check Unit
  | .name tag name => do
    match ← local? name with
    | some type? => recordVariable tag.id type?
    | none => return
  | _ => return

/-- Checks a conversion whose operands have the given types. -/
def checkConversion (tag : Placed) (target : BasicType) (args : List (Expr ε Placed))
    (types : List (Option BasicType)) : Check (Option BasicType) := do
  match args, types with
  | [arg], [some type] =>
    if type.convertibleTo target then return some target
    report arg.span (.notConvertible (← quote arg type) target)
    return none
  | [_], _ => return none
  | [], _ =>
    report tag.span (.missingOperand target)
    return none
  | _, _ =>
    report tag.span (.extraOperand target)
    return none

/-- Checks a call of a function whose arguments have the given types. -/
def checkCall (tag : Placed) (callee : Expr ε Placed) (signature : Signature)
    (args : List (Expr ε Placed)) (types : List (Option BasicType)) : Check (Option BasicType) := do
  let function := callee.text
  if args.length < signature.requiredArgs then
    report tag.span (.missingArgument function)
  else if !signature.variadic then
    match args[signature.params.length]? with
    | some extra => report extra.span (.extraArgument function)
    | none => pure ()
  checkFits (.argument function) args types (signature.targets args.length)
  return signature.value?

mutual

/-- Checks an expression and works out its type. -/
def checkExpr : Expr ε Placed → Check (Option BasicType)
  | .hole _ => return none
  | .literal _ .int _ => return some .untypedInt
  | .literal _ .float _ => return some .untypedFloat
  | .name tag name => checkName tag name
  | .paren _ inner => checkExpr inner
  | .neg tag operand => do
    match ← checkExpr operand with
    | some type => checkNegation tag operand type
    | none => return none
  | .binary tag op left right => do
    let l? ← checkExpr left
    let r? ← checkExpr right
    match l?, r? with
    | some l, some r => checkOperands tag op left right l r
    | _, _ => return none
  | .call tag callee args => do
    bindCallee callee
    match (← get).info.callee callee with
    | .variable type? =>
      let _ ← checkExprs [] args
      report tag.span (.notFunction callee.text (← quote? callee type?))
      return none
    | .conversion target =>
      let types ← checkExprs [] args
      checkConversion tag target args types
    | .function signature =>
      let types ← checkExprs [] args
      checkCall tag callee signature args types
    | .println =>
      let _ ← checkExprs [] args
      return none
    | .undefined =>
      let _ ← checkExprs [] args
      report callee.span (.undefined callee.text)
      return none
    | .compound =>
      let _ ← checkExpr callee
      let _ ← checkExprs [] args
      report tag.span (.notFunction callee.text none)
      return none

/-- Checks expressions in order; `found` has the types of earlier ones, last first. -/
def checkExprs (found : List (Option BasicType)) :
    List (Expr ε Placed) → Check (List (Option BasicType))
  | [] => return found.reverse
  | e :: es => do
    let type? ← checkExpr e
    checkExprs (type? :: found) es

end

/-! ### Statements -/

/-- Checks the target of an assignment, which has to be a variable, and works out its type. -/
def checkTarget : Expr ε Placed → Check (Option BasicType)
  | .name tag name => checkName tag name
  | .paren _ inner => checkTarget inner
  | e => do
    report e.span (.notAssignable e.text)
    return none

/-- Declares the variables of a statement one by one. Variables without a declared type take the
default type of their value. -/
def declareAll (span : Span) (declared? : Option (Option BasicType)) :
    List String → List (Option BasicType) → Check Unit
  | [], _ => return
  | name :: names, types => do
    let type? := declared?.getD (types.head?.join.map BasicType.default)
    if !(← declareLocal name type?) then report span (.redeclared name)
    declareAll span declared? names types.tail

/-- Checks the type of a declaration, if it has one. -/
def checkDeclared? : Option (TypeRef String) → Check (Option (Option BasicType))
  | some t => some <$> resolve t
  | none => return none

/-- Checks the values of a declaration, and declares its variables. -/
def checkDeclaration (tag : Placed) (names : List String) (declared? : Option (Option BasicType))
    (values : List (Expr ε Placed)) : Check Unit := do
  let types ← checkExprs [] values
  if !values.isEmpty && values.length != names.length then
    report tag.span (.countMismatch names.length values.length)
  else match declared? with
    | some target? => checkFits .declaration values types (values.map fun _ => target?)
    | none => pure ()
  declareAll tag.span declared? names types

/-- Checks a statement of a function with the given result types. -/
def checkStmt (results : List (Option BasicType)) : Stmt ε Placed → Check Unit
  | .hole _ => return
  | .var tag names type? values => do
    checkDeclaration tag names (← checkDeclared? type?) values
  | .assign tag targets values => do
    let wanted ← targets.mapM checkTarget
    let types ← checkExprs [] values
    if targets.length = values.length then checkFits .assignment values types wanted
    else report tag.span (.countMismatch targets.length values.length)
  | .ret tag values => do
    let types ← checkExprs [] values
    if values.length = results.length then checkFits .result values types results
    else report tag.span (.resultCount types results)
  | .expr _ e => do
    let type? ← checkExpr e
    if !e.isCall then report e.span (.unused e.text (← quote? e type?))

/-! ### Functions -/

/-- Records the signature of a function. Of two functions with one name the later one counts. -/
def declareFunction (f : Function ε Placed) : Check Unit := do
  let params ← resolveAll (f.params.map Param.type)
  let results ← resolveAll f.results
  let signature := ⟨params, f.params.getLast?.any Param.variadic, results⟩
  let isNew := !(← get).info.signatures.contains f.name
  modify fun s =>
    { s with info := { s.info with signatures := s.info.signatures.insert f.name signature } }
  if !isNew then report f.span (.redeclared f.name)

/-- The parameters as local variables. A variadic parameter is a list and has no type. -/
def parameterLocals (params : List (Param String)) (types : List (Option BasicType)) :
    Std.HashMap String (Option BasicType) :=
  (params.zip types).foldl
    (fun locals (p, type?) => locals.insert p.name (if p.variadic then none else type?)) ∅

/-- Checks the body of a function against the signature recorded under its name. -/
def checkFunction (f : Function ε Placed) : Check Unit := do
  match (← get).info.signatures[f.name]? with
  | none => return
  | some signature =>
    modify fun s => { s with locals := parameterLocals f.params signature.params }
    f.body.forM (checkStmt signature.results)

/-- Checks a program: all signatures first, then the bodies. -/
def checkProgram (p : Program ε Placed) : Check Unit := do
  p.functions.forM declareFunction
  p.functions.forM checkFunction

/-- What the checker knows at the start. -/
def start : State := ⟨.empty, ∅, #[]⟩

end Checker

/-- The outcome of checking a program. -/
structure Checked where
  findings : List Finding
  info : TypeInfo

namespace Checked

/-- The findings as diagnostics, in the order in which they were made. -/
def diagnostics (c : Checked) : List Diagnostic := c.findings.map Finding.diagnostic

/-- Whether anything was found. -/
def hasErrors (c : Checked) : Bool := !c.findings.isEmpty

end Checked

/-- Checks a program. -/
def Program.check (p : Program ε Placed) : Checked :=
  let ((), state) := (Checker.checkProgram p).run Checker.start
  ⟨state.findings.toList, state.info⟩

end Recast
