import Recast.Repair.Plan
import Recast.Types.Checker

/-!
# What the checker says, as a function of the tree

The checker walks a program with a growing state. Here its answers are given by recursion over the
tree alone: `Expr.typeIn` is the type of an expression in a scope, and the remarks of a program are
what the checker finds, each with the place that it is about.
-/

namespace Recast

/-- Expressions as a store gives them. -/
abbrev PlacedExpr := Expr ExprId Placed

/-- Statements as a store gives them. -/
abbrev PlacedStmt := Stmt ExprId Placed

/-- Functions as a store gives them. -/
abbrev PlacedFunction := Function ExprId Placed

/-- Programs as a store gives them. -/
abbrev PlacedProgram := Program ExprId Placed

variable {ε α : Type}

/-- The type that is written so, if there is one. -/
def TypeRef.type? (t : TypeRef String) : Option BasicType := BasicType.ofKeyword? t.name

/-! ### Scopes -/

/-- What names mean at some point of a program. -/
structure Scope where
  /-- The types of the variables. -/
  locals : String → Option (Option BasicType)
  signatures : String → Option Signature

namespace Scope

/-- Adds a variable. -/
def declare (S : Scope) (name : String) (type? : Option BasicType) : Scope :=
  { S with locals := fun x => if x = name then some type? else S.locals x }

/-- What a name refers to as the callee of a call. -/
def calleeNamed (S : Scope) (text : String) : Callee :=
  match S.locals text with
  | some type? => .variable type?
  | none => match BasicType.ofKeyword? text with
    | some target => .conversion target
    | none => match S.signatures text with
      | some signature => .function signature
      | none => if text = "println" then .println else .undefined

/-- The rules by which a name refers to something as the callee of a call: a variable hides a type
and a type hides a function. -/
inductive Refers (S : Scope) (text : String) : Callee → Prop
  | variable {type? : Option BasicType} (isLocal : S.locals text = some type?) :
      Refers S text (.variable type?)
  | conversion {target : BasicType} (notLocal : S.locals text = none)
      (keyword : BasicType.ofKeyword? text = some target) : Refers S text (.conversion target)
  | function {signature : Signature} (notLocal : S.locals text = none)
      (notKeyword : BasicType.ofKeyword? text = none)
      (declared : S.signatures text = some signature) : Refers S text (.function signature)
  | println (notLocal : S.locals text = none) (notDeclared : S.signatures text = none)
      (isPrintln : text = "println") : Refers S text .println
  | undefined (notLocal : S.locals text = none) (notKeyword : BasicType.ofKeyword? text = none)
      (notDeclared : S.signatures text = none) (notPrintln : text ≠ "println") :
      Refers S text .undefined

theorem refers_calleeNamed (S : Scope) (text : String) : S.Refers text (S.calleeNamed text) := by
  unfold calleeNamed
  split
  · exact .variable ‹_›
  · split
    · exact .conversion ‹_› ‹_›
    · split
      · exact .function ‹_› ‹_› ‹_›
      · split
        · exact .println ‹_› ‹_› ‹_›
        · exact .undefined ‹_› ‹_› ‹_› ‹_›

theorem refers_of_calleeNamed {S : Scope} {text : String} {callee : Callee}
    (h : S.calleeNamed text = callee) : S.Refers text callee :=
  h ▸ S.refers_calleeNamed text

theorem calleeNamed_ne_compound (S : Scope) (text : String) :
    S.calleeNamed text ≠ .compound := fun h => by
  cases refers_of_calleeNamed h

/-- What a callee refers to. -/
def callee (S : Scope) : Expr ε α → Callee
  | .name _ text => S.calleeNamed text
  | _ => .compound

/-- Adds the variables of a declaration. Variables without a declared type take the default type of
their value. -/
def declareAll (S : Scope) (declared? : Option (Option BasicType)) :
    List String → List (Option BasicType) → Scope
  | [], _ => S
  | name :: names, types =>
    (S.declare name (declared?.getD (types.head?.join.map BasicType.default))).declareAll declared?
      names types.tail

end Scope

/-! ### Types -/

/-- The type of a binary expression with operands of the given types. -/
def BinaryOp.typeOf? (op : BinaryOp) : (left right : Option BasicType) → Option BasicType
  | some l, some r => op.result? l r
  | _, _ => none

/-- The type of a conversion of operands of the given types. -/
def BasicType.converted? (target : BasicType) : List (Option BasicType) → Option BasicType
  | [some t] => if t.convertibleTo target then some target else none
  | _ => none

/-- A binary expression has a type if its operands go together and the operator is defined on them. -/
theorem BinaryOp.typeOf?_eq_some {op : BinaryOp} {left right : Option BasicType} {type : BasicType} :
    op.typeOf? left right = some type ↔
      ∃ l r operand, left = some l ∧ right = some r ∧ l.unify? r = some operand ∧
        op.isDefinedOn operand ∧ type = if op.isComparison then .untypedBool else operand := by
  constructor
  · intro h
    unfold typeOf? at h
    split at h
    · rename_i l r
      unfold result? at h
      split at h
      · cases h
      · rename_i operand hu
        split at h
        · exact ⟨l, r, operand, rfl, rfl, hu, ‹_›, (Option.some.inj h).symm⟩
        · cases h
    · cases h
  · rintro ⟨l, r, operand, rfl, rfl, hu, hd, rfl⟩
    simp [typeOf?, result?, hu, hd]

/-- A conversion has a type if it has one operand, which can be converted. -/
theorem BasicType.converted?_eq_some {target type : BasicType} {types : List (Option BasicType)} :
    target.converted? types = some type ↔
      ∃ t, types = [some t] ∧ t.convertibleTo target ∧ type = target := by
  constructor
  · intro h
    unfold converted? at h
    split at h
    · rename_i t
      split at h
      · exact ⟨t, rfl, ‹_›, (Option.some.inj h).symm⟩
      · cases h
    · cases h
  · rintro ⟨t, rfl, hc, rfl⟩
    exact if_pos hc

/-- The type of a call of the callee with arguments of the given types. -/
def Callee.typeOf? (types : List (Option BasicType)) : Callee → Option BasicType
  | conversion target => target.converted? types
  | function signature => signature.value?
  | _ => none

mutual

/-- The type of an expression in a scope. -/
def Expr.typeIn (S : Scope) : Expr ε α → Option BasicType
  | .hole _ => none
  | .literal _ .int _ => some .untypedInt
  | .literal _ .float _ => some .untypedFloat
  | .name _ text => (S.locals text).join
  | .paren _ inner => inner.typeIn S
  | .neg _ operand => (operand.typeIn S).filter BasicType.isNumeric
  | .binary _ op left right => op.typeOf? (left.typeIn S) (right.typeIn S)
  | .call _ callee args => (S.callee callee).typeOf? (Expr.typesIn S args)

/-- The types of several expressions in a scope. -/
def Expr.typesIn (S : Scope) : List (Expr ε α) → List (Option BasicType)
  | [] => []
  | e :: es => e.typeIn S :: Expr.typesIn S es

end

@[simp] theorem Expr.typesIn_eq (S : Scope) (es : List (Expr ε α)) :
    typesIn S es = es.map (typeIn S) := by
  induction es with
  | nil => rfl
  | cons e es ih => rw [typesIn, ih, List.map_cons]

/-- The scope after a statement. -/
def Stmt.scope (S : Scope) : Stmt ε α → Scope
  | .var _ names type? values =>
    S.declareAll (type?.map TypeRef.type?) names (values.map (Expr.typeIn S))
  | _ => S

/-- The signature that a function declares. -/
def Function.signature (f : Function ε α) : Signature where
  params := f.params.map fun p => p.type.type?
  variadic := f.params.getLast?.any Param.variadic
  results := f.results.map TypeRef.type?

/-- The signatures of functions by name; of two functions with one name the later one counts. -/
def signaturesOf (fs : List (Function ε α)) (name : String) : Option Signature :=
  (fs.reverse.find? (·.name == name)).map Function.signature

/-- Adds parameters to a scope. A variadic parameter is a list and has no type. -/
def Scope.declareParams (S : Scope) (params : List (Param String))
    (types : List (Option BasicType)) : Scope :=
  (params.zip types).foldl
    (fun S (p, type?) => S.declare p.name (if p.variadic then none else type?)) S

/-- The scope at the start of the body of a function whose name has the given signature. -/
def Function.scope (f : Function ε α) (signatures : String → Option Signature)
    (signature : Signature) : Scope :=
  (Scope.mk (fun _ => none) signatures).declareParams f.params signature.params

/-! ### Remarks -/

/-- A place where a value is stored that has to fit. -/
structure Fit where
  slot : Slot
  destination : Destination
  /-- The type to which a repair converts the value. -/
  wanted? : Option BasicType
  /-- The expression to whose type the value has to be convertible for a repair. -/
  goal? : Option ExprId

/-- Something that the checker finds. -/
inductive Remark where
  /-- A value of another type than its place takes. -/
  | unfit (fit : Fit) (value : PlacedExpr) (mode : Mode) (type target : BasicType)
  /-- A binary expression with operands of different types. -/
  | operands (tag : Placed) (op : BinaryOp) (left right : PlacedExpr) (l r : BasicType)
  /-- Anything else. -/
  | other (finding : Finding)

/-- What the checker reports. -/
def Remark.finding : Remark → Finding
  | unfit fit value mode type target =>
    ⟨.unfit ⟨value.text, mode, type⟩ target fit.destination, value.span⟩
  | operands tag op left right l r =>
    ⟨.mismatchedOperands (Expr.binary tag op left right).text l r, tag.span⟩
  | other finding => finding

namespace Scope

variable (S : Scope)

/-- How a message describes an expression of a known type. -/
def modeOf (e : PlacedExpr) (type : BasicType) : Mode :=
  if type.isUntyped then if e.isConstant then .constant else .value
  else if e.bareName?.any fun x => (S.locals x).isSome then .variable
  else .value

/-- Quotes an expression of a known type. -/
def quote (e : PlacedExpr) (type : BasicType) : Quoted := ⟨e.text, S.modeOf e type, type⟩

/-- What is said about a name that is used as a value. -/
def nameRemarks (tag : Placed) (name : String) : List Remark :=
  if (S.locals name).isSome then []
  else [.other ⟨if (BasicType.ofKeyword? name).isSome then .typeAsValue name
    else if (S.signatures name).isSome || name = "println" then .functionAsValue name
    else .undefined name, tag.span⟩]

/-- What is said about a negation. -/
def negationRemarks (tag : Placed) (operand : PlacedExpr) : List Remark :=
  match operand.typeIn S with
  | some type =>
    if type.isNumeric then [] else [.other ⟨.undefinedOperator "-" (S.quote operand type), tag.span⟩]
  | none => []

/-- What is said about the operands of a binary expression. -/
def operandRemarks (tag : Placed) (op : BinaryOp) (left right : PlacedExpr) : List Remark :=
  match left.typeIn S, right.typeIn S with
  | some l, some r =>
    match l.unify? r with
    | some operand =>
      if op.isDefinedOn operand then []
      else [.other ⟨.undefinedOperator op.symbol (S.quote left l), tag.span⟩]
    | none =>
      if l = .untypedFloat && r.isInteger then [.other ⟨.truncated left.text r, left.span⟩]
      else if r = .untypedFloat && l.isInteger then [.other ⟨.truncated right.text l, right.span⟩]
      else [.operands tag op left right l r]
  | _, _ => []

/-- What is said about a value at a place that takes values of type `target?`. -/
def fitRemarks (value : PlacedExpr) (target? : Option BasicType) (fit : Fit) : List Remark :=
  match value.typeIn S, target? with
  | some type, some target =>
    if type.assignableTo target then []
    else [.unfit fit value (S.modeOf value type) type target]
  | _, _ => []

/-- What is said about values at places of which the one at index `i` is `fit i` of its type. -/
def fitsRemarks (fit : Nat → Option BasicType → Fit) :
    Nat → List PlacedExpr → (targets : List (Option BasicType)) → List Remark
  | i, value :: values, target? :: targets =>
    S.fitRemarks value target? (fit i target?) ++ fitsRemarks fit (i + 1) values targets
  | _, _, _ => []

/-- What is said about a conversion. -/
def conversionRemarks (tag : Placed) (target : BasicType) : List PlacedExpr → List Remark
  | [arg] =>
    match arg.typeIn S with
    | some type =>
      if type.convertibleTo target then []
      else [.other ⟨.notConvertible (S.quote arg type) target, arg.span⟩]
    | none => []
  | [] => [.other ⟨.missingOperand target, tag.span⟩]
  | _ => [.other ⟨.extraOperand target, tag.span⟩]

/-- What is said about the number of arguments of a call. -/
def argumentCountRemarks (tag : Placed) (function : String) (signature : Signature)
    (args : List PlacedExpr) : List Remark :=
  if args.length < signature.requiredArgs then [.other ⟨.missingArgument function, tag.span⟩]
  else if signature.variadic then []
  else (args[signature.params.length]?).toList.map fun extra =>
    .other ⟨.extraArgument function, extra.span⟩

/-- What is said about a call of a function. -/
def callRemarks (tag : Placed) (function : String) (signature : Signature)
    (args : List PlacedExpr) : List Remark :=
  argumentCountRemarks tag function signature args
    ++ S.fitsRemarks (fun i target? => ⟨.callArg tag.id i, .argument function, target?, none⟩) 0 args
      (signature.targets args.length)

end Scope

mutual

/-- What is said about an expression. -/
def Expr.remarks (S : Scope) : PlacedExpr → List Remark
  | .hole _ | .literal .. => []
  | .name tag text => S.nameRemarks tag text
  | .paren _ inner => inner.remarks S
  | .neg tag operand => operand.remarks S ++ S.negationRemarks tag operand
  | .binary tag op left right =>
    left.remarks S ++ right.remarks S ++ S.operandRemarks tag op left right
  | .call tag callee args =>
    match S.callee callee with
    | .variable type? => Expr.remarksAll S args
      ++ [.other ⟨.notFunction callee.text (type?.map (S.quote callee)), tag.span⟩]
    | .conversion target => Expr.remarksAll S args ++ S.conversionRemarks tag target args
    | .function signature =>
      Expr.remarksAll S args ++ S.callRemarks tag callee.text signature args
    | .println => Expr.remarksAll S args
    | .undefined =>
      Expr.remarksAll S args ++ [.other ⟨.undefined callee.text, callee.span⟩]
    | .compound => callee.remarks S ++ Expr.remarksAll S args
      ++ [.other ⟨.notFunction callee.text none, tag.span⟩]

/-- What is said about several expressions. -/
def Expr.remarksAll (S : Scope) : List PlacedExpr → List Remark
  | [] => []
  | e :: es => e.remarks S ++ Expr.remarksAll S es

end

@[simp] theorem Expr.remarksAll_eq (S : Scope) (es : List PlacedExpr) :
    remarksAll S es = es.flatMap (remarks S) := by
  induction es with
  | nil => rfl
  | cons e es ih => rw [remarksAll, ih, List.flatMap_cons]

/-- What is said about the target of an assignment. -/
def Expr.targetRemarks (S : Scope) : PlacedExpr → List Remark
  | .name tag text => S.nameRemarks tag text
  | .paren _ inner => inner.targetRemarks S
  | e => [.other ⟨.notAssignable e.text, e.span⟩]

/-- The type of the target of an assignment. -/
def Expr.targetType? (S : Scope) : Expr ε α → Option BasicType
  | .name _ text => (S.locals text).join
  | .paren _ inner => inner.targetType? S
  | _ => none

/-- What is said about a written type. -/
def TypeRef.remarks (t : TypeRef String) : List Remark :=
  if t.type?.isSome then [] else [.other ⟨.undefined t.name, t.span⟩]

/-- What is said about the names of a declaration. -/
def Scope.declareRemarks (S : Scope) (span : Span) (declared? : Option (Option BasicType)) :
    List String → List (Option BasicType) → List Remark
  | [], _ => []
  | name :: names, types =>
    (if (S.locals name).isSome then [.other ⟨.redeclared name, span⟩] else [])
      ++ (S.declare name (declared?.getD (types.head?.join.map BasicType.default))).declareRemarks
        span declared? names types.tail

/-- What is said about the values and the names of a declaration. -/
def Scope.declarationRemarks (S : Scope) (tag : Placed) (names : List String)
    (declared? : Option (Option BasicType)) (values : List PlacedExpr) : List Remark :=
  values.flatMap (Expr.remarks S)
    ++ ((if !values.isEmpty && values.length != names.length then
        [.other ⟨.countMismatch names.length values.length, tag.span⟩]
      else declared?.toList.flatMap fun target? =>
        S.fitsRemarks (fun i target? => ⟨.varValue tag.id i, .declaration, target?, none⟩) 0 values
          (values.map fun _ => target?))
    ++ S.declareRemarks tag.span declared? names (values.map (Expr.typeIn S)))

/-- What is said about a statement of a function. The results have to fit the types `results`, and
the function declares the types `own`; these differ if the function is declared again. -/
def Stmt.remarks (S : Scope) (results own : List (Option BasicType)) : PlacedStmt → List Remark
  | .hole _ => []
  | .var tag names type? values =>
    type?.toList.flatMap TypeRef.remarks
      ++ S.declarationRemarks tag names (type?.map TypeRef.type?) values
  | .assign tag targets values =>
    targets.flatMap (Expr.targetRemarks S) ++ values.flatMap (Expr.remarks S)
      ++ (if targets.length = values.length then
          S.fitsRemarks (fun i target? =>
            ⟨.assignValue tag.id i, .assignment, target?, targets[i]?.map Expr.ref⟩) 0 values
            (targets.map (Expr.targetType? S))
        else [.other ⟨.countMismatch targets.length values.length, tag.span⟩])
  | .ret tag values =>
    values.flatMap (Expr.remarks S)
      ++ (if values.length = results.length then
          S.fitsRemarks (fun i _ => ⟨.returnValue tag.id i, .result, own[i]?.join, none⟩) 0 values
            results
        else [.other ⟨.resultCount (values.map (Expr.typeIn S)) results, tag.span⟩])
  | .expr _ e =>
    e.remarks S ++ (if e.isCall then []
      else [.other ⟨.unused e.text ((e.typeIn S).map (S.quote e)), e.span⟩])

/-- What is said about statements that follow each other. -/
def Stmt.bodyRemarks (S : Scope) (results own : List (Option BasicType)) :
    List PlacedStmt → List Remark
  | [] => []
  | s :: rest => s.remarks S results own ++ bodyRemarks (s.scope S) results own rest

/-- What is said about the body of a function. -/
def Function.remarks (signatures : String → Option Signature) (f : PlacedFunction) : List Remark :=
  match signatures f.name with
  | none => []
  | some signature =>
    Stmt.bodyRemarks (f.scope signatures signature) signature.results f.signature.results f.body

/-- What is said about the declaration of a function after other ones. -/
def Function.declarationRemarks (earlier : List PlacedFunction) (f : PlacedFunction) :
    List Remark :=
  f.params.flatMap (fun p => p.type.remarks) ++ f.results.flatMap TypeRef.remarks
    ++ (if earlier.any (·.name == f.name) then [.other ⟨.redeclared f.name, f.span⟩] else [])

/-- What is said about the declarations of functions. -/
def declarationRemarks (earlier : List PlacedFunction) : List PlacedFunction → List Remark
  | [] => []
  | f :: fs => f.declarationRemarks earlier ++ declarationRemarks (earlier ++ [f]) fs

/-- What is said about a program. -/
def Program.remarks (p : PlacedProgram) : List Remark :=
  declarationRemarks [] p.functions
    ++ p.functions.flatMap (Function.remarks (signaturesOf p.functions))

end Recast
