import Recast.Diagnostic
import Recast.Types.Basic

/-!
# Complaints of the type checker

Each way in which a program can be badly typed is a `Complaint`; `Complaint.message` words it. The
pieces of source text that a message quotes are part of the complaint.
-/

namespace Recast

/-- What a message says about a quoted expression besides its type. -/
inductive Mode where
  /-- The expression is made of literals. -/
  | constant
  /-- The expression is a variable, perhaps in parentheses. -/
  | variable
  | value
deriving DecidableEq, Repr

/-- The word for a mode. -/
def Mode.word : Mode → String
  | .constant => "constant"
  | .variable => "variable"
  | .value => "value"

/-- A quoted expression with what the checker knows about it. -/
structure Quoted where
  text : String
  mode : Mode
  type : BasicType
deriving DecidableEq, Repr

/-- The expression with its type in parentheses. -/
def Quoted.render (q : Quoted) : String :=
  if q.type.isUntyped then q.text ++ " (" ++ q.type.name ++ " " ++ q.mode.word ++ ")"
  else q.text ++ " (" ++ q.mode.word ++ " of type " ++ q.type.name ++ ")"

/-- Where a value is stored. -/
inductive Destination where
  | declaration
  | argument (function : String)
  | assignment
  | result
deriving DecidableEq, Repr

/-- How a message calls a destination. -/
def Destination.describe : Destination → String
  | declaration => "variable declaration"
  | argument function => "argument to " ++ function
  | assignment => "assignment"
  | result => "return statement"

/-- Ways in which a program can be badly typed. -/
inductive Complaint where
  | undefined (name : String)
  | redeclared (name : String)
  /-- A declaration or assignment has another number of values than of variables. -/
  | countMismatch (names values : Nat)
  /-- A `return` has another number of results than its function. -/
  | resultCount (actual expected : List (Option BasicType))
  /-- A statement computes a value and drops it; the value may have no type. -/
  | unused (text : String) (quoted? : Option Quoted)
  | notAssignable (text : String)
  /-- A value does not fit where it is stored. -/
  | unfit (value : Quoted) (target : BasicType) (destination : Destination)
  | typeAsValue (name : String)
  | functionAsValue (name : String)
  | undefinedOperator (symbol : String) (operand : Quoted)
  | mismatchedOperands (text : String) (left right : BasicType)
  /-- A float constant meets an operand of a type of whole numbers. -/
  | truncated (text : String) (target : BasicType)
  /-- The callee is no function; it may have no type. -/
  | notFunction (text : String) (quoted? : Option Quoted)
  | notConvertible (value : Quoted) (target : BasicType)
  | missingOperand (target : BasicType)
  | extraOperand (target : BasicType)
  | missingArgument (function : String)
  | extraArgument (function : String)
deriving DecidableEq, Repr

namespace Complaint

/-- A number of things. -/
def count (n : Nat) (thing : String) : String :=
  toString n ++ " " ++ thing ++ (if n = 1 then "" else "s")

/-- A list of types in parentheses. -/
def tuple (types : List (Option BasicType)) : String :=
  "(" ++ ", ".intercalate (types.map fun t => (t.map BasicType.name).getD "invalid type") ++ ")"

/-- The wording of a complaint. -/
def message : Complaint → String
  | undefined name => "undefined: " ++ name
  | redeclared name => name ++ " redeclared in this block"
  | countMismatch names values =>
    "assignment mismatch: " ++ count names "variable" ++ " but " ++ count values "value"
  | resultCount actual expected =>
    (if actual.length < expected.length then "not enough return values"
      else "too many return values")
      ++ "\n\thave " ++ tuple actual ++ "\n\twant " ++ tuple expected
  | unused text quoted? => (quoted?.map Quoted.render).getD text ++ " is not used"
  | notAssignable text =>
    "cannot assign to " ++ text ++ " (neither addressable nor a map index expression)"
  | unfit value target destination =>
    "cannot use " ++ value.render ++ " as " ++ target.name ++ " value in " ++ destination.describe
      ++ (if value.type = .untypedFloat && target.isInteger then " (truncated)" else "")
  | typeAsValue name => name ++ " (type) is not an expression"
  | functionAsValue name => name ++ " (value of type func) must be called"
  | undefinedOperator symbol operand =>
    "invalid operation: operator " ++ symbol ++ " not defined on " ++ operand.render
  | mismatchedOperands text left right =>
    "invalid operation: " ++ text ++ " (mismatched types " ++ left.name ++ " and " ++ right.name
      ++ ")"
  | truncated text target => text ++ " (untyped float constant) truncated to " ++ target.name
  | notFunction text quoted? =>
    "invalid operation: cannot call non-function " ++ (quoted?.map Quoted.render).getD text
  | notConvertible value target =>
    "cannot convert " ++ value.render ++ " to type " ++ target.name
  | missingOperand target => "missing argument in conversion to " ++ target.name
  | extraOperand target => "too many arguments in conversion to " ++ target.name
  | missingArgument function => "not enough arguments in call to " ++ function
  | extraArgument function => "too many arguments in call to " ++ function

end Complaint

/-- A complaint and the piece of source text that it is about. -/
structure Finding where
  complaint : Complaint
  span : Span
deriving DecidableEq, Repr

/-- The finding as a diagnostic. -/
def Finding.diagnostic (f : Finding) : Diagnostic := ⟨f.complaint.message, f.span⟩

end Recast
