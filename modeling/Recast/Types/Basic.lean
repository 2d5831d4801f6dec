import Recast.Operator

/-!
# Basic types

The sized numbers and `bool`, and the untyped kinds that constant expressions have until their use
gives them a type. Which values may be stored where, which conversions are valid and what the
operators accept is decided here.
-/

namespace Recast

/-- Types of values. -/
inductive BasicType where
  | int8
  | int16
  | int32
  | int64
  | int
  | uint8
  | uint16
  | uint32
  | uint64
  | uint
  | float32
  | float64
  | bool
  | untypedInt
  | untypedFloat
  | untypedBool
deriving DecidableEq, Repr, Inhabited

namespace BasicType

/-- The types that can be written in source text. -/
def written : List BasicType :=
  [int8, int16, int32, int64, int, uint8, uint16, uint32, uint64, uint, float32, float64, bool]

/-- All types, the untyped kinds last. -/
def all : List BasicType := written ++ [untypedInt, untypedFloat, untypedBool]

/-- The type's name in source text and in messages. -/
def name : BasicType → String
  | int8 => "int8"
  | int16 => "int16"
  | int32 => "int32"
  | int64 => "int64"
  | int => "int"
  | uint8 => "uint8"
  | uint16 => "uint16"
  | uint32 => "uint32"
  | uint64 => "uint64"
  | uint => "uint"
  | float32 => "float32"
  | float64 => "float64"
  | bool => "bool"
  | untypedInt => "untyped int"
  | untypedFloat => "untyped float"
  | untypedBool => "untyped bool"

/-- The type that a source text writes as `text`. -/
def ofKeyword? (text : String) : Option BasicType := written.find? (·.name == text)

/-- The type with the given name; untyped kinds have names too. -/
def ofName? (text : String) : Option BasicType := all.find? (·.name == text)

/-- The kinds of constants without a type. -/
def isUntyped : BasicType → Bool
  | untypedInt | untypedFloat | untypedBool => true
  | _ => false

/-- Types of whole numbers. -/
def isInteger : BasicType → Bool
  | int8 | int16 | int32 | int64 | int => true
  | uint8 | uint16 | uint32 | uint64 | uint => true
  | untypedInt => true
  | _ => false

/-- Types of floating point numbers. -/
def isFloat : BasicType → Bool
  | float32 | float64 | untypedFloat => true
  | _ => false

/-- Types of numbers. -/
def isNumeric (t : BasicType) : Bool := t.isInteger || t.isFloat

/-- Types of truth values. -/
def isBoolean : BasicType → Bool
  | bool | untypedBool => true
  | _ => false

/-- The type of a variable that is declared with a value of this type only. -/
def default : BasicType → BasicType
  | untypedInt => int
  | untypedFloat => float64
  | untypedBool => bool
  | t => t

/-- Whether a value of type `t` may be stored in a `target` as it is: the types are equal, or `t` is
an untyped kind that the target can represent. -/
def assignableTo (t target : BasicType) : Bool :=
  t == target || match t with
    | untypedInt => target.isNumeric
    | untypedFloat => target.isFloat
    | untypedBool => target.isBoolean
    | _ => false

/-- Whether a value of type `t` may be converted to `target`: numbers to numbers, truth values to
truth values. -/
def convertibleTo (t target : BasicType) : Bool :=
  t == target || (t.isNumeric && target.isNumeric) || (t.isBoolean && target.isBoolean)

/-- The common type of two operands. An untyped operand takes the type of the other one if it is
assignable to it; of two untyped numbers, a float wins. -/
def unify? (t u : BasicType) : Option BasicType :=
  if t = u then some t
  else match t.isUntyped, u.isUntyped with
    | true, false => if t.assignableTo u then some u else none
    | false, true => if u.assignableTo t then some t else none
    | true, true =>
      if t.isNumeric && u.isNumeric then
        some (if t.isFloat || u.isFloat then untypedFloat else untypedInt)
      else none
    | false, false => none

theorem mem_all (t : BasicType) : t ∈ all := by cases t <;> decide

end BasicType

namespace BinaryOp

/-- Whether the operator applies to operands of a type: arithmetic and order to numbers, remainders
to whole numbers, equality to everything. -/
def isDefinedOn (op : BinaryOp) (t : BasicType) : Bool :=
  match op with
  | add | sub | mul | div | lt | ltEq | gt | gtEq => t.isNumeric
  | rem => t.isInteger
  | eq | notEq => true

/-- The type of a binary expression with operands of two types, if it is valid. -/
def result? (op : BinaryOp) (left right : BasicType) : Option BasicType :=
  match left.unify? right with
  | none => none
  | some operand =>
    if op.isDefinedOn operand then
      some (if op.isComparison then .untypedBool else operand)
    else none

end BinaryOp

end Recast
