import Recast.Store.Slot
import Recast.Store.View
import Recast.Types.Info

/-!
# Repairs

A repair names a place in a store and says what to put there. It holds ids only, so a list of
repairs can be worked out before any of them is performed.

A `TypeOracle` tells what types there are, by their names only; `TypeInfo.oracle` answers from what
the type checker found.
-/

namespace Recast

/-- What has to be known about types in order to plan and perform repairs. -/
structure TypeOracle where
  /-- The name of an expression's type, if it has a valid one. -/
  typeOf : Store → ExprId → Option String
  /-- The name of the type that a written type denotes. -/
  denoted : TypeRef String → Option String
  /-- Whether a value of one type may be converted to another. -/
  convertible : String → String → Bool

/-- Whether values of one type may be converted to another, by the names of the types. -/
def BasicType.convertibleNames (source target : String) : Bool :=
  match ofName? source, ofName? target with
  | some t, some u => t.convertibleTo u
  | _, _ => false

/-- The answers that follow from what the type checker found. -/
def TypeInfo.oracle (info : TypeInfo) : TypeOracle where
  typeOf s id := (info.typeOf (s.expr id)).map BasicType.name
  denoted t := (BasicType.ofKeyword? t.name).map BasicType.name
  convertible := BasicType.convertibleNames

/-- A change of the tree. -/
inductive Repair where
  /-- Converts the value in a slot to the type `target`. The value had the type `source` when the
  clash was reported. With a condition, nothing is done unless the value is convertible to the type
  of that expression. -/
  | convert (slot : Slot) (target source : String) (condition? : Option ExprId)
  /-- Converts one operand of a binary expression to the type of the other one; which one is decided
  when the repair is performed. -/
  | balance (binary : ExprId)
deriving DecidableEq, Repr

/-- What became of a list of repairs. -/
structure RepairReport where
  /-- Repairs in the list. -/
  planned : Nat
  /-- Repairs that changed the tree. -/
  applied : Nat
  /-- Repairs that had nothing to change. -/
  unchanged : Nat
deriving DecidableEq, Repr

end Recast
