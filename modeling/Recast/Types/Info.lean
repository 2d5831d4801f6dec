import Recast.Store.Basic
import Recast.Types.Basic
import Std.Data.HashMap

/-!
# Type information

What checking a program leaves behind: the types of the variables that identifiers refer to, by the
id of the identifier, and the signatures of functions, by name. The type of any other expression is
worked out from the tree, so `TypeInfo.typeOf` also answers for trees that were changed after the
check.
-/

namespace Recast

/-- Parameter and result types of a function. A type that is not known is absent. -/
structure Signature where
  params : List (Option BasicType)
  /-- The last parameter takes any number of arguments. -/
  variadic : Bool
  results : List (Option BasicType)
deriving DecidableEq, Repr

namespace Signature

/-- The type of the parameter that takes argument number `index`, if there is one. -/
def param? (s : Signature) (index : Nat) : Option (Option BasicType) :=
  match s.params[index]? with
  | some type? => some type?
  | none => if s.variadic then s.params.getLast? else none

/-- The types that `n` arguments have to fit, in order. Arguments beyond the parameters fit the last
parameter if the function is variadic, and nothing otherwise. -/
def targets (s : Signature) (n : Nat) : List (Option BasicType) :=
  match s.variadic, s.params.getLast? with
  | true, some last => s.params ++ List.replicate (n - s.params.length) last
  | _, _ => s.params

theorem getElem?_targets {s : Signature} {n index : Nat} (h : index < n) :
    (s.targets n)[index]? = s.param? index := by
  unfold targets param?
  rcases hv : s.variadic <;> rcases hl : s.params.getLast? with _ | last
  · cases s.params[index]? <;> rfl
  · cases s.params[index]? <;> rfl
  · cases s.params[index]? <;> rfl
  · by_cases hi : index < s.params.length
    · simp [List.getElem?_append_left hi, List.getElem?_eq_getElem hi]
    · have hi := Nat.le_of_not_lt hi
      rw [List.getElem?_append_right hi, List.getElem?_eq_none hi, List.getElem?_replicate]
      simp [show index - s.params.length < n - s.params.length by omega]

/-- The least number of arguments that a call needs. -/
def requiredArgs (s : Signature) : Nat :=
  if s.variadic then s.params.length - 1 else s.params.length

/-- The type of a call: the one result of the function. -/
def value? (s : Signature) : Option BasicType :=
  match s.results with
  | [single] => single
  | _ => none

end Signature

/-- What the callee of a call refers to. -/
inductive Callee where
  | variable (type? : Option BasicType)
  | conversion (target : BasicType)
  | function (signature : Signature)
  | println
  | undefined
  /-- The callee is not a name. -/
  | compound

/-- The types that checking a program finds. -/
structure TypeInfo where
  /-- The types of variables, by the ids of the identifiers that refer to them. -/
  bindings : Std.HashMap ExprId (Option BasicType)
  /-- The signatures of functions, by name. -/
  signatures : Std.HashMap String Signature

namespace TypeInfo

variable {ε : Type}

/-- Nothing is known. -/
def empty : TypeInfo := ⟨∅, ∅⟩

instance : Inhabited TypeInfo := ⟨empty⟩

/-- What the name `text` refers to as the callee of a call, if `id` is the id of the identifier. -/
def calleeNamed (info : TypeInfo) (id : ExprId) (text : String) : Callee :=
  match info.bindings[id]? with
  | some type? => .variable type?
  | none => match BasicType.ofKeyword? text with
    | some target => .conversion target
    | none => match info.signatures[text]? with
      | some signature => .function signature
      | none => if text = "println" then .println else .undefined

/-- What a callee refers to. -/
def callee (info : TypeInfo) : Expr ε Placed → Callee
  | .name tag text => info.calleeNamed tag.id text
  | _ => .compound

/-- The type of an expression, if it is valid. -/
def typeOf (info : TypeInfo) : Expr ε Placed → Option BasicType
  | .hole _ => none
  | .literal _ .int _ => some .untypedInt
  | .literal _ .float _ => some .untypedFloat
  | .name tag _ => info.bindings[tag.id]?.join
  | .paren _ inner => info.typeOf inner
  | .neg _ operand => (info.typeOf operand).filter BasicType.isNumeric
  | .binary _ op left right =>
    match info.typeOf left, info.typeOf right with
    | some l, some r => op.result? l r
    | _, _ => none
  | .call _ callee [arg] =>
    match info.callee callee with
    | .conversion target =>
      match info.typeOf arg with
      | some t => if t.convertibleTo target then some target else none
      | none => none
    | .function signature => signature.value?
    | _ => none
  | .call _ callee _ =>
    match info.callee callee with
    | .function signature => signature.value?
    | _ => none

/-- The hole that stands in the way of working out a type: parts are looked at from left to right, a
right operand only if the left one has a type, arguments only in conversions. -/
def typeHole? (info : TypeInfo) : Expr ε Placed → Option ε
  | .hole label => some label
  | .literal .. | .name .. => none
  | .paren _ inner => info.typeHole? inner
  | .neg _ operand => info.typeHole? operand
  | .binary _ _ left right =>
    match info.typeHole? left with
    | some label => some label
    | none => if (info.typeOf left).isSome then info.typeHole? right else none
  | .call _ (.hole label) _ => some label
  | .call _ callee [arg] =>
    match info.callee callee with
    | .conversion _ => info.typeHole? arg
    | _ => none
  | .call .. => none

end TypeInfo

end Recast
