import Recast.Store.Basic

/-!
# Slots

A slot is a place in a store that holds an expression and can be given another one. A slot exists as
long as its node has the expected form and, for a place in a list, the list is long enough; lists
never change their length.
-/

namespace Recast

/-- An operand of a binary expression. -/
inductive Side where
  | left
  | right
deriving DecidableEq, Repr

/-- A place that holds an expression. -/
inductive Slot where
  /-- A value of a declaration. -/
  | varValue (stmt : StmtId) (index : Nat)
  /-- An argument of a call. -/
  | callArg (call : ExprId) (index : Nat)
  /-- A value of an assignment. -/
  | assignValue (stmt : StmtId) (index : Nat)
  /-- A result of a `return`. -/
  | returnValue (stmt : StmtId) (index : Nat)
  /-- An operand of a binary expression. -/
  | operand (binary : ExprId) (side : Side)
deriving DecidableEq, Repr

namespace Store

/-- The list in which a slot stands, and the index in it. -/
def listPosition? (s : Store) : Slot → Option (Slice ExprId × Nat)
  | .varValue id index =>
    match s.stmts[id]? with
    | some ⟨.var _ _ values, _⟩ => some (values, index)
    | _ => none
  | .assignValue id index =>
    match s.stmts[id]? with
    | some ⟨.assign _ values, _⟩ => some (values, index)
    | _ => none
  | .returnValue id index =>
    match s.stmts[id]? with
    | some ⟨.ret results, _⟩ => some (results, index)
    | _ => none
  | .callArg id index =>
    match s.exprs[id]? with
    | some ⟨.call _ args, _⟩ => some (args, index)
    | _ => none
  | .operand .. => none

/-- The expression in a slot, if the slot exists. -/
def slot? (s : Store) (slot : Slot) : Option ExprId :=
  match slot with
  | .operand id side =>
    match s.exprs[id]? with
    | some ⟨.binary _ left right, _⟩ =>
      match side with
      | .left => some left
      | .right => some right
    | _ => none
  | slot => (s.listPosition? slot).bind fun (list, index) => s.exprLists.get? list index

/-- Puts an expression into a slot, if the slot exists. -/
def setSlot? (s : Store) (slot : Slot) (e : ExprId) : Option Store :=
  match slot with
  | .operand id side =>
    match s.exprs[id]? with
    | some ⟨.binary op left right, span⟩ =>
      let shape := match side with
        | .left => .binary op e right
        | .right => .binary op left e
      some { s with exprs := s.exprs.setIfInBounds id ⟨shape, span⟩ }
    | _ => none
  | slot => (s.listPosition? slot).bind fun (list, index) =>
    (s.exprLists.set? list index e).map fun exprLists => { s with exprLists }

end Store

end Recast
