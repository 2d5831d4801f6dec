import Recast.Store.Basic

/-!
# Conversions in a store

A conversion of `x` to a type `T` is written as the call `T(x)`. `addConversion` puts one around an
expression and `conversion?` recognises its form.

The new call stands where its argument stands, and its callee is empty, so a search by position
still finds what it found without the conversion and never ends at the callee.
-/

namespace Recast

namespace Store

/-- Appends the call `typeName(arg)`. -/
def addConversion (s : Store) (typeName : String) (arg : ExprId) : ExprId × Store :=
  let span := (s.exprs[arg]?.map Node.span).getD ⟨0, 0⟩
  let (callee, s) := s.addExpr (.name typeName) ⟨span.start, span.start⟩
  s.addExpr (.call callee [arg]) span

/-- The callee's text and the argument of a call with one argument whose callee is a name. -/
def conversion? (s : Store) (id : ExprId) : Option (String × ExprId) :=
  match s.exprs[id]? with
  | some ⟨.call callee args, _⟩ =>
    match s.exprs[callee]?, s.exprLists.list args with
    | some ⟨.name text, _⟩, [arg] => some (s.text text, arg)
    | _, _ => none
  | _ => none

end Store

end Recast
