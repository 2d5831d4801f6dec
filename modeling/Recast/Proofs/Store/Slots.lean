import Recast.Proofs.Store.Holds
import Recast.Store.Slot

/-!
# Slots of stored nodes

A slot holds the child that its node has there.
-/

namespace Recast

namespace Store

variable {s : Store} {span : Span} {i : Nat}

theorem slot?_operand {id : ExprId} {op : BinaryOp} {left right : ExprId}
    (h : s.HasShape id span (.binary op left right)) (side : Side) :
    s.slot? (.operand id side) = some (match side with | .left => left | .right => right) := by
  rw [HasShape] at h
  rw [slot?, h]
  cases side <;> rfl

theorem slot?_callArg {id callee : ExprId} {args : List ExprId}
    (h : s.HasShape id span (.call callee args)) : s.slot? (.callArg id i) = args[i]? := by
  obtain ⟨slice, hn, hk⟩ := h
  simp only [slot?, listPosition?, hn, Option.bind_some, Pool.get?_eq_getElem?, hk.list]

theorem slot?_varValue {id : StmtId} {names : List String} {type? : Option (TypeRef String)}
    {values : List ExprId} (h : s.HasStmtShape id span (.var names type? values)) :
    s.slot? (.varValue id i) = values[i]? := by
  obtain ⟨ns, ns', t?, vs, hn, -, -, -, hk⟩ := h
  simp only [slot?, listPosition?, hn, Option.bind_some, Pool.get?_eq_getElem?, hk.list]

theorem slot?_assignValue {id : StmtId} {targets values : List ExprId}
    (h : s.HasStmtShape id span (.assign targets values)) :
    s.slot? (.assignValue id i) = values[i]? := by
  obtain ⟨ts, vs, hn, -, hk⟩ := h
  simp only [slot?, listPosition?, hn, Option.bind_some, Pool.get?_eq_getElem?, hk.list]

theorem slot?_returnValue {id : StmtId} {results : List ExprId}
    (h : s.HasStmtShape id span (.ret results)) : s.slot? (.returnValue id i) = results[i]? := by
  obtain ⟨rs, hn, hk⟩ := h
  simp only [slot?, listPosition?, hn, Option.bind_some, Pool.get?_eq_getElem?, hk.list]

end Store

end Recast
