import Mathlib.Logic.Relation
import Recast.Proofs.Repair.Insert
import Recast.Proofs.Store.Build

/-!
# Stores that are trees

In a store without nodes besides those of its program each slot that can be read holds an expression
of the program. Such a store is a tree: each expression stands in one place, and none is below
itself.
-/

namespace Recast

/-! ### What nodes refer to -/

namespace Store

/-- The expressions to which an expression refers. -/
def childrenOf (s : Store) (id : ExprId) : List ExprId :=
  match s.expr? id with
  | some node => node.shape.children
  | none => []

/-- The expressions to which a statement refers. -/
def childrenOfStmt (s : Store) (id : StmtId) : List ExprId :=
  match s.stmt? id with
  | some node => node.shape.children
  | none => []

/-- Each expression is referred to from exactly one place, all that is referred to is there, and no
expression is below itself. -/
structure IsTree (s : Store) : Prop where
  one_place : ((List.range s.stmts.size).flatMap s.childrenOfStmt ++
    (List.range s.exprs.size).flatMap s.childrenOf).Perm (List.range s.exprs.size)
  acyclic : ∀ id, ¬ Relation.TransGen (fun child parent => child ∈ s.childrenOf parent) id id

variable {s : Store} {span : Span}

theorem HasShape.expr? {id : ExprId} {shape : ExprShape String List}
    (h : s.HasShape id span shape) : s.expr? id = some ⟨shape, span⟩ := by
  cases shape with
  | literal | name =>
    obtain ⟨n, hn, ht⟩ := h
    rw [Store.expr?, hn, Option.map_some, exprShape, text_of_string? ht]
  | paren | neg | binary =>
    rw [Store.expr?, show _ = _ from h]
    rfl
  | call =>
    obtain ⟨slice, hn, hk⟩ := h
    rw [Store.expr?, hn, Option.map_some, exprShape, hk.list]

theorem HasStmtShape.stmt?_children {id : StmtId} {shape : StmtShape String List}
    (h : s.HasStmtShape id span shape) : s.childrenOfStmt id = shape.children := by
  cases shape with
  | var =>
    obtain ⟨ns, ns', t?, vs, hn, -, -, -, hk⟩ := h
    simp [childrenOfStmt, stmt?, hn, stmtShape, StmtShape.children, hk.list]
  | assign =>
    obtain ⟨ts, vs, hn, ht, hv⟩ := h
    simp [childrenOfStmt, stmt?, hn, stmtShape, StmtShape.children, ht.list, hv.list]
  | ret =>
    obtain ⟨rs, hn, hk⟩ := h
    simp [childrenOfStmt, stmt?, hn, stmtShape, StmtShape.children, hk.list]
  | expr =>
    simp [childrenOfStmt, stmt?, show _ = _ from h, stmtShape, StmtShape.children]

theorem HasExpr.childrenOf {e : PlacedExpr} (h : s.HasExpr e) :
    s.childrenOf e.ref = e.children.map Expr.ref := by
  obtain ⟨shape, hs, hn⟩ := h
  rw [Store.childrenOf, hn.expr?]
  exact Expr.children_of_shape? hs

theorem HasStmt.childrenOf {st : PlacedStmt} (h : s.HasStmt st) :
    s.childrenOfStmt st.ref = st.children.map Expr.ref := by
  obtain ⟨shape, hs, hn⟩ := h
  rw [hn.stmt?_children]
  exact Stmt.children_of_shape? hs

/-! ### Slots of nodes -/

section Slots

variable {slot : Slot} {current : ExprId}

/-- A slot of an expression holds what its node has there. -/
theorem HasShape.slot?_eq {id : ExprId} {shape : ExprShape String List}
    (h : s.HasShape id span shape) (hid : slot.expr? = some id) :
    s.slot? slot = match slot, shape with
      | .callArg _ i, .call _ args => args[i]?
      | .operand _ side, .binary _ left right => some (operandOn left right side)
      | _, _ => none := by
  cases slot with
  | varValue | assignValue | returnValue => cases hid
  | callArg id i =>
    obtain rfl := Option.some.inj hid
    cases shape with
    | call => exact slot?_callArg h
    | literal | name =>
      obtain ⟨n, hn, -⟩ := h
      simp [slot?, listPosition?, hn]
    | paren | neg | binary => simp [slot?, listPosition?, show _ = _ from h]
  | operand id side =>
    obtain rfl := Option.some.inj hid
    cases shape with
    | binary => exact (slot?_operand h side).trans (by cases side <;> rfl)
    | literal | name | call =>
      obtain ⟨n, hn, -⟩ := h
      simp [slot?, hn]
    | paren | neg => simp [slot?, show _ = _ from h]

/-- A slot of a statement holds what its node has there. -/
theorem HasStmtShape.slot?_eq {id : StmtId} {shape : StmtShape String List}
    (h : s.HasStmtShape id span shape) (hid : slot.stmt? = some id) :
    s.slot? slot = match slot, shape with
      | .varValue _ i, .var _ _ values => values[i]?
      | .assignValue _ i, .assign _ values => values[i]?
      | .returnValue _ i, .ret results => results[i]?
      | _, _ => none := by
  cases slot with
  | callArg | operand => cases hid
  | varValue id i =>
    obtain rfl := Option.some.inj hid
    cases shape with
    | var => exact slot?_varValue h
    | assign =>
      obtain ⟨_, _, hn, -⟩ := h
      simp [slot?, listPosition?, hn]
    | ret =>
      obtain ⟨_, hn, -⟩ := h
      simp [slot?, listPosition?, hn]
    | expr => simp [slot?, listPosition?, show _ = _ from h]
  | assignValue id i =>
    obtain rfl := Option.some.inj hid
    cases shape with
    | assign => exact slot?_assignValue h
    | var =>
      obtain ⟨_, _, _, _, hn, -⟩ := h
      simp [slot?, listPosition?, hn]
    | ret =>
      obtain ⟨_, hn, -⟩ := h
      simp [slot?, listPosition?, hn]
    | expr => simp [slot?, listPosition?, show _ = _ from h]
  | returnValue id i =>
    obtain rfl := Option.some.inj hid
    cases shape with
    | ret => exact slot?_returnValue h
    | var =>
      obtain ⟨_, _, _, _, hn, -⟩ := h
      simp [slot?, listPosition?, hn]
    | assign =>
      obtain ⟨_, _, hn, -⟩ := h
      simp [slot?, listPosition?, hn]
    | expr => simp [slot?, listPosition?, show _ = _ from h]

/-- A slot that can be read is a part of an expression or of a statement that is there. -/
theorem holder_of_slot? (h : s.slot? slot = some current) :
    (∃ id, slot.expr? = some id ∧ id < s.exprs.size) ∨
      ∃ id, slot.stmt? = some id ∧ id < s.stmts.size := by
  cases slot with
  | callArg id | operand id =>
    refine .inl ⟨id, rfl, ?_⟩
    by_contra hge
    have hnone : s.exprs[id]? = none := Array.getElem?_eq_none (Nat.le_of_not_lt hge)
    simp [slot?, listPosition?, hnone] at h
  | varValue id | assignValue id | returnValue id =>
    refine .inr ⟨id, rfl, ?_⟩
    by_contra hge
    have hnone : s.stmts[id]? = none := Array.getElem?_eq_none (Nat.le_of_not_lt hge)
    simp [slot?, listPosition?, hnone] at h

end Slots

/-! ### No other nodes -/

/-- The store represents the program and has no nodes besides those of the program. -/
structure Holding (s : Store) (p : PlacedProgram) : Prop extends s.Represents p where
  covered : ∀ id < s.exprs.size, ∃ e ∈ p.parts, e.ref = id
  coveredStmts : ∀ id < s.stmts.size, ∃ st ∈ p.stmts, st.ref = id

variable {p : PlacedProgram}

theorem Represents.holding (h : s.Represents p) (hn : s.Numbers p) : s.Holding p where
  toRepresents := h
  covered id hid := by
    have := hn.refs_perm.mem_iff.2 (List.mem_range.2 hid)
    simpa using this
  coveredStmts id hid := by
    have : id ∈ p.stmts.map Stmt.ref := hn.stmts ▸ List.mem_range.2 hid
    simpa using this

theorem HasStmt.ref_lt {st : PlacedStmt} (h : s.HasStmt st) : st.ref < s.stmts.size := by
  have get_lt : ∀ {node}, s.stmts[st.ref]? = some node → st.ref < s.stmts.size := fun h =>
    (Array.getElem?_eq_some_iff.1 h).1
  obtain ⟨shape, -, hn⟩ := h
  cases shape with
  | var =>
    obtain ⟨_, _, _, _, hn, -⟩ := hn
    exact get_lt hn
  | assign =>
    obtain ⟨_, _, hn, -⟩ := hn
    exact get_lt hn
  | ret =>
    obtain ⟨_, hn, -⟩ := hn
    exact get_lt hn
  | expr => exact get_lt hn

theorem perm_range {n : Nat} {ids : List Nat} (distinct : ids.Nodup) (lt : ∀ id ∈ ids, id < n)
    (covered : ∀ id < n, id ∈ ids) : ids.Perm (List.range n) := by
  rw [List.perm_ext_iff_of_nodup distinct List.nodup_range]
  intro id
  rw [List.mem_range]
  exact ⟨lt id, covered id⟩

theorem exists_getElem?_of_refs {es : List PlacedExpr} {i : Nat} {id : ExprId}
    (h : (es.map Expr.ref)[i]? = some id) : ∃ v, es[i]? = some v ∧ v.ref = id := by
  rwa [List.getElem?_map, Option.map_eq_some_iff] at h

namespace Holding

variable (h : s.Holding p)
include h

theorem refs_perm : (p.parts.map Expr.ref).Perm (List.range s.exprs.size) := by
  apply perm_range h.distinct
  · exact List.forall_mem_map.2 fun e he => (h.exprs e he).ref_lt
  · intro id hid
    obtain ⟨e, he, rfl⟩ := h.covered id hid
    exact List.mem_map_of_mem he

theorem stmtRefs_perm : (p.stmts.map Stmt.ref).Perm (List.range s.stmts.size) := by
  apply perm_range h.distinctStmts
  · exact List.forall_mem_map.2 fun st hst => (h.stmts st hst).ref_lt
  · intro id hid
    obtain ⟨st, hst, rfl⟩ := h.coveredStmts id hid
    exact List.mem_map_of_mem hst

/-- A child of an expression has a smaller tree below it. -/
theorem parts_lt {child parent : ExprId} (hchild : child ∈ s.childrenOf parent) :
    (s.expr child).parts.length < (s.expr parent).parts.length := by
  have hparent : parent < s.exprs.size := by
    by_contra hge
    have hnone : s.exprs[parent]? = none := Array.getElem?_eq_none (Nat.le_of_not_lt hge)
    simp [Store.childrenOf, Store.expr?, hnone] at hchild
  obtain ⟨e, he, rfl⟩ := h.covered parent hparent
  rw [(h.exprs e he).childrenOf] at hchild
  obtain ⟨c, hc, rfl⟩ := List.mem_map.1 hchild
  rw [h.expr he, h.expr (Program.mem_parts_of_child he hc), Expr.parts_eq e, List.length_cons,
    List.flatMap_def]
  exact Nat.lt_succ_of_le (List.sublist_flatten_of_mem (List.mem_map_of_mem hc)).length_le

/-- A store without other nodes than those of a program is a tree. -/
theorem isTree : s.IsTree where
  one_place := by
    have hstmts : ((List.range s.stmts.size).flatMap s.childrenOfStmt).Perm
        (p.exprs.map Expr.ref) := by
      refine (h.stmtRefs_perm.symm.flatMap_right _).trans (.of_eq ?_)
      rw [List.flatMap_map, Program.exprs, List.map_flatMap]
      exact List.flatMap_congr fun st hst => (h.stmts st hst).childrenOf
    have hexprs : ((List.range s.exprs.size).flatMap s.childrenOf).Perm
        ((p.parts.flatMap Expr.children).map Expr.ref) := by
      refine (h.refs_perm.symm.flatMap_right _).trans (.of_eq ?_)
      rw [List.flatMap_map, List.map_flatMap]
      exact List.flatMap_congr fun e he => (h.exprs e he).childrenOf
    refine (hstmts.append hexprs).trans ?_
    rw [← List.map_append]
    exact (p.parts_perm.symm.map Expr.ref).trans h.refs_perm
  acyclic := by
    have below : ∀ a b, Relation.TransGen (fun child parent => child ∈ s.childrenOf parent) a b →
        (s.expr a).parts.length < (s.expr b).parts.length := by
      intro a b hab
      induction hab with
      | single hstep => exact h.parts_lt hstep
      | tail _ hstep ih => exact Nat.lt_trans ih (h.parts_lt hstep)
    intro id hcycle
    exact Nat.lt_irrefl _ (below id id hcycle)

/-- A slot of an expression that can be read holds a child of the expression. -/
theorem exists_fills_of_expr {slot : Slot} {current : ExprId} {e : PlacedExpr} (he : e ∈ p.parts)
    (hid : slot.expr? = some e.ref) (hslot : s.slot? slot = some current) :
    ∃ v, p.Fills slot v ∧ v.ref = current := by
  obtain ⟨shape, hs, hn⟩ := h.exprs e he
  rw [hn.slot?_eq hid] at hslot
  cases slot with
  | varValue | assignValue | returnValue => cases hid
  | callArg id i =>
    cases e with
    | hole => cases hs
    | call tag callee args =>
      cases hs
      obtain rfl : id = tag.id := Option.some.inj hid
      obtain ⟨v, hv, href⟩ := exists_getElem?_of_refs hslot
      exact ⟨v, .callArg he hv, href⟩
    | _ =>
      cases hs
      cases hslot
  | operand id side =>
    cases e with
    | hole => cases hs
    | binary tag op left right =>
      cases hs
      obtain rfl : id = tag.id := Option.some.inj hid
      cases side with
      | left => exact ⟨left, .left he, Option.some.inj hslot⟩
      | right => exact ⟨right, .right he, Option.some.inj hslot⟩
    | _ =>
      cases hs
      cases hslot

/-- A slot of a statement that can be read holds a value of the statement. -/
theorem exists_fills_of_stmt {slot : Slot} {current : ExprId} {st : PlacedStmt}
    (hst : st ∈ p.stmts) (hid : slot.stmt? = some st.ref) (hslot : s.slot? slot = some current) :
    ∃ v, p.Fills slot v ∧ v.ref = current := by
  obtain ⟨shape, hs, hn⟩ := h.stmts st hst
  rw [hn.slot?_eq hid] at hslot
  cases slot with
  | callArg | operand => cases hid
  | varValue id i =>
    cases st with
    | hole => cases hs
    | var tag names type? values =>
      cases hs
      obtain rfl : id = tag.id := Option.some.inj hid
      obtain ⟨v, hv, href⟩ := exists_getElem?_of_refs hslot
      exact ⟨v, .varValue hst hv, href⟩
    | _ =>
      cases hs
      cases hslot
  | assignValue id i =>
    cases st with
    | hole => cases hs
    | assign tag targets values =>
      cases hs
      obtain rfl : id = tag.id := Option.some.inj hid
      obtain ⟨v, hv, href⟩ := exists_getElem?_of_refs hslot
      exact ⟨v, .assignValue hst hv, href⟩
    | _ =>
      cases hs
      cases hslot
  | returnValue id i =>
    cases st with
    | hole => cases hs
    | ret tag values =>
      cases hs
      obtain rfl : id = tag.id := Option.some.inj hid
      obtain ⟨v, hv, href⟩ := exists_getElem?_of_refs hslot
      exact ⟨v, .returnValue hst hv, href⟩
    | _ =>
      cases hs
      cases hslot

/-- A slot that can be read holds an expression of the program. -/
theorem exists_fills {slot : Slot} {current : ExprId} (hslot : s.slot? slot = some current) :
    ∃ v, p.Fills slot v ∧ v.ref = current := by
  rcases holder_of_slot? hslot with ⟨id, hid, hlt⟩ | ⟨id, hid, hlt⟩
  · obtain ⟨e, he, rfl⟩ := h.covered id hlt
    exact h.exists_fills_of_expr he hid hslot
  · obtain ⟨st, hst, rfl⟩ := h.coveredStmts id hlt
    exact h.exists_fills_of_stmt hst hid hslot

end Holding

end Store

end Recast
