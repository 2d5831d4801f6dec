import Recast.Proofs.Repair.Whole

/-!
# Stores within bounds

In a store within bounds each id that a node has is the id of a node, and each slice that a node has
lies within its pool. A store that holds the nodes of a program and no others is within bounds.
-/

namespace Recast

/-- All of a slice lies within the pool. -/
def Pool.Covers {β : Type} (p : Pool β) (slice : Slice β) : Prop :=
  slice.start + slice.length ≤ p.items.size

namespace Store

variable {s : Store} {p : PlacedProgram}

/-- The slice is a list of expressions of the store. -/
def ExprListInBounds (s : Store) (slice : Slice ExprId) : Prop :=
  s.exprLists.Covers slice ∧ ∀ id ∈ s.exprLists.list slice, id < s.exprs.size

/-- All that an expression refers to is in the store. -/
def ExprInBounds (s : Store) : ExprShape Name Slice → Prop
  | .literal .. | .name .. => True
  | .paren inner => inner < s.exprs.size
  | .neg operand => operand < s.exprs.size
  | .binary _ left right => left < s.exprs.size ∧ right < s.exprs.size
  | .call callee args => callee < s.exprs.size ∧ s.ExprListInBounds args

/-- All that a statement refers to is in the store. -/
def StmtInBounds (s : Store) : StmtShape Name Slice → Prop
  | .var names _ values => s.nameLists.Covers names ∧ s.ExprListInBounds values
  | .assign targets values => s.ExprListInBounds targets ∧ s.ExprListInBounds values
  | .ret results => s.ExprListInBounds results
  | .expr e => e < s.exprs.size

/-- All that a function refers to is in the store. -/
structure FunctionInBounds (s : Store) (f : FunctionShape Name Slice) : Prop where
  params : s.params.Covers f.params
  results : s.typeLists.Covers f.results
  body : s.stmtLists.Covers f.body
  stmts : ∀ id ∈ s.stmtLists.list f.body, id < s.stmts.size

/-- All that nodes refer to is in the store. -/
structure InBounds (s : Store) : Prop where
  exprs : ∀ {id : ExprId} {node}, s.exprs[id]? = some node → s.ExprInBounds node.shape
  stmts : ∀ {id : StmtId} {node}, s.stmts[id]? = some node → s.StmtInBounds node.shape
  functions : ∀ {id : FunctionId} {node}, s.functions[id]? = some node →
    s.FunctionInBounds node.shape

theorem exprListInBounds_of_keeps {slice : Slice ExprId} {es : List PlacedExpr}
    (hk : s.exprLists.Keeps slice (es.map Expr.ref)) (h : ∀ e ∈ es, s.HasExpr e) :
    s.ExprListInBounds slice := by
  refine ⟨hk.bound, ?_⟩
  rw [hk.list]
  exact List.forall_mem_map.2 fun e he => (h e he).ref_lt

theorem HasExpr.inBounds {e : PlacedExpr} (h : s.HasExpr e) (hc : ∀ c ∈ e.children, s.HasExpr c) :
    ∃ node, s.exprs[e.ref]? = some node ∧ s.ExprInBounds node.shape := by
  obtain ⟨shape, hs, hn⟩ := h
  cases e with
  | hole => cases hs
  | literal | name =>
    cases hs
    obtain ⟨_, hnode, -⟩ := hn
    exact ⟨_, hnode, trivial⟩
  | paren tag inner =>
    cases hs
    exact ⟨_, hn, (hc inner (by simp [Expr.children])).ref_lt⟩
  | neg tag operand =>
    cases hs
    exact ⟨_, hn, (hc operand (by simp [Expr.children])).ref_lt⟩
  | binary tag op left right =>
    cases hs
    exact ⟨_, hn, (hc left (by simp [Expr.children])).ref_lt,
      (hc right (by simp [Expr.children])).ref_lt⟩
  | call tag callee args =>
    cases hs
    obtain ⟨slice, hnode, hk⟩ := hn
    exact ⟨_, hnode, (hc callee List.mem_cons_self).ref_lt,
      exprListInBounds_of_keeps hk fun arg ha => hc arg (List.mem_cons_of_mem _ ha)⟩

theorem HasStmt.inBounds {st : PlacedStmt} (h : s.HasStmt st)
    (hc : ∀ c ∈ st.children, s.HasExpr c) :
    ∃ node, s.stmts[st.ref]? = some node ∧ s.StmtInBounds node.shape := by
  obtain ⟨shape, hs, hn⟩ := h
  cases st with
  | hole => cases hs
  | var tag names type? values =>
    cases hs
    obtain ⟨_, _, _, _, hnode, hns, -, -, hvs⟩ := hn
    exact ⟨_, hnode, hns.bound, exprListInBounds_of_keeps hvs hc⟩
  | assign tag targets values =>
    cases hs
    obtain ⟨_, _, hnode, hts, hvs⟩ := hn
    exact ⟨_, hnode,
      exprListInBounds_of_keeps hts fun e he => hc e (List.mem_append_left _ he),
      exprListInBounds_of_keeps hvs fun e he => hc e (List.mem_append_right _ he)⟩
  | ret tag results =>
    cases hs
    obtain ⟨_, hnode, hrs⟩ := hn
    exact ⟨_, hnode, exprListInBounds_of_keeps hrs hc⟩
  | expr tag e =>
    cases hs
    exact ⟨_, hn, (hc e (by simp [Stmt.children])).ref_lt⟩

theorem Represents.function_inBounds (h : s.Represents p) {id : FunctionId} {f : PlacedFunction}
    (hf : p.functions[id]? = some f) :
    ∃ node, s.functions[id]? = some node ∧ s.FunctionInBounds node.shape := by
  obtain ⟨-, _, _, _, _, _, _, hnode, -, ⟨hps, -⟩, ⟨hrs, -⟩, hbody⟩ := h.function id f hf
  refine ⟨_, hnode, hps.bound, hrs.bound, hbody.bound, ?_⟩
  rw [hbody.list]
  refine List.forall_mem_map.2 fun st hst => ?_
  exact (h.stmts st (List.mem_flatMap.2 ⟨f, List.mem_of_getElem? hf, hst⟩)).ref_lt

/-- A store without other nodes than those of a program is within bounds. -/
theorem Holding.inBounds (h : s.Holding p) : s.InBounds where
  exprs {id node} hnode := by
    obtain ⟨e, he, rfl⟩ := h.covered id (Array.getElem?_eq_some_iff.1 hnode).1
    obtain ⟨node', hnode', hbounds⟩ := (h.exprs e he).inBounds fun c hc =>
      h.exprs c (Program.mem_parts_of_child he hc)
    obtain rfl := Option.some.inj (hnode.symm.trans hnode')
    exact hbounds
  stmts {id node} hnode := by
    obtain ⟨st, hst, rfl⟩ := h.coveredStmts id (Array.getElem?_eq_some_iff.1 hnode).1
    obtain ⟨node', hnode', hbounds⟩ := (h.stmts st hst).inBounds fun c hc =>
      h.exprs c (Program.mem_parts_of_mem_children hst hc)
    obtain rfl := Option.some.inj (hnode.symm.trans hnode')
    exact hbounds
  functions {id node} hnode := by
    have hlt := (Array.getElem?_eq_some_iff.1 hnode).1
    rw [h.functions] at hlt
    obtain ⟨node', hnode', hbounds⟩ := h.function_inBounds (List.getElem?_eq_getElem hlt)
    obtain rfl := Option.some.inj (hnode.symm.trans hnode')
    exact hbounds

end Store

end Recast
