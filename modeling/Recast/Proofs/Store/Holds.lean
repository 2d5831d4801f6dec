import Recast.Proofs.Types.Remarks
import Recast.Proofs.Tree.Basic
import Recast.Store.View

/-!
# What a store holds

A store holds a tree when it has a node for each part of it. Such a tree is what one reads from the
store, and it stays in the store when nodes, lists and strings are added.
-/

namespace Recast

variable {ε α β γ : Type}

/-- The list stands at the slice, all of it. -/
structure Pool.Keeps (p : Pool β) (slice : Slice β) (xs : List β) : Prop where
  bound : slice.start + slice.length ≤ p.items.size
  list : p.list slice = xs

theorem Pool.Keeps.empty (p : Pool β) : p.Keeps .empty [] :=
  ⟨Nat.zero_le _, by simp [Pool.list, Slice.empty]⟩

theorem Pool.size_add (p : Pool β) (xs : List β) :
    (p.add xs).2.items.size = p.items.size + xs.length := by
  simp only [Pool.add, ← Array.length_toList, Array.toList_appendList, List.length_append]

theorem Pool.Keeps.add (p : Pool β) (xs : List β) : (p.add xs).2.Keeps (p.add xs).1 xs :=
  ⟨by rw [size_add]; exact Nat.le_refl _, list_add p xs⟩

theorem Pool.Keeps.after_add {p : Pool β} {slice : Slice β} {xs : List β} (h : p.Keeps slice xs)
    (ys : List β) : (p.add ys).2.Keeps slice xs where
  bound := by
    rw [size_add]
    exact Nat.le_trans h.bound (Nat.le_add_right _ _)
  list := (list_add_of_le h.bound ys).trans h.list

/-- The node of an expression, unless it is a hole. -/
def Expr.shape? : PlacedExpr → Option (ExprShape String List)
  | .hole _ => none
  | .literal _ kind lexeme => some (.literal kind lexeme)
  | .name _ text => some (.name text)
  | .paren _ inner => some (.paren inner.ref)
  | .neg _ operand => some (.neg operand.ref)
  | .binary _ op left right => some (.binary op left.ref right.ref)
  | .call _ callee args => some (.call callee.ref (args.map Expr.ref))

/-- The id by which its function refers to a statement. -/
def Stmt.ref : PlacedStmt → StmtId
  | .hole id => id
  | .var tag _ _ _ | .assign tag _ _ | .ret tag _ | .expr tag _ => tag.id

/-- The node of a statement, unless it is a hole. -/
def Stmt.shape? : PlacedStmt → Option (StmtShape String List)
  | .hole _ => none
  | .var _ names type? values => some (.var names type? (values.map Expr.ref))
  | .assign _ targets values => some (.assign (targets.map Expr.ref) (values.map Expr.ref))
  | .ret _ results => some (.ret (results.map Expr.ref))
  | .expr _ e => some (.expr e.ref)

namespace Store

/-! ### Strings -/

/-- The string of a name that the store gave out. -/
def string? (s : Store) (n : Name) : Option String := s.interner.strings[n.index]?

/-- The written type of which a store has interned the name. -/
def type? (s : Store) (t : TypeRef Name) : Option (TypeRef String) :=
  (s.string? t.name).map (⟨·, t.span⟩)

/-- The parameter of which a store has interned the names. -/
def param? (s : Store) (p : Param Name) : Option (Param String) :=
  match s.string? p.name, s.type? p.type with
  | some name, some type => some ⟨name, type, p.variadic, p.span⟩
  | _, _ => none

/-- The comment of which a store has interned the text. -/
def comment? (s : Store) (c : Comment Name) : Option (Comment String) :=
  (s.string? c.text).map (⟨·, c.span, c.trailing⟩)

theorem text_of_string? {s : Store} {n : Name} {t : String} (h : s.string? n = some t) :
    s.text n = t := by
  rw [text, Interner.text]
  rw [string?] at h
  rw [h]
  rfl

theorem typeText_of_type? {s : Store} {t : TypeRef Name} {t' : TypeRef String}
    (h : s.type? t = some t') : s.typeText t = t' := by
  obtain ⟨text, ht, rfl⟩ := Option.map_eq_some_iff.1 h
  rw [typeText, text_of_string? ht]

theorem paramText_of_param? {s : Store} {p : Param Name} {p' : Param String}
    (h : s.param? p = some p') : s.paramText p = p' := by
  unfold param? at h
  split at h
  · rename_i name type hn ht
    cases h
    rw [paramText, text_of_string? hn, typeText_of_type? ht]
  · cases h

theorem commentText_of_comment? {s : Store} {c : Comment Name} {c' : Comment String}
    (h : s.comment? c = some c') : s.commentText c = c' := by
  obtain ⟨text, ht, rfl⟩ := Option.map_eq_some_iff.1 h
  rw [commentText, text_of_string? ht]

/-- Reading a list item by item. -/
theorem map_of_map_some {f : β → γ} {g : β → Option γ} (h : ∀ {x y}, g x = some y → f x = y)
    {xs : List β} {ys : List γ} (hm : xs.map g = ys.map some) : xs.map f = ys := by
  induction xs generalizing ys with
  | nil => simpa using hm
  | cons x xs ih =>
    rcases ys with _ | ⟨y, ys⟩
    · cases hm
    · rw [List.map_cons, List.map_cons, List.cons.injEq] at hm
      rw [List.map_cons, h hm.1, ih hm.2]

/-! ### Nodes -/

/-- The store has a node of the shape for an expression. -/
def HasShape (s : Store) (id : ExprId) (span : Span) : ExprShape String List → Prop
  | .literal kind lexeme =>
    ∃ n, s.exprs[id]? = some ⟨.literal kind n, span⟩ ∧ s.string? n = some lexeme
  | .name text => ∃ n, s.exprs[id]? = some ⟨.name n, span⟩ ∧ s.string? n = some text
  | .paren inner => s.exprs[id]? = some ⟨.paren inner, span⟩
  | .neg operand => s.exprs[id]? = some ⟨.neg operand, span⟩
  | .binary op left right => s.exprs[id]? = some ⟨.binary op left right, span⟩
  | .call callee args =>
    ∃ slice, s.exprs[id]? = some ⟨.call callee slice, span⟩ ∧ s.exprLists.Keeps slice args

/-- The store has a node of the shape for a statement. -/
def HasStmtShape (s : Store) (id : StmtId) (span : Span) : StmtShape String List → Prop
  | .var names type? values => ∃ ns ns' t? vs, s.stmts[id]? = some ⟨.var ns t? vs, span⟩ ∧
    s.nameLists.Keeps ns ns' ∧ ns'.map s.string? = names.map some ∧
      t?.map s.type? = type?.map some ∧ s.exprLists.Keeps vs values
  | .assign targets values => ∃ ts vs, s.stmts[id]? = some ⟨.assign ts vs, span⟩ ∧
    s.exprLists.Keeps ts targets ∧ s.exprLists.Keeps vs values
  | .ret results => ∃ rs, s.stmts[id]? = some ⟨.ret rs, span⟩ ∧ s.exprLists.Keeps rs results
  | .expr e => s.stmts[id]? = some ⟨.expr e, span⟩

/-- The store has the node of an expression. -/
def HasExpr (s : Store) (e : PlacedExpr) : Prop :=
  ∃ shape, e.shape? = some shape ∧ s.HasShape e.ref e.span shape

/-- The store has the node of a statement. -/
def HasStmt (s : Store) (st : PlacedStmt) : Prop :=
  ∃ shape, st.shape? = some shape ∧ s.HasStmtShape st.ref st.span shape

/-- The store has the node of function number `id`. -/
structure HasFunction (s : Store) (id : FunctionId) (f : PlacedFunction) : Prop where
  tag : f.tag.id = id
  node : ∃ name ps ps' rs rs' body, s.functions[id]? = some ⟨⟨name, ps, rs, body⟩, f.tag.span⟩ ∧
    s.string? name = some f.name ∧
      (s.params.Keeps ps ps' ∧ ps'.map s.param? = f.params.map some) ∧
        (s.typeLists.Keeps rs rs' ∧ rs'.map s.type? = f.results.map some) ∧
          s.stmtLists.Keeps body (f.body.map Stmt.ref)

/-- The store has the nodes of all parts of an expression. -/
def Holds (s : Store) (e : PlacedExpr) : Prop := ∀ part ∈ e.parts, s.HasExpr part

theorem holds_iff {s : Store} {e : PlacedExpr} :
    s.Holds e ↔ s.HasExpr e ∧ ∀ child ∈ e.children, s.Holds child := by
  unfold Holds
  rw [Expr.parts_eq e, List.forall_mem_cons]
  simp only [List.forall_mem_flatMap]

/-! ### Reading -/

/-- A tree that the store holds is what one reads from it. -/
theorem exprTo_of_holds {s : Store} {e : PlacedExpr} (h : s.Holds e) :
    ∀ {depth}, e.parts.length ≤ depth → s.exprTo depth e.ref = e := by
  induction e using Expr.inductChildren with
  | step e ih =>
    intro depth hd
    obtain ⟨⟨shape, hs, hn⟩, hc⟩ := holds_iff.1 h
    rw [Expr.parts_eq, List.length_cons] at hd
    obtain ⟨depth, rfl⟩ : ∃ n, depth = n + 1 := ⟨depth - 1, by omega⟩
    have hchild : ∀ child ∈ e.children, s.exprTo depth child.ref = child := by
      intro child hm
      refine ih child hm (hc child hm) (Nat.le_trans ?_ (Nat.le_of_succ_le_succ hd))
      rw [List.flatMap_def]
      exact (List.sublist_flatten_of_mem (List.mem_map_of_mem hm)).length_le
    cases e with
    | hole => cases hs
    | literal tag kind lexeme =>
      cases hs
      obtain ⟨n, he, ht⟩ := hn
      rw [exprTo, he]
      dsimp only
      rw [text_of_string? ht]
      rfl
    | name tag text =>
      cases hs
      obtain ⟨n, he, ht⟩ := hn
      rw [exprTo, he]
      dsimp only
      rw [text_of_string? ht]
      rfl
    | paren tag inner =>
      cases hs
      rw [HasShape] at hn
      rw [exprTo, hn]
      dsimp only
      rw [hchild inner (by simp [Expr.children])]
      rfl
    | neg tag operand =>
      cases hs
      rw [HasShape] at hn
      rw [exprTo, hn]
      dsimp only
      rw [hchild operand (by simp [Expr.children])]
      rfl
    | binary tag op left right =>
      cases hs
      rw [HasShape] at hn
      rw [exprTo, hn]
      dsimp only
      rw [hchild left (by simp [Expr.children]), hchild right (by simp [Expr.children])]
      rfl
    | call tag callee args =>
      cases hs
      obtain ⟨slice, he, hk⟩ := hn
      rw [exprTo, he]
      dsimp only
      have hargs : args.map (fun arg => s.exprTo depth arg.ref) = args := by
        conv => rhs; rw [← List.map_id args]
        exact List.map_congr_left fun arg ha => hchild arg (by simp [Expr.children, ha])
      rw [hchild callee (by simp [Expr.children]), hk.list, List.map_map]
      exact congrArg _ hargs

/-- What a store holds has a place among its nodes. -/
theorem HasExpr.ref_lt {s : Store} {e : PlacedExpr} (h : s.HasExpr e) : e.ref < s.exprs.size := by
  have get_lt : ∀ {node}, s.exprs[e.ref]? = some node → e.ref < s.exprs.size := fun h =>
    (Array.getElem?_eq_some_iff.1 h).1
  obtain ⟨shape, -, hn⟩ := h
  cases shape with
  | literal | name | call =>
    obtain ⟨_, hn, -⟩ := hn
    exact get_lt hn
  | paren | neg | binary => exact get_lt hn

/-- A tree with different ids has no more parts than the store that holds it has nodes. -/
theorem Holds.length_parts_le {s : Store} {e : PlacedExpr} (h : s.Holds e)
    (distinct : (e.parts.map Expr.ref).Nodup) : e.parts.length ≤ s.exprs.size := by
  have hbound : e.parts.map Expr.ref ⊆ List.range s.exprs.size := fun id hid => by
    obtain ⟨part, hp, rfl⟩ := List.mem_map.1 hid
    exact List.mem_range.2 (h part hp).ref_lt
  simpa using distinct.length_le_of_subset hbound

/-- A tree with different ids that a store holds is what one reads from it. -/
theorem expr_of_holds {s : Store} {e : PlacedExpr} (h : s.Holds e)
    (distinct : (e.parts.map Expr.ref).Nodup) : s.expr e.ref = e :=
  exprTo_of_holds h (Nat.le_succ_of_le (h.length_parts_le distinct))

end Store

/-! ### Programs -/

namespace Program

/-- The statements of a program. -/
def stmts (p : Program ε α) : List (Stmt ε α) := p.functions.flatMap Function.body

/-- The outermost expressions of a program. -/
def exprs (p : Program ε α) : List (Expr ε α) := p.stmts.flatMap Stmt.children

/-- All expressions of a program. -/
def parts (p : Program ε α) : List (Expr ε α) := p.exprs.flatMap Expr.parts

end Program

/-- The store has the trivia. -/
structure Store.HasTrivia (s : Store) (trivia : Trivia String) : Prop where
  comments : s.trivia.comments.map s.comment? = trivia.comments.map some
  blankLines : s.trivia.blankLines = trivia.blankLines

theorem Store.HasTrivia.triviaText {s : Store} {trivia : Trivia String} (h : s.HasTrivia trivia) :
    s.triviaText = trivia := by
  rw [Store.triviaText, map_of_map_some commentText_of_comment? h.comments, h.blankLines]

/-- The store holds a program, and nodes of the program have different ids. -/
structure Store.Represents (s : Store) (p : PlacedProgram) : Prop where
  functions : s.functions.size = p.functions.length
  function : ∀ id f, p.functions[id]? = some f → s.HasFunction id f
  stmts : ∀ st ∈ p.stmts, s.HasStmt st
  exprs : ∀ e ∈ p.parts, s.HasExpr e
  distinctStmts : (p.stmts.map Stmt.ref).Nodup
  distinct : (p.parts.map Expr.ref).Nodup
  trivia : s.HasTrivia p.trivia

namespace Store

variable {s : Store} {p : PlacedProgram}

theorem Represents.holds (h : s.Represents p) {e : PlacedExpr} (he : e ∈ p.parts) : s.Holds e := by
  obtain ⟨root, hr, he⟩ := List.mem_flatMap.1 he
  exact fun part hp => h.exprs part (List.mem_flatMap.2 ⟨root, hr, Expr.mem_parts_trans hp he⟩)

/-- The lists that a list without repetitions is made of have none either. -/
theorem nodup_of_mem_flatMap {f : β → List γ} {xs : List β} (h : (xs.flatMap f).Nodup) {x : β}
    (hx : x ∈ xs) : (f x).Nodup := by
  rw [List.flatMap_def] at h
  exact h.sublist (List.sublist_flatten_of_mem (List.mem_map_of_mem hx))

/-- Different parts of an expression have different ids if those of the whole have. -/
theorem nodup_parts {root e : PlacedExpr} (h : (root.parts.map Expr.ref).Nodup)
    (he : e ∈ root.parts) : (e.parts.map Expr.ref).Nodup := by
  refine Expr.forall_parts (P := fun e => (e.parts.map Expr.ref).Nodup) (fun e he child hc => ?_) h
    he
  rw [Expr.parts_eq, List.map_cons, List.map_flatMap] at he
  exact nodup_of_mem_flatMap (List.nodup_cons.1 he).2 hc

/-- Different parts of an expression of the program have different ids. -/
theorem Represents.distinct_parts (h : s.Represents p) {e : PlacedExpr} (he : e ∈ p.parts) :
    (e.parts.map Expr.ref).Nodup := by
  obtain ⟨root, hr, he⟩ := List.mem_flatMap.1 he
  refine nodup_parts ?_ he
  have := h.distinct
  rw [Program.parts, List.map_flatMap] at this
  exact nodup_of_mem_flatMap this hr

theorem Represents.expr (h : s.Represents p) {e : PlacedExpr} (he : e ∈ p.parts) :
    s.expr e.ref = e :=
  expr_of_holds (h.holds he) (h.distinct_parts he)

theorem Represents.exprList (h : s.Represents p) {es : List PlacedExpr}
    (hes : ∀ e ∈ es, e ∈ p.parts) : (es.map Expr.ref).map s.expr = es := by
  rw [List.map_map]
  conv => rhs; rw [← List.map_id es]
  exact List.map_congr_left fun e he => h.expr (hes e he)

theorem Program.mem_parts_of_mem_children {st : Stmt ε α} {p : Program ε α} (hst : st ∈ p.stmts)
    {e : Expr ε α} (he : e ∈ st.children) : e ∈ p.parts :=
  List.mem_flatMap.2 ⟨e, List.mem_flatMap.2 ⟨st, hst, he⟩, e.self_mem_parts⟩

theorem map_typeText_of_type? {t? : Option (TypeRef Name)} {type? : Option (TypeRef String)}
    (h : t?.map s.type? = type?.map some) : t?.map s.typeText = type? := by
  cases t? with
  | none => cases type? with
    | none => rfl
    | some => cases h
  | some t => cases type? with
    | none => cases h
    | some type => rw [Option.map_some, typeText_of_type? (Option.some.inj h)]

theorem Represents.stmt (h : s.Represents p) {st : PlacedStmt} (hst : st ∈ p.stmts) :
    s.stmt st.ref = st := by
  have hparts : ∀ e ∈ st.children, e ∈ p.parts := fun e he =>
    Program.mem_parts_of_mem_children hst he
  obtain ⟨shape, hs, hn⟩ := h.stmts st hst
  cases st with
  | hole => cases hs
  | var tag names type? values =>
    cases hs
    obtain ⟨ns, ns', t?, vs, he, hns, hnames, ht, hvs⟩ := hn
    have hvalues : (values.map Expr.ref).map s.expr = values := h.exprList hparts
    rw [Store.stmt, he]
    dsimp only
    rw [Store.exprList, hvs.list, hvalues, hns.list, map_of_map_some text_of_string? hnames,
      map_typeText_of_type? ht]
    rfl
  | assign tag targets values =>
    cases hs
    obtain ⟨ts, vs, he, hts, hvs⟩ := hn
    rw [Store.stmt, he]
    dsimp only
    rw [Store.exprList, Store.exprList, hts.list, hvs.list,
      h.exprList fun e he => hparts e (List.mem_append_left _ he),
      h.exprList fun e he => hparts e (List.mem_append_right _ he)]
    rfl
  | ret tag results =>
    cases hs
    obtain ⟨rs, he, hrs⟩ := hn
    have hresults : (results.map Expr.ref).map s.expr = results := h.exprList hparts
    rw [Store.stmt, he]
    dsimp only
    rw [Store.exprList, hrs.list, hresults]
    rfl
  | expr tag e =>
    cases hs
    rw [HasStmtShape] at hn
    rw [Store.stmt, hn]
    dsimp only
    rw [h.expr (hparts e (by simp [Stmt.children]))]
    rfl

theorem map_ref_sublist (es : List PlacedExpr) :
    (es.map Expr.ref).Sublist ((es.flatMap Expr.parts).map Expr.ref) := by
  induction es with
  | nil => exact .slnil
  | cons e es ih =>
    rw [List.flatMap_cons, Expr.parts_eq, List.cons_append, List.map_cons, List.map_cons,
      List.map_append]
    exact (ih.trans (List.sublist_append_right _ _)).cons_cons _

/-- The children of an expression have different ids. -/
theorem Represents.distinct_children (h : s.Represents p) {e : PlacedExpr}
    (he : e ∈ p.parts) : (e.children.map Expr.ref).Nodup := by
  have := h.distinct_parts he
  rw [Expr.parts_eq, List.map_cons, List.nodup_cons] at this
  exact this.2.sublist (map_ref_sublist _)

/-- The expressions of a statement have different ids. -/
theorem Represents.distinct_exprs (h : s.Represents p) {st : PlacedStmt}
    (hst : st ∈ p.stmts) : (st.children.map Expr.ref).Nodup := by
  have := h.distinct
  rw [Program.parts, Program.exprs, List.flatMap_assoc, List.map_flatMap] at this
  exact (nodup_of_mem_flatMap this hst).sublist (map_ref_sublist _)

/-- A program that a store represents is what one reads from it. -/
theorem Represents.program (h : s.Represents p) : s.program = p := by
  have hfunctions : s.functions.toList.mapIdx s.functionTree = p.functions := by
    apply List.ext_getElem?
    intro id
    rw [List.getElem?_mapIdx, Array.getElem?_toList]
    cases hf : p.functions[id]? with
    | none =>
      have : s.functions[id]? = none := by
        rw [Array.getElem?_eq_none_iff, h.functions]
        exact List.getElem?_eq_none_iff.1 hf
      rw [this]
      rfl
    | some f =>
      obtain ⟨htag, name, ps, ps', rs, rs', body, hn, hname, ⟨hps, hparams⟩, ⟨hrs, hresults⟩,
        hbody⟩ := h.function id f hf
      have hstmts : (f.body.map Stmt.ref).map s.stmt = f.body := by
        rw [List.map_map]
        conv => rhs; rw [← List.map_id f.body]
        exact List.map_congr_left fun st hst => h.stmt
          (List.mem_flatMap.2 ⟨f, List.mem_of_getElem? hf, hst⟩)
      rw [hn, Option.map_some, functionTree]
      dsimp only
      rw [text_of_string? hname, hps.list, map_of_map_some paramText_of_param? hparams, hrs.list,
        map_of_map_some typeText_of_type? hresults, hbody.list, hstmts, ← htag]
  rw [Store.program, hfunctions, h.trivia.triviaText]

end Store

end Recast
