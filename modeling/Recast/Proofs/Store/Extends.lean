import Recast.Proofs.Store.Holds

/-!
# Stores that grow

Adding nodes, lists and strings leaves what a store has in place: the new store extends the old one.
Each operation that adds something is specified by that and by what the new store has besides.
-/

namespace Recast

variable {ε α β γ : Type}

namespace Store

/-- All that the store `s` has stands at the same place in the store `t`. -/
structure Extends (s t : Store) : Prop where
  size : s.exprs.size ≤ t.exprs.size
  exprs : ∀ {id : Nat} {node}, s.exprs[id]? = some node → t.exprs[id]? = some node
  stmts : ∀ {id : Nat} {node}, s.stmts[id]? = some node → t.stmts[id]? = some node
  functions : ∀ {id : Nat} {node}, s.functions[id]? = some node → t.functions[id]? = some node
  strings : ∀ {n text}, s.string? n = some text → t.string? n = some text
  params : ∀ {slice xs}, s.params.Keeps slice xs → t.params.Keeps slice xs
  exprLists : ∀ {slice xs}, s.exprLists.Keeps slice xs → t.exprLists.Keeps slice xs
  stmtLists : ∀ {slice xs}, s.stmtLists.Keeps slice xs → t.stmtLists.Keeps slice xs
  typeLists : ∀ {slice xs}, s.typeLists.Keeps slice xs → t.typeLists.Keeps slice xs
  nameLists : ∀ {slice xs}, s.nameLists.Keeps slice xs → t.nameLists.Keeps slice xs

variable {s t u : Store}

theorem Extends.refl (s : Store) : Extends s s :=
  ⟨Nat.le_refl _, id, id, id, id, id, id, id, id, id⟩

theorem Extends.trans (h : Extends s t) (h' : Extends t u) : Extends s u where
  size := Nat.le_trans h.size h'.size
  exprs e := h'.exprs (h.exprs e)
  stmts e := h'.stmts (h.stmts e)
  functions e := h'.functions (h.functions e)
  strings e := h'.strings (h.strings e)
  params e := h'.params (h.params e)
  exprLists e := h'.exprLists (h.exprLists e)
  stmtLists e := h'.stmtLists (h.stmtLists e)
  typeLists e := h'.typeLists (h.typeLists e)
  nameLists e := h'.nameLists (h.nameLists e)

/-! ### What extending keeps -/

theorem Extends.type? (h : Extends s t) {x : TypeRef Name} {y : TypeRef String}
    (hx : s.type? x = some y) : t.type? x = some y := by
  obtain ⟨text, ht, rfl⟩ := Option.map_eq_some_iff.1 hx
  rw [Store.type?, h.strings ht]
  rfl

theorem Extends.map_type? (h : Extends s t) {x? : Option (TypeRef Name)}
    {y? : Option (TypeRef String)} (hx : x?.map s.type? = y?.map some) :
    x?.map t.type? = y?.map some := by
  cases x? with
  | none => exact hx
  | some x => cases y? with
    | none => cases hx
    | some y => exact congrArg some (h.type? (Option.some.inj hx))

theorem Extends.param? (h : Extends s t) {x : Param Name} {y : Param String}
    (hx : s.param? x = some y) : t.param? x = some y := by
  unfold Store.param? at hx ⊢
  split at hx
  · rename_i hn ht
    rw [h.strings hn, h.type? ht]
    exact hx
  · cases hx

theorem Extends.comment? (h : Extends s t) {x : Comment Name} {y : Comment String}
    (hx : s.comment? x = some y) : t.comment? x = some y := by
  obtain ⟨text, ht, rfl⟩ := Option.map_eq_some_iff.1 hx
  rw [Store.comment?, h.strings ht]
  rfl

/-- What can be read item by item from a store can be read from a store that extends it. -/
theorem map_some_mono {f g : β → Option γ} (h : ∀ {x y}, f x = some y → g x = some y)
    {xs : List β} {ys : List γ} (hm : xs.map f = ys.map some) : xs.map g = ys.map some := by
  induction xs generalizing ys with
  | nil => exact hm
  | cons x xs ih =>
    rcases ys with _ | ⟨y, ys⟩
    · cases hm
    · rw [List.map_cons, List.map_cons, List.cons.injEq] at hm
      rw [List.map_cons, List.map_cons, h hm.1, ih hm.2]

theorem Extends.hasShape (h : Extends s t) {id : ExprId} {span : Span}
    {shape : ExprShape String List} (hn : s.HasShape id span shape) : t.HasShape id span shape := by
  cases shape with
  | literal | name =>
    obtain ⟨n, hn, ht⟩ := hn
    exact ⟨n, h.exprs hn, h.strings ht⟩
  | paren | neg | binary => exact h.exprs hn
  | call =>
    obtain ⟨slice, hn, hk⟩ := hn
    exact ⟨slice, h.exprs hn, h.exprLists hk⟩

theorem Extends.hasExpr (h : Extends s t) {e : PlacedExpr} (he : s.HasExpr e) : t.HasExpr e := by
  obtain ⟨shape, hs, hn⟩ := he
  exact ⟨shape, hs, h.hasShape hn⟩

theorem Extends.holds (h : Extends s t) {e : PlacedExpr} (he : s.Holds e) : t.Holds e :=
  fun part hp => h.hasExpr (he part hp)

theorem Extends.hasStmt (h : Extends s t) {st : PlacedStmt} (hst : s.HasStmt st) :
    t.HasStmt st := by
  obtain ⟨shape, hs, hn⟩ := hst
  refine ⟨shape, hs, ?_⟩
  cases shape with
  | var names type? values =>
    obtain ⟨ns, ns', t?, vs, hn, hns, hnames, ht, hvs⟩ := hn
    exact ⟨ns, ns', t?, vs, h.stmts hn, h.nameLists hns, map_some_mono h.strings hnames,
      h.map_type? ht, h.exprLists hvs⟩
  | assign targets values =>
    obtain ⟨ts, vs, hn, hts, hvs⟩ := hn
    exact ⟨ts, vs, h.stmts hn, h.exprLists hts, h.exprLists hvs⟩
  | ret results =>
    obtain ⟨rs, hn, hrs⟩ := hn
    exact ⟨rs, h.stmts hn, h.exprLists hrs⟩
  | expr => exact h.stmts hn

theorem Extends.hasFunction (h : Extends s t) {id : FunctionId} {f : PlacedFunction}
    (hf : s.HasFunction id f) : t.HasFunction id f := by
  obtain ⟨htag, name, ps, ps', rs, rs', body, hn, hname, ⟨hps, hparams⟩, ⟨hrs, hresults⟩, hbody⟩ :=
    hf
  exact ⟨htag, name, ps, ps', rs, rs', body, h.functions hn, h.strings hname,
    ⟨h.params hps, map_some_mono h.param? hparams⟩,
    ⟨h.typeLists hrs, map_some_mono h.type? hresults⟩, h.stmtLists hbody⟩

/-! ### Strings -/

theorem intern_spec (s : Store) (text : String) :
    Extends s (s.intern text).2 ∧ (s.intern text).2.string? (s.intern text).1 = some text ∧
      (s.intern text).2.exprs = s.exprs ∧ (s.intern text).2.stmts = s.stmts ∧
        (s.intern text).2.functions = s.functions := by
  refine ⟨⟨Nat.le_refl _, id, id, id, fun {n t} h => ?_, id, id, id, id, id⟩, ?_, rfl, rfl, rfl⟩
  · exact Interner.get?_eq_some_iff.1
      (Interner.get?_intern_of_get? (Interner.get?_eq_some_iff.2 h) text)
  · exact Interner.get?_eq_some_iff.1 (Interner.get?_intern s.interner text)

/-- A step that adds strings and lists but no nodes. -/
structure Adds (s t : Store) : Prop where
  extends_ : Extends s t
  exprs : t.exprs = s.exprs
  stmts : t.stmts = s.stmts
  functions : t.functions = s.functions

theorem Adds.refl (s : Store) : Adds s s := ⟨.refl s, rfl, rfl, rfl⟩

theorem Adds.trans (h : Adds s t) (h' : Adds t u) : Adds s u :=
  ⟨h.extends_.trans h'.extends_, h'.exprs.trans h.exprs, h'.stmts.trans h.stmts,
    h'.functions.trans h.functions⟩

theorem adds_intern (s : Store) (text : String) : Adds s (s.intern text).2 :=
  have h := intern_spec s text
  ⟨h.1, h.2.2.1, h.2.2.2.1, h.2.2.2.2⟩

theorem string?_intern (s : Store) (text : String) :
    (s.intern text).2.string? (s.intern text).1 = some text := (intern_spec s text).2.1

theorem adds_internType (s : Store) (x : TypeRef String) : Adds s (s.internType x).2 :=
  adds_intern s x.name

theorem type?_internType (s : Store) (x : TypeRef String) :
    (s.internType x).2.type? (s.internType x).1 = some x := by
  show ((s.intern x.name).2.string? (s.intern x.name).1).map _ = _
  rw [string?_intern]
  rfl

theorem internType?_spec (s : Store) (type? : Option (TypeRef String)) :
    Adds s (s.internType? type?).2 ∧
      (s.internType? type?).1.map (s.internType? type?).2.type? = type?.map some := by
  cases type? with
  | none => exact ⟨.refl s, rfl⟩
  | some type => exact ⟨adds_internType s type, congrArg some (type?_internType s type)⟩

theorem adds_internParam (s : Store) (p : Param String) : Adds s (s.internParam p).2 :=
  (adds_intern s p.name).trans (adds_internType _ p.type)

theorem param?_internParam (s : Store) (p : Param String) :
    (s.internParam p).2.param? (s.internParam p).1 = some p := by
  have hname := (adds_internType (s.intern p.name).2 p.type).extends_.strings
    (string?_intern s p.name)
  have htype := type?_internType (s.intern p.name).2 p.type
  simp only [Store.param?, Store.internParam, hname, htype]

theorem adds_internComment (s : Store) (c : Comment String) : Adds s (s.internComment c).2 :=
  adds_intern s c.text

theorem comment?_internComment (s : Store) (c : Comment String) :
    (s.internComment c).2.comment? (s.internComment c).1 = some c := by
  show ((s.intern c.text).2.string? (s.intern c.text).1).map _ = _
  rw [string?_intern]
  rfl

/-! ### Lists -/

theorem internAll_cons (f : Store → β → γ × Store) (s : Store) (x : β) (xs : List β) :
    internAll f s (x :: xs)
      = ((f s x).1 :: (internAll f (f s x).2 xs).1, (internAll f (f s x).2 xs).2) := by
  let step (acc : List γ × Store) (x : β) : List γ × Store :=
    ((f acc.2 x).1 :: acc.1, (f acc.2 x).2)
  have hstep : ∀ s xs, internAll f s xs
      = ((xs.foldl step ([], s)).1.reverse, (xs.foldl step ([], s)).2) := fun _ _ => rfl
  have hfold : ∀ (xs : List β) (found : List γ) (s : Store), xs.foldl step (found, s)
      = ((xs.foldl step ([], s)).1 ++ found, (xs.foldl step ([], s)).2) := by
    intro xs
    induction xs with
    | nil => exact fun _ _ => rfl
    | cons x xs ih =>
      intro found s
      rw [List.foldl_cons, List.foldl_cons, ih, ih [_]]
      simp [step]
  rw [hstep, hstep, List.foldl_cons, hfold]
  simp [step]

/-- Interning all items of a list makes them readable. -/
theorem internAll_spec {f : Store → β → γ × Store} {g : Store → γ → Option β}
    (adds : ∀ s x, Adds s (f s x).2) (reads : ∀ s x, g (f s x).2 (f s x).1 = some x)
    (mono : ∀ {s t y x}, Extends s t → g s y = some x → g t y = some x) (xs : List β) :
    ∀ s, Adds s (internAll f s xs).2 ∧
      (internAll f s xs).1.map (g (internAll f s xs).2) = xs.map some := by
  induction xs with
  | nil => exact fun s => ⟨.refl s, rfl⟩
  | cons x xs ih =>
    intro s
    rw [internAll_cons]
    obtain ⟨hadds, hreads⟩ := ih (f s x).2
    refine ⟨(adds s x).trans hadds, ?_⟩
    rw [List.map_cons, List.map_cons, mono hadds.extends_ (reads s x), hreads]

theorem addExprList_spec (s : Store) (ids : List ExprId) :
    Adds s (s.addExprList ids).2 ∧
      (s.addExprList ids).2.exprLists.Keeps (s.addExprList ids).1 ids :=
  ⟨⟨⟨Nat.le_refl _, id, id, id, id, id, fun h => h.after_add ids, id, id, id⟩, rfl, rfl, rfl⟩,
    .add _ ids⟩

theorem addStmtList_spec (s : Store) (ids : List StmtId) :
    Adds s (s.addStmtList ids).2 ∧
      (s.addStmtList ids).2.stmtLists.Keeps (s.addStmtList ids).1 ids :=
  ⟨⟨⟨Nat.le_refl _, id, id, id, id, id, id, fun h => h.after_add ids, id, id⟩, rfl, rfl, rfl⟩,
    .add _ ids⟩

theorem addParams_spec (s : Store) (params : List (Param Name)) :
    Adds s (s.addParams params).2 ∧
      (s.addParams params).2.params.Keeps (s.addParams params).1 params :=
  ⟨⟨⟨Nat.le_refl _, id, id, id, id, fun h => h.after_add params, id, id, id, id⟩, rfl, rfl, rfl⟩,
    .add _ params⟩

theorem addTypeList_spec (s : Store) (types : List (TypeRef Name)) :
    Adds s (s.addTypeList types).2 ∧
      (s.addTypeList types).2.typeLists.Keeps (s.addTypeList types).1 types :=
  ⟨⟨⟨Nat.le_refl _, id, id, id, id, id, id, id, fun h => h.after_add types, id⟩, rfl, rfl, rfl⟩,
    .add _ types⟩

theorem addNameList_spec (s : Store) (names : List Name) :
    Adds s (s.addNameList names).2 ∧
      (s.addNameList names).2.nameLists.Keeps (s.addNameList names).1 names :=
  ⟨⟨⟨Nat.le_refl _, id, id, id, id, id, id, id, id, fun h => h.after_add names⟩, rfl, rfl, rfl⟩,
    .add _ names⟩

/-! ### Nodes -/

theorem getElem?_push_of_some {xs : Array β} {x y : β} {i : Nat} (h : xs[i]? = some x) :
    (xs.push y)[i]? = some x := by
  have hlt := (Array.getElem?_eq_some_iff.1 h).1
  rw [Array.getElem?_push, if_neg (Nat.ne_of_lt hlt), h]

theorem extends_pushExpr (s : Store) (node : Node (ExprShape Name Slice)) :
    Extends s (s.pushExpr node).2 :=
  ⟨by simp [pushExpr], getElem?_push_of_some, id, id, id, id, id, id, id, id⟩

theorem extends_pushStmt (s : Store) (node : Node (StmtShape Name Slice)) :
    Extends s (s.pushStmt node).2 :=
  ⟨Nat.le_refl _, id, getElem?_push_of_some, id, id, id, id, id, id, id⟩

theorem extends_pushFunction (s : Store) (node : Node (FunctionShape Name Slice)) :
    Extends s (s.pushFunction node).2 :=
  ⟨Nat.le_refl _, id, id, getElem?_push_of_some, id, id, id, id, id, id⟩

/-- Adding an expression gives it the next id. -/
structure AddsExpr (s t : Store) (shape : ExprShape String List) (span : Span) : Prop where
  extends_ : Extends s t
  size : t.exprs.size = s.exprs.size + 1
  stmts : t.stmts = s.stmts
  functions : t.functions = s.functions
  shape : t.HasShape s.exprs.size span shape

theorem getElem?_pushExpr (s : Store) (node : Node (ExprShape Name Slice)) :
    (s.pushExpr node).2.exprs[s.exprs.size]? = some node := by
  simp [pushExpr]

theorem addsExpr (s : Store) (shape : ExprShape String List) (span : Span) :
    (s.addExpr shape span).1 = s.exprs.size ∧ AddsExpr s (s.addExpr shape span).2 shape span := by
  have hpush : ∀ (raw : ExprShape Name Slice) {t : Store}, Adds s t →
      (t.pushExpr ⟨raw, span⟩).1 = s.exprs.size ∧ Extends s (t.pushExpr ⟨raw, span⟩).2 ∧
        (t.pushExpr ⟨raw, span⟩).2.exprs.size = s.exprs.size + 1 ∧
          (t.pushExpr ⟨raw, span⟩).2.exprs[s.exprs.size]? = some ⟨raw, span⟩ := by
    intro raw t h
    have := getElem?_pushExpr t ⟨raw, span⟩
    rw [h.exprs] at this
    refine ⟨congrArg Array.size h.exprs, h.extends_.trans (extends_pushExpr t _), ?_, this⟩
    simp [pushExpr, h.exprs]
  cases shape with
  | literal kind lexeme =>
    have ha := adds_intern s lexeme
    obtain ⟨hid, hext, hsize, hnode⟩ := hpush (.literal kind (s.intern lexeme).1) ha
    exact ⟨hid, hext, hsize, ha.stmts, ha.functions, _, hnode,
      (extends_pushExpr _ _).strings (string?_intern s lexeme)⟩
  | name text =>
    have ha := adds_intern s text
    obtain ⟨hid, hext, hsize, hnode⟩ := hpush (.name (s.intern text).1) ha
    exact ⟨hid, hext, hsize, ha.stmts, ha.functions, _, hnode,
      (extends_pushExpr _ _).strings (string?_intern s text)⟩
  | paren inner =>
    obtain ⟨hid, hext, hsize, hnode⟩ := hpush (.paren inner) (.refl s)
    exact ⟨hid, hext, hsize, rfl, rfl, hnode⟩
  | neg operand =>
    obtain ⟨hid, hext, hsize, hnode⟩ := hpush (.neg operand) (.refl s)
    exact ⟨hid, hext, hsize, rfl, rfl, hnode⟩
  | binary op left right =>
    obtain ⟨hid, hext, hsize, hnode⟩ := hpush (.binary op left right) (.refl s)
    exact ⟨hid, hext, hsize, rfl, rfl, hnode⟩
  | call callee args =>
    obtain ⟨ha, hk⟩ := addExprList_spec s args
    obtain ⟨hid, hext, hsize, hnode⟩ := hpush (.call callee (s.addExprList args).1) ha
    exact ⟨hid, hext, hsize, ha.stmts, ha.functions, _, hnode,
      (extends_pushExpr _ _).exprLists hk⟩

/-- Adding a statement gives it the next id. -/
structure AddsStmt (s t : Store) (shape : StmtShape String List) (span : Span) : Prop where
  extends_ : Extends s t
  exprs : t.exprs = s.exprs
  size : t.stmts.size = s.stmts.size + 1
  functions : t.functions = s.functions
  shape : t.HasStmtShape s.stmts.size span shape

theorem addsStmt_push {s t : Store} (h : Adds s t) (raw : StmtShape Name Slice) (span : Span) :
    (t.pushStmt ⟨raw, span⟩).1 = s.stmts.size ∧ Extends s (t.pushStmt ⟨raw, span⟩).2 ∧
      (t.pushStmt ⟨raw, span⟩).2.exprs = s.exprs ∧
        (t.pushStmt ⟨raw, span⟩).2.stmts.size = s.stmts.size + 1 ∧
          (t.pushStmt ⟨raw, span⟩).2.functions = s.functions ∧
            (t.pushStmt ⟨raw, span⟩).2.stmts[s.stmts.size]? = some ⟨raw, span⟩ :=
  ⟨congrArg Array.size h.stmts, h.extends_.trans (extends_pushStmt t _), h.exprs,
    by simp [pushStmt, h.stmts], h.functions, by simp [pushStmt, h.stmts]⟩

/-- A list of values is stored, unless it is empty. -/
theorem addValues_spec (s : Store) (ids : List ExprId) :
    Adds s (if ids.isEmpty then (Slice.empty, s) else s.addExprList ids).2 ∧
      (if ids.isEmpty then (Slice.empty, s) else s.addExprList ids).2.exprLists.Keeps
        (if ids.isEmpty then (Slice.empty, s) else s.addExprList ids).1 ids := by
  split
  · rename_i h
    rw [List.isEmpty_iff.1 h]
    exact ⟨.refl s, .empty _⟩
  · exact addExprList_spec s ids

theorem internStmt_var_spec (s : Store) (names : List String) (type? : Option (TypeRef String))
    (values : List ExprId) : ∃ t ns ns' t? vs, s.internStmt (.var names type? values) =
      (.var ns t? vs, t) ∧ Adds s t ∧ t.nameLists.Keeps ns ns' ∧
        ns'.map t.string? = names.map some ∧ t?.map t.type? = type?.map some ∧
          t.exprLists.Keeps vs values := by
  have hnames := internAll_spec adds_intern string?_intern (fun h => h.strings) names s
  have htype := internType?_spec (internAll intern s names).2 type?
  have hvalues := addValues_spec ((internAll intern s names).2.internType? type?).2 values
  simp only [internStmt]
  revert hnames htype hvalues
  rcases internAll intern s names with ⟨raws, s₁⟩
  dsimp only
  rcases s₁.internType? type? with ⟨t?, s₂⟩
  dsimp only
  rcases (if values.isEmpty then (Slice.empty, s₂) else s₂.addExprList values) with ⟨vs, s₃⟩
  rintro ⟨ha, hr⟩ ⟨hu, ht⟩ ⟨hv, hk⟩
  obtain ⟨hn, hkn⟩ := addNameList_spec s₃ raws
  exact ⟨_, _, raws, t?, vs, rfl, ha.trans (hu.trans (hv.trans hn)), hkn,
    map_some_mono (hu.trans (hv.trans hn)).extends_.strings hr, (hv.trans hn).extends_.map_type? ht,
    hn.extends_.exprLists hk⟩

theorem addsStmt (s : Store) (shape : StmtShape String List) (span : Span) :
    (s.addStmt shape span).1 = s.stmts.size ∧ AddsStmt s (s.addStmt shape span).2 shape span := by
  cases shape with
  | var names type? values =>
    obtain ⟨t, ns, ns', t?, vs, he, ha, hns, hnames, ht, hvs⟩ :=
      internStmt_var_spec s names type? values
    obtain ⟨hid, hext, hexprs, hsize, hfun, hnode⟩ := addsStmt_push ha (.var ns t? vs) span
    rw [addStmt, he]
    exact ⟨hid, hext, hexprs, hsize, hfun, ns, ns', t?, vs, hnode, hns, hnames, ht, hvs⟩
  | assign targets values =>
    obtain ⟨hat, hkt⟩ := addExprList_spec s targets
    obtain ⟨hav, hkv⟩ := addExprList_spec (s.addExprList targets).2 values
    obtain ⟨hid, hext, hexprs, hsize, hfun, hnode⟩ := addsStmt_push (hat.trans hav)
      (.assign (s.addExprList targets).1 ((s.addExprList targets).2.addExprList values).1) span
    exact ⟨hid, hext, hexprs, hsize, hfun, _, _, hnode, hav.extends_.exprLists hkt, hkv⟩
  | ret results =>
    obtain ⟨ha, hk⟩ := addValues_spec s results
    obtain ⟨hid, hext, hexprs, hsize, hfun, hnode⟩ := addsStmt_push ha (.ret _) span
    exact ⟨hid, hext, hexprs, hsize, hfun, _, hnode, hk⟩
  | expr e =>
    obtain ⟨hid, hext, hexprs, hsize, hfun, hnode⟩ := addsStmt_push (.refl s) (.expr e) span
    exact ⟨hid, hext, hexprs, hsize, hfun, hnode⟩

end Store

end Recast
