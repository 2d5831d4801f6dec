import Recast.Parser
import Recast.Proofs.Store.Extends
import Recast.Store.Build

/-!
# The store of a program

`Store.ofProgram` represents the tree that it was made from: what one reads from it differs from the
tree in ids only, and the ids are all different.
-/

namespace Recast

namespace Store

/-! ### Expressions -/

/-- From one store to the next, expressions are stored, each node with the next id. -/
structure Stores (s t : Store) (es : List PlacedExpr) : Prop where
  extends_ : Extends s t
  stmts : t.stmts = s.stmts
  functions : t.functions = s.functions
  holds : ∀ e ∈ es.flatMap Expr.parts, t.HasExpr e
  numbered : List.range t.exprs.size
    = List.range s.exprs.size ++ (es.flatMap Expr.postorder).map Expr.ref

variable {s t u : Store} {es fs : List PlacedExpr}

theorem Adds.stores (h : Adds s t) : Stores s t [] :=
  ⟨h.extends_, h.stmts, h.functions, nofun, by simp [h.exprs]⟩

theorem Stores.append (h : Stores s t es) (h' : Stores t u fs) : Stores s u (es ++ fs) where
  extends_ := h.extends_.trans h'.extends_
  stmts := h'.stmts.trans h.stmts
  functions := h'.functions.trans h.functions
  holds e he := by
    rw [List.flatMap_append] at he
    rcases List.mem_append.1 he with he | he
    · exact h'.extends_.hasExpr (h.holds e he)
    · exact h'.holds e he
  numbered := by
    rw [h'.numbered, h.numbered, List.flatMap_append, List.map_append, List.append_assoc]

/-- A node is stored after its children. -/
theorem Stores.node {e : PlacedExpr} {shape : ExprShape String List}
    (h : Stores s t e.children) (ha : AddsExpr t u shape e.span) (hs : e.shape? = some shape)
    (hid : e.ref = t.exprs.size) : Stores s u [e] where
  extends_ := h.extends_.trans ha.extends_
  stmts := ha.stmts.trans h.stmts
  functions := ha.functions.trans h.functions
  holds := by
    rw [List.flatMap_singleton, Expr.parts_eq]
    refine List.forall_mem_cons.2 ⟨⟨shape, hs, hid ▸ ha.shape⟩, fun f hf => ?_⟩
    exact ha.extends_.hasExpr (h.holds f hf)
  numbered := by
    rw [ha.size, List.range_succ, h.numbered, List.flatMap_singleton, Expr.postorder_eq,
      List.map_append, List.map_singleton, hid, List.append_assoc]

/-- Storing expressions in order stores them all, if each one is stored from any store on. -/
theorem addExprTrees_of_forall {trees : List SourceExpr}
    (each : ∀ e ∈ trees, ∀ s : Store, ∃ e' : PlacedExpr, (s.addExprTree e).1 = e'.ref ∧
      Stores s (s.addExprTree e).2 [e'] ∧ e'.retag Placed.span = e.retag id) (s : Store) :
    ∃ trees' : List PlacedExpr, (s.addExprTrees [] trees).1 = trees'.map Expr.ref ∧
      Stores s (s.addExprTrees [] trees).2 trees' ∧
        trees'.map (Expr.retag Placed.span) = trees.map (Expr.retag id) := by
  suffices hfound : ∀ (s : Store) (found : List ExprId), ∃ trees' : List PlacedExpr,
      (s.addExprTrees found trees).1 = found.reverse ++ trees'.map Expr.ref ∧
        Stores s (s.addExprTrees found trees).2 trees' ∧
          trees'.map (Expr.retag Placed.span) = trees.map (Expr.retag id) by
    simpa using hfound s []
  clear s
  induction trees with
  | nil => exact fun s found => ⟨[], by simp [addExprTrees], (Adds.refl s).stores, rfl⟩
  | cons e trees ih =>
    intro s found
    obtain ⟨he, htrees⟩ := List.forall_mem_cons.1 each
    obtain ⟨e', hid, hs, ht⟩ := he s
    obtain ⟨trees', hids, hss, hts⟩ := ih htrees (s.addExprTree e).2 ((s.addExprTree e).1 :: found)
    refine ⟨e' :: trees', ?_, hs.append hss, by simp [ht, hts]⟩
    rw [addExprTrees]
    dsimp only
    rw [hids, List.reverse_cons, hid]
    simp

/-- Storing an expression gives a tree with the same places. -/
theorem addExprTree_spec (e : SourceExpr) : ∀ s : Store, ∃ e' : PlacedExpr,
    (s.addExprTree e).1 = e'.ref ∧ Stores s (s.addExprTree e).2 [e'] ∧
      e'.retag Placed.span = e.retag id := by
  induction e using Expr.inductArgs with
  | hole label => exact nomatch label
  | literal span kind lexeme =>
    intro s
    obtain ⟨hid, ha⟩ := addsExpr s (.literal kind lexeme) span
    exact ⟨.literal ⟨s.exprs.size, span⟩ kind lexeme, hid,
      .node (Adds.refl s).stores ha rfl rfl, rfl⟩
  | name span text =>
    intro s
    obtain ⟨hid, ha⟩ := addsExpr s (.name text) span
    exact ⟨.name ⟨s.exprs.size, span⟩ text, hid, .node (Adds.refl s).stores ha rfl rfl, rfl⟩
  | paren span inner ih =>
    intro s
    obtain ⟨inner', hid, hs, ht⟩ := ih s
    obtain ⟨hid', ha⟩ := addsExpr (s.addExprTree inner).2 (.paren (s.addExprTree inner).1) span
    exact ⟨.paren ⟨_, span⟩ inner', hid', .node hs ha (by rw [Expr.shape?, hid]) rfl,
      by rw [Expr.retag, Expr.retag, ht]; rfl⟩
  | neg span operand ih =>
    intro s
    obtain ⟨operand', hid, hs, ht⟩ := ih s
    obtain ⟨hid', ha⟩ := addsExpr (s.addExprTree operand).2 (.neg (s.addExprTree operand).1) span
    exact ⟨.neg ⟨_, span⟩ operand', hid', .node hs ha (by rw [Expr.shape?, hid]) rfl,
      by rw [Expr.retag, Expr.retag, ht]; rfl⟩
  | binary span op left right ihl ihr =>
    intro s
    obtain ⟨left', hidl, hl, htl⟩ := ihl s
    obtain ⟨right', hidr, hr, htr⟩ := ihr (s.addExprTree left).2
    obtain ⟨hid', ha⟩ := addsExpr ((s.addExprTree left).2.addExprTree right).2
      (.binary op (s.addExprTree left).1 ((s.addExprTree left).2.addExprTree right).1) span
    exact ⟨.binary ⟨_, span⟩ op left' right', hid',
      .node (hl.append hr) ha (by rw [Expr.shape?, hidl, hidr]) rfl,
      by rw [Expr.retag, Expr.retag, htl, htr]; rfl⟩
  | call span callee args ihc iha =>
    intro s
    obtain ⟨callee', hidc, hc, htc⟩ := ihc s
    obtain ⟨args', hida, hargs, hta⟩ := addExprTrees_of_forall iha (s.addExprTree callee).2
    obtain ⟨hid', ha⟩ := addsExpr ((s.addExprTree callee).2.addExprTrees [] args).2
      (.call (s.addExprTree callee).1 ((s.addExprTree callee).2.addExprTrees [] args).1) span
    exact ⟨.call ⟨_, span⟩ callee' args', hid',
      .node (hc.append hargs) ha (by rw [Expr.shape?, hidc, hida]) rfl,
      by rw [Expr.retag, Expr.retag, htc, Expr.retagAll_eq, Expr.retagAll_eq, hta]; rfl⟩

/-- Storing expressions gives trees with the same places. -/
theorem addExprTrees_spec (trees : List SourceExpr) (s : Store) : ∃ trees' : List PlacedExpr,
    (s.addExprTrees [] trees).1 = trees'.map Expr.ref ∧
      Stores s (s.addExprTrees [] trees).2 trees' ∧
        trees'.map (Expr.retag Placed.span) = trees.map (Expr.retag id) :=
  addExprTrees_of_forall (fun e _ => addExprTree_spec e) s

/-! ### Statements -/

/-- From one store to the next, statements are stored, each one with the next id, and so are their
expressions. -/
structure StoresStmts (s t : Store) (sts : List PlacedStmt) : Prop where
  extends_ : Extends s t
  holds : ∀ st ∈ sts, t.HasStmt st
  numbered : List.range t.stmts.size = List.range s.stmts.size ++ sts.map Stmt.ref
  exprs : ∀ e ∈ (sts.flatMap Stmt.children).flatMap Expr.parts, t.HasExpr e
  numberedExprs : List.range t.exprs.size = List.range s.exprs.size ++
    ((sts.flatMap Stmt.children).flatMap Expr.postorder).map Expr.ref

theorem Adds.storesStmts (h : Adds s t) : StoresStmts s t [] :=
  ⟨h.extends_, nofun, by simp [h.stmts], nofun, by simp [h.exprs]⟩

variable {sts sts' : List PlacedStmt}

theorem StoresStmts.append (h : StoresStmts s t sts) (h' : StoresStmts t u sts') :
    StoresStmts s u (sts ++ sts') where
  extends_ := h.extends_.trans h'.extends_
  holds st hst := by
    rcases List.mem_append.1 hst with hst | hst
    · exact h'.extends_.hasStmt (h.holds st hst)
    · exact h'.holds st hst
  numbered := by rw [h'.numbered, h.numbered, List.map_append, List.append_assoc]
  exprs e he := by
    rw [List.flatMap_append, List.flatMap_append] at he
    rcases List.mem_append.1 he with he | he
    · exact h'.extends_.hasExpr (h.exprs e he)
    · exact h'.exprs e he
  numberedExprs := by
    rw [h'.numberedExprs, h.numberedExprs, List.flatMap_append, List.flatMap_append,
      List.map_append, List.append_assoc]

/-- A statement is stored after its expressions. -/
theorem Stores.stmt {st : PlacedStmt} {shape : StmtShape String List}
    (h : Stores s t st.children) (ha : AddsStmt t u shape st.span) (hs : st.shape? = some shape)
    (hid : st.ref = t.stmts.size) : StoresStmts s u [st] where
  extends_ := h.extends_.trans ha.extends_
  holds := List.forall_mem_singleton.2 ⟨shape, hs, hid ▸ ha.shape⟩
  numbered := by
    rw [ha.size, List.range_succ, List.map_singleton, hid, congrArg Array.size h.stmts]
  exprs := by
    rw [List.flatMap_singleton]
    exact fun e he => ha.extends_.hasExpr (h.holds e he)
  numberedExprs := by
    rw [List.flatMap_singleton, congrArg Array.size ha.exprs, h.numbered]

theorem Stores.after_adds (h : Adds s t) (h' : Stores t u es) : Stores s u es := by
  simpa using h.stores.append h'

theorem Stores.then_adds (h : Stores s t es) (h' : Adds t u) : Stores s u es := by
  simpa using h.append h'.stores

/-- A statement that comes to be stored as one with the same places has been stored. -/
theorem Stores.exists_stmt {st : SourceStmt} (st' : PlacedStmt) {shape : StmtShape String List}
    (h : Stores s t st'.children) (hid : (s.addStmtTree st).1 = t.stmts.size)
    (ha : AddsStmt t (s.addStmtTree st).2 shape st'.span) (hs : st'.shape? = some shape)
    (href : st'.ref = t.stmts.size) (hplaces : st'.retag Placed.span = st.retag id) :
    ∃ st' : PlacedStmt, (s.addStmtTree st).1 = st'.ref ∧
      StoresStmts s (s.addStmtTree st).2 [st'] ∧ (s.addStmtTree st).2.functions = s.functions ∧
        st'.retag Placed.span = st.retag id :=
  ⟨st', hid.trans href.symm, h.stmt ha hs href, ha.functions.trans h.functions, hplaces⟩

/-- Storing a statement gives a statement with the same places. -/
theorem addStmtTree_spec (s : Store) (st : SourceStmt) : ∃ st' : PlacedStmt,
    (s.addStmtTree st).1 = st'.ref ∧ StoresStmts s (s.addStmtTree st).2 [st'] ∧
      (s.addStmtTree st).2.functions = s.functions ∧
        st'.retag Placed.span = st.retag id := by
  cases st with
  | hole label => exact nomatch label
  | var span names type? values =>
    have hnames := (internAll_spec adds_intern string?_intern (fun h => h.strings) names s).1
    have htype := (internType?_spec (internAll intern s names).2 type?).1
    obtain ⟨values', hids, hs, ht⟩ := addExprTrees_spec values
      ((internAll intern s names).2.internType? type?).2
    let t := (((internAll intern s names).2.internType? type?).2.addExprTrees [] values).2
    have hadd : s.addStmtTree (.var span names type? values)
        = t.addStmt (.var names type? (values'.map Expr.ref)) span := by
      rw [addStmtTree]
      dsimp only
      rw [hids]
    obtain ⟨hid, ha⟩ := addsStmt t (.var names type? (values'.map Expr.ref)) span
    rw [← hadd] at hid ha
    exact Stores.exists_stmt (.var ⟨t.stmts.size, span⟩ names type? values')
      (hs.after_adds (hnames.trans htype)) hid ha rfl rfl (by rw [Stmt.retag, Stmt.retag, ht]; rfl)
  | assign span targets values =>
    obtain ⟨targets', hidst, hst, htt⟩ := addExprTrees_spec targets s
    obtain ⟨hlt, hkt⟩ := addExprList_spec (s.addExprTrees [] targets).2 (targets'.map Expr.ref)
    let t := ((s.addExprTrees [] targets).2.addExprList (targets'.map Expr.ref)).2
    obtain ⟨values', hidsv, hsv, htv⟩ := addExprTrees_spec values t
    obtain ⟨hlv, hkv⟩ := addExprList_spec (t.addExprTrees [] values).2 (values'.map Expr.ref)
    let u := ((t.addExprTrees [] values).2.addExprList (values'.map Expr.ref)).2
    let raw : StmtShape Name Slice :=
      .assign ((s.addExprTrees [] targets).2.addExprList (targets'.map Expr.ref)).1
        ((t.addExprTrees [] values).2.addExprList (values'.map Expr.ref)).1
    have hadd : s.addStmtTree (.assign span targets values) = u.pushStmt ⟨raw, span⟩ := by
      rw [addStmtTree]
      dsimp only
      rw [hidst, hidsv]
    obtain ⟨hid, hext, hexprs, hsize, hfun, hnode⟩ := addsStmt_push hlv raw span
    -- the list of the targets was put into the pool before the values
    have hshape : (u.pushStmt ⟨raw, span⟩).2.HasStmtShape (t.addExprTrees [] values).2.stmts.size
        span (.assign (targets'.map Expr.ref) (values'.map Expr.ref)) :=
      ⟨_, _, hnode, hext.exprLists (hsv.extends_.exprLists hkt),
        (extends_pushStmt _ _).exprLists hkv⟩
    have ha : AddsStmt (t.addExprTrees [] values).2 _ _ span := ⟨hext, hexprs, hsize, hfun, hshape⟩
    rw [← hadd] at hid ha
    exact Stores.exists_stmt
      (.assign ⟨(t.addExprTrees [] values).2.stmts.size, span⟩ targets' values')
      ((hst.then_adds hlt).append hsv) hid ha rfl rfl
      (by rw [Stmt.retag, Stmt.retag, htt, htv]; rfl)
  | ret span results =>
    obtain ⟨results', hids, hs, ht⟩ := addExprTrees_spec results s
    have hadd : s.addStmtTree (.ret span results)
        = (s.addExprTrees [] results).2.addStmt (.ret (results'.map Expr.ref)) span := by
      rw [addStmtTree]
      dsimp only
      rw [hids]
    obtain ⟨hid, ha⟩ := addsStmt (s.addExprTrees [] results).2 (.ret (results'.map Expr.ref)) span
    rw [← hadd] at hid ha
    exact Stores.exists_stmt (.ret ⟨(s.addExprTrees [] results).2.stmts.size, span⟩ results')
      hs hid ha rfl rfl (by rw [Stmt.retag, Stmt.retag, ht]; rfl)
  | expr span e =>
    obtain ⟨e', he, hs, ht⟩ := addExprTree_spec e s
    obtain ⟨hl, -⟩ := addExprList_spec (s.addExprTree e).2 [(s.addExprTree e).1]
    let t := ((s.addExprTree e).2.addExprList [(s.addExprTree e).1]).2
    obtain ⟨hid, ha⟩ := addsStmt t (.expr (s.addExprTree e).1) span
    exact Stores.exists_stmt (.expr ⟨t.stmts.size, span⟩ e') (hs.then_adds hl) hid ha
      (by rw [Stmt.shape?, he]) rfl (by rw [Stmt.retag, Stmt.retag, ht]; rfl)

/-- Storing the statements of a function gives statements with the same places. -/
theorem addStmtTrees_spec (sts : List SourceStmt) : ∀ s : Store, ∃ sts' : List PlacedStmt,
    (internAll addStmtTree s sts).1 = sts'.map Stmt.ref ∧
      StoresStmts s (internAll addStmtTree s sts).2 sts' ∧
        (internAll addStmtTree s sts).2.functions = s.functions ∧
          sts'.map (Stmt.retag Placed.span) = sts.map (Stmt.retag id) := by
  induction sts with
  | nil => exact fun s => ⟨[], rfl, (Adds.refl s).storesStmts, rfl, rfl⟩
  | cons st sts ih =>
    intro s
    obtain ⟨st', hid, hs, hf, ht⟩ := addStmtTree_spec s st
    obtain ⟨sts', hids, hss, hfs, hts⟩ := ih (s.addStmtTree st).2
    refine ⟨st' :: sts', ?_, ?_, ?_, ?_⟩
    · rw [internAll_cons, hid, hids, List.map_cons]
    · rw [internAll_cons]
      exact hs.append hss
    · rw [internAll_cons]
      exact hfs.trans hf
    · rw [List.map_cons, List.map_cons, ht, hts]

/-! ### Functions -/

/-- From one store to the next, functions are stored with the next ids, and what they are made of
with ids of its own. -/
structure StoresFunctions (s t : Store) (fs : List PlacedFunction) : Prop extends
    StoresStmts s t (fs.flatMap Function.body) where
  functions : t.functions.size = s.functions.size + fs.length
  function : ∀ i f, fs[i]? = some f → t.HasFunction (s.functions.size + i) f

theorem StoresFunctions.append {fs gs : List PlacedFunction} (h : StoresFunctions s t fs)
    (h' : StoresFunctions t u gs) : StoresFunctions s u (fs ++ gs) where
  toStoresStmts := by
    rw [List.flatMap_append]
    exact h.toStoresStmts.append h'.toStoresStmts
  functions := by rw [h'.functions, h.functions, List.length_append, Nat.add_assoc]
  function i f hf := by
    rw [List.getElem?_append] at hf
    split at hf
    · exact h'.extends_.hasFunction (h.function i f hf)
    · have := h'.function _ f hf
      rw [h.functions] at this
      rwa [show s.functions.size + fs.length + (i - fs.length) = s.functions.size + i by omega]
        at this

theorem Adds.then_storesStmts (h : Adds s t) (h' : StoresStmts t u sts) : StoresStmts s u sts :=
  h.storesStmts.append h'

theorem StoresStmts.then_adds (h : StoresStmts s t sts) (h' : Adds t u) : StoresStmts s u sts := by
  simpa using h.append h'.storesStmts

/-- A function is stored after its statements. -/
theorem StoresStmts.then_pushFunction (h : StoresStmts s t sts)
    (node : Node (FunctionShape Name Slice)) : StoresStmts s (t.pushFunction node).2 sts where
  extends_ := h.extends_.trans (extends_pushFunction t node)
  holds st hst := (extends_pushFunction t node).hasStmt (h.holds st hst)
  numbered := h.numbered
  exprs e he := (extends_pushFunction t node).hasExpr (h.exprs e he)
  numberedExprs := h.numberedExprs

/-- Storing a function gives a function with the same places. -/
theorem addFunctionTree_spec (s : Store) (f : SourceFunction) : ∃ f' : PlacedFunction,
    StoresFunctions s (s.addFunctionTree f) [f'] ∧ f'.retag Placed.span = f.retag id := by
  have hname := adds_intern s f.name
  have hn := string?_intern s f.name
  have hparams := internAll_spec adds_internParam param?_internParam (fun h => h.param?) f.params
    (s.intern f.name).2
  rw [addFunctionTree]
  revert hname hn hparams
  rcases s.intern f.name with ⟨name, s₁⟩
  dsimp only
  rcases internAll internParam s₁ f.params with ⟨params, s₂⟩
  dsimp only
  have hps := addParams_spec s₂ params
  revert hps
  rcases s₂.addParams params with ⟨ps, s₃⟩
  dsimp only
  have hresults := internAll_spec adds_internType type?_internType (fun h => h.type?) f.results s₃
  revert hresults
  rcases internAll internType s₃ f.results with ⟨results, s₄⟩
  dsimp only
  have hrs := addTypeList_spec s₄ results
  revert hrs
  rcases s₄.addTypeList results with ⟨rs, s₅⟩
  dsimp only
  obtain ⟨body', hids, hbody, hfunctions, ht⟩ := addStmtTrees_spec f.body s₅
  revert hids hbody hfunctions
  rcases internAll addStmtTree s₅ f.body with ⟨body, s₆⟩
  dsimp only
  rintro rfl
  have hb := addStmtList_spec s₆ (body'.map Stmt.ref)
  revert hb
  rcases s₆.addStmtList (body'.map Stmt.ref) with ⟨bs, s₇⟩
  dsimp only
  rintro ⟨hb, kb⟩ hbody hfunctions ⟨hrs, krs⟩ ⟨hresults, rresults⟩ ⟨hps, kps⟩ hname hn
    ⟨hparams, rparams⟩
  have hsize : s₇.functions.size = s.functions.size := by
    rw [hb.functions, hfunctions, hrs.functions, hresults.functions, hps.functions,
      hparams.functions, hname.functions]
  -- what is stored before the body is readable in the end
  have hlast : Extends s₅ (s₇.pushFunction ⟨⟨name, ps, rs, bs⟩, f.tag⟩).2 :=
    (hbody.extends_.trans hb.extends_).trans (extends_pushFunction s₇ _)
  have htypes := (hresults.extends_.trans hrs.extends_).trans hlast
  have hstored := ((hname.trans (hparams.trans (hps.trans (hresults.trans hrs)))).then_storesStmts
    hbody).then_adds hb
  refine ⟨⟨⟨s.functions.size, f.tag⟩, f.name, f.params, f.results, body'⟩,
    ⟨?_, ?_, ?_⟩, ?_⟩
  · rw [List.flatMap_singleton]
    exact hstored.then_pushFunction _
  · simp [pushFunction, hsize]
  · intro i g hg
    cases i with
    | succ => cases hg
    | zero =>
      cases hg
      have hall := hps.extends_.trans htypes
      exact ⟨rfl, name, ps, params, rs, results, bs,
        by simp [pushFunction, ← hsize], hall.strings (hparams.extends_.strings hn),
        ⟨htypes.params kps, map_some_mono hall.param? rparams⟩,
        ⟨hlast.typeLists krs, map_some_mono (hrs.extends_.trans hlast).type? rresults⟩,
        (extends_pushFunction s₇ _).stmtLists kb⟩
  · rw [Function.retag, Function.retag, ht]
    rfl

theorem StoresFunctions.nil (s : Store) : StoresFunctions s s [] where
  toStoresStmts := (Adds.refl s).storesStmts
  functions := rfl
  function _ _ h := by cases h

/-- Storing functions gives functions with the same places. -/
theorem addFunctionTrees_spec (fs : List SourceFunction) : ∀ s : Store,
    ∃ fs' : List PlacedFunction, StoresFunctions s (fs.foldl addFunctionTree s) fs' ∧
      fs'.map (Function.retag Placed.span) = fs.map (Function.retag id) := by
  induction fs with
  | nil => exact fun s => ⟨[], .nil s, rfl⟩
  | cons f fs ih =>
    intro s
    obtain ⟨f', hf, ht⟩ := addFunctionTree_spec s f
    obtain ⟨fs', hfs, hts⟩ := ih (s.addFunctionTree f)
    refine ⟨f' :: fs', hf.append hfs, ?_⟩
    rw [List.map_cons, List.map_cons, ht, hts]

/-! ### Programs -/

/-- Setting the trivia changes nothing else. -/
theorem setTrivia_spec (s : Store) (trivia : Trivia String) :
    Adds s (s.setTrivia trivia) ∧ (s.setTrivia trivia).HasTrivia trivia := by
  obtain ⟨hadds, hreads⟩ := internAll_spec adds_internComment comment?_internComment
    (fun h => h.comment?) trivia.comments s
  rw [setTrivia]
  dsimp only
  refine ⟨⟨?_, hadds.exprs, hadds.stmts, hadds.functions⟩, ?_⟩
  · have h := hadds.extends_
    exact ⟨h.size, h.exprs, h.stmts, h.functions, h.strings, h.params, h.exprLists, h.stmtLists,
      h.typeLists, h.nameLists⟩
  · exact ⟨hreads, rfl⟩

/-- The nodes of a program are numbered in order, children first, and a store has no others. -/
structure Numbers (s : Store) (p : PlacedProgram) : Prop where
  stmts : p.stmts.map Stmt.ref = List.range s.stmts.size
  exprs : (p.exprs.flatMap Expr.postorder).map Expr.ref = List.range s.exprs.size

theorem Numbers.refs_perm {p : PlacedProgram} (h : Numbers s p) :
    (p.parts.map Expr.ref).Perm (List.range s.exprs.size) := by
  rw [← h.exprs]
  exact (Expr.flatMap_postorder_perm fun e _ => e.postorder_perm).symm.map _

/-- The store of a program represents it, with ids in place of bare spans. -/
theorem represents_ofProgram (tree : SourceProgram) : ∃ p : PlacedProgram,
    (ofProgram tree).Represents p ∧
      p.functions.map (Function.retag Placed.span) = tree.functions.map (Function.retag id) ∧
        p.trivia = tree.trivia ∧ (ofProgram tree).Numbers p := by
  obtain ⟨fs, hfs, ht⟩ := addFunctionTrees_spec tree.functions empty
  obtain ⟨hadds, htrivia⟩ := setTrivia_spec (tree.functions.foldl addFunctionTree empty) tree.trivia
  have hstored := hfs.then_adds hadds
  have hnumbers : (ofProgram tree).Numbers ⟨fs, tree.trivia⟩ :=
    ⟨hstored.numbered.symm, hstored.numberedExprs.symm⟩
  refine ⟨⟨fs, tree.trivia⟩, ?_, ht, rfl, hnumbers⟩
  refine ⟨?_, fun id f hf => ?_, hstored.holds, hstored.exprs, ?_, ?_, htrivia⟩
  · rw [ofProgram, hadds.functions, hfs.functions]
    exact Nat.zero_add _
  · have := hfs.function id f hf
    rw [show empty.functions.size + id = id from Nat.zero_add id] at this
    exact hadds.extends_.hasFunction this
  · rw [hnumbers.stmts]
    exact List.nodup_range
  · exact hnumbers.refs_perm.nodup_iff.2 List.nodup_range

end Store

end Recast
