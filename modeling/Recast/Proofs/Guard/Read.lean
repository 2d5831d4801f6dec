import Recast.Proofs.Guard.Access
import Recast.Proofs.Repair.Whole

/-!
# Guarded reading

The views of a store with a guard for each id and for each slice that they follow. A store that
represents a program can be read without a crash.
-/

namespace Recast

variable {α β γ : Type}

namespace Guarded

/-- The tree below an expression, down to a given depth. -/
def exprTo (s : Store) : (depth : Nat) → ExprId → Guarded PlacedExpr
  | 0, _ => crash .endless
  | depth + 1, id => do
    let node ← entry s.exprs id
    match node.shape with
    | .literal kind lexeme => return .literal ⟨id, node.span⟩ kind (s.text lexeme)
    | .name text => return .name ⟨id, node.span⟩ (s.text text)
    | .paren inner => do
      let inner ← exprTo s depth inner
      return .paren ⟨id, node.span⟩ inner
    | .neg operand => do
      let operand ← exprTo s depth operand
      return .neg ⟨id, node.span⟩ operand
    | .binary op left right => do
      let left ← exprTo s depth left
      let right ← exprTo s depth right
      return .binary ⟨id, node.span⟩ op left right
    | .call callee args => do
      let callee ← exprTo s depth callee
      let args ← (← s.exprLists.read args).mapM (exprTo s depth)
      return .call ⟨id, node.span⟩ callee args

/-- The tree below an expression. -/
def expr (s : Store) (id : ExprId) : Guarded PlacedExpr := exprTo s s.exprs.size id

/-- The trees below the expressions of a list. -/
def exprList (s : Store) (slice : Slice ExprId) : Guarded (List PlacedExpr) := do
  (← s.exprLists.read slice).mapM (expr s)

/-- A statement as a tree. -/
def stmt (s : Store) (id : StmtId) : Guarded PlacedStmt := do
  let node ← entry s.stmts id
  match node.shape with
  | .var names type? values => do
    let names ← s.nameLists.read names
    let values ← exprList s values
    return .var ⟨id, node.span⟩ (names.map s.text) (type?.map s.typeText) values
  | .assign targets values => do
    let targets ← exprList s targets
    let values ← exprList s values
    return .assign ⟨id, node.span⟩ targets values
  | .ret results => do
    let results ← exprList s results
    return .ret ⟨id, node.span⟩ results
  | .expr e => do
    let e ← expr s e
    return .expr ⟨id, node.span⟩ e

/-- A function without its statements. -/
def signature (s : Store) (id : FunctionId) (node : Node (FunctionShape Name Slice)) :
    Guarded PlacedFunction := do
  let params ← s.params.read node.shape.params
  let results ← s.typeLists.read node.shape.results
  return ⟨⟨id, node.span⟩, s.text node.shape.name, params.map s.paramText,
    results.map s.typeText, []⟩

/-- A function as a tree. -/
def functionTree (s : Store) (id : FunctionId) (node : Node (FunctionShape Name Slice)) :
    Guarded PlacedFunction := do
  let f ← signature s id node
  let body ← (← s.stmtLists.read node.shape.body).mapM (stmt s)
  return { f with body }

/-- The functions of a store with their ids. -/
def functions (s : Store) : Guarded (List (FunctionId × Node (FunctionShape Name Slice))) :=
  s.functions.toList.zipIdx.mapM fun (node, id) => do
    requireRoom id
    return (id, node)

/-- The functions with the trivia. -/
def program (s : Store) : Guarded PlacedProgram := do
  let functions ← (← functions s).mapM fun (id, node) => functionTree s id node
  return ⟨functions, s.triviaText⟩

end Guarded

/-! ### Trees that can be read -/

/-- Below an expression that is no deeper than a given depth, its children are one level less
deep. -/
theorem Expr.exists_depth {e : PlacedExpr} {depth : Nat} (h : e.parts.length ≤ depth) :
    ∃ d, depth = d + 1 ∧ ∀ child ∈ e.children, child.parts.length ≤ d := by
  rw [Expr.parts_eq, List.length_cons] at h
  refine ⟨depth - 1, by omega, fun child hc => ?_⟩
  have : child.parts.length ≤ (e.children.flatMap Expr.parts).length := by
    rw [List.flatMap_def]
    exact (List.sublist_flatten_of_mem (List.mem_map_of_mem hc)).length_le
  omega

/-- The store holds the expression, which is no deeper than there are nodes. -/
structure Store.Readable (s : Store) (e : PlacedExpr) : Prop where
  holds : s.Holds e
  length : e.parts.length ≤ s.exprs.size

namespace Store

variable {s : Store} {p : PlacedProgram} {e : PlacedExpr}

theorem Represents.readable (h : s.Represents p) (he : e ∈ p.parts) : s.Readable e :=
  ⟨h.holds he, (h.holds he).length_parts_le (h.distinct_parts he)⟩

theorem Readable.child (h : s.Readable e) {child : PlacedExpr} (hc : child ∈ e.children) :
    s.Readable child where
  holds := (holds_iff.1 h.holds).2 child hc
  length := by
    obtain ⟨d, hd, hchildren⟩ := Expr.exists_depth h.length
    have := hchildren child hc
    omega

theorem Readable.part (h : s.Readable e) {part : PlacedExpr} (hp : part ∈ e.parts) :
    s.Readable part :=
  Expr.forall_parts (fun _ h _ hc => h.child hc) h hp

end Store

namespace Yields

variable {s : Store} {p : PlacedProgram} {e : PlacedExpr}

theorem mapM_map {f : γ → Guarded β} {k : α → γ} {g : α → β} {xs : List α}
    (h : ∀ x ∈ xs, Yields (f (k x)) (g x)) : Yields ((xs.map k).mapM f) (xs.map g) := by
  rw [List.mapM_map]
  exact mapM h

theorem mapM_ref {f : ExprId → Guarded PlacedExpr} {es : List PlacedExpr}
    (h : ∀ e ∈ es, Yields (f e.ref) e) : Yields ((es.map Expr.ref).mapM f) es := by
  have := mapM_map h
  rwa [List.map_id'] at this

theorem exprTo (h : s.Holds e) :
    ∀ {depth}, e.parts.length ≤ depth → Yields (Guarded.exprTo s depth e.ref) e := by
  induction e using Expr.inductChildren with
  | step e ih =>
    intro depth hd
    obtain ⟨depth, rfl, hdepth⟩ := Expr.exists_depth hd
    obtain ⟨⟨shape, hs, hn⟩, hc⟩ := Store.holds_iff.1 h
    have hchild : ∀ child ∈ e.children, Yields (Guarded.exprTo s depth child.ref) child :=
      fun child hm => ih child hm (hc child hm) (hdepth child hm)
    cases e with
    | hole => cases hs
    | literal tag kind lexeme =>
      cases hs
      obtain ⟨n, hnode, htext⟩ := hn
      rw [← Store.text_of_string? htext]
      exact (entry hnode).bind (pure _)
    | name tag text =>
      cases hs
      obtain ⟨n, hnode, htext⟩ := hn
      rw [← Store.text_of_string? htext]
      exact (entry hnode).bind (pure _)
    | paren tag inner =>
      cases hs
      exact (entry hn).bind ((hchild inner (by simp [Expr.children])).bind (pure _))
    | neg tag operand =>
      cases hs
      exact (entry hn).bind ((hchild operand (by simp [Expr.children])).bind (pure _))
    | binary tag op left right =>
      cases hs
      exact (entry hn).bind ((hchild left (by simp [Expr.children])).bind
        ((hchild right (by simp [Expr.children])).bind (pure _)))
    | call tag callee args =>
      cases hs
      obtain ⟨slice, hnode, hargs⟩ := hn
      have hread : Yields ((args.map Expr.ref).mapM (Guarded.exprTo s depth)) args :=
        mapM_ref fun arg ha => hchild arg (List.mem_cons_of_mem _ ha)
      exact (entry hnode).bind ((hchild callee (by simp [Expr.children])).bind
        (hargs.read.bind (hread.bind (pure _))))

theorem expr (h : s.Readable e) : Yields (Guarded.expr s e.ref) e := exprTo h.holds h.length

theorem exprList {slice : Slice ExprId} {es : List PlacedExpr}
    (hk : s.exprLists.Keeps slice (es.map Expr.ref)) (h : ∀ e ∈ es, s.Readable e) :
    Yields (Guarded.exprList s slice) es :=
  hk.read.bind (mapM_ref fun e he => expr (h e he))

theorem stmt (h : s.Represents p) {st : PlacedStmt} (hst : st ∈ p.stmts) :
    Yields (Guarded.stmt s st.ref) st := by
  have hreadable : ∀ e ∈ st.children, s.Readable e := fun e he =>
    h.readable (Store.Program.mem_parts_of_mem_children hst he)
  obtain ⟨shape, hs, hn⟩ := h.stmts st hst
  cases st with
  | hole => cases hs
  | var tag names type? values =>
    cases hs
    obtain ⟨ns, ns', t?, vs, hnode, hns, hnames, ht, hvs⟩ := hn
    rw [← Store.map_of_map_some Store.text_of_string? hnames, ← Store.map_typeText_of_type? ht]
    exact (entry hnode).bind (hns.read.bind ((exprList hvs hreadable).bind (pure _)))
  | assign tag targets values =>
    cases hs
    obtain ⟨ts, vs, hnode, hts, hvs⟩ := hn
    have htargets := exprList hts fun e he => hreadable e (List.mem_append_left _ he)
    have hvalues := exprList hvs fun e he => hreadable e (List.mem_append_right _ he)
    exact (entry hnode).bind (htargets.bind (hvalues.bind (pure _)))
  | ret tag results =>
    cases hs
    obtain ⟨rs, hnode, hrs⟩ := hn
    exact (entry hnode).bind ((exprList hrs hreadable).bind (pure _))
  | expr tag e =>
    cases hs
    exact (entry hn).bind ((expr (hreadable e (by simp [Stmt.children]))).bind (pure _))

theorem signature {id : FunctionId} {f : PlacedFunction} (h : s.HasFunction id f) :
    ∃ node, s.functions[id]? = some node ∧ node.span = f.span ∧
      Yields (Guarded.signature s id node) { f with body := [] } ∧
        s.stmtLists.Keeps node.shape.body (f.body.map Stmt.ref) := by
  obtain ⟨rfl, name, ps, ps', rs, rs', body, hnode, hname, ⟨hps, hparams⟩, ⟨hrs, hresults⟩,
    hbody⟩ := h
  refine ⟨_, hnode, rfl, ?_, hbody⟩
  rw [← Store.map_of_map_some Store.paramText_of_param? hparams,
    ← Store.map_of_map_some Store.typeText_of_type? hresults, ← Store.text_of_string? hname]
  exact hps.read.bind (hrs.read.bind (pure _))

end Yields

/-- The node is that of a function of the program. -/
structure Store.Declares (s : Store) (p : PlacedProgram)
    (x : FunctionId × Node (FunctionShape Name Slice)) (f : PlacedFunction) : Prop where
  mem : f ∈ p.functions
  span : x.2.span = f.span
  signature : Yields (Guarded.signature s x.1 x.2) { f with body := [] }
  body : s.stmtLists.Keeps x.2.shape.body (f.body.map Stmt.ref)

namespace Yields

variable {s : Store} {p : PlacedProgram}

theorem mapM_forall₂ {f : α → Guarded β} {xs : List α} {ys : List β}
    (h : List.Forall₂ (fun x y => Yields (f x) y) xs ys) : Yields (xs.mapM f) ys := by
  induction h with
  | nil => exact pure []
  | cons hx _ ih =>
    rw [List.mapM_cons]
    exact hx.bind (ih.bind (pure _))

/-- The nodes of the functions can be read one after another. -/
theorem functions (h : s.Represents p) :
    ∃ xs, Yields (Guarded.functions s) xs ∧ List.Forall₂ (s.Declares p) xs p.functions := by
  refine ⟨_, mapM fun _ _ => (requireRoom _).bind (pure _), ?_⟩
  refine List.forall₂_iff_get.2 ⟨by simp [h.functions], fun id hid hf => ?_⟩
  have hf : p.functions[id]? = some p.functions[id] := List.getElem?_eq_getElem hf
  obtain ⟨node, hnode, hspan, hsignature, hbody⟩ := signature (h.function id _ hf)
  obtain ⟨hlt, rfl⟩ := Array.getElem?_eq_some_iff.1 hnode
  simp only [List.get_eq_getElem, List.getElem_map, List.getElem_zipIdx, Array.getElem_toList,
    Nat.zero_add]
  exact ⟨List.mem_of_getElem? hf, hspan, hsignature, hbody⟩

theorem functionTree (h : s.Represents p) {x : FunctionId × Node (FunctionShape Name Slice)}
    {f : PlacedFunction} (hx : s.Declares p x f) : Yields (Guarded.functionTree s x.1 x.2) f := by
  have hread : Yields ((f.body.map Stmt.ref).mapM (Guarded.stmt s)) f.body := by
    have := mapM_map fun st hst => stmt h (List.mem_flatMap.2 ⟨f, hx.mem, hst⟩)
    rwa [List.map_id'] at this
  exact hx.signature.bind (hx.body.read.bind (hread.bind (pure _)))

/-- A store that represents a program can be read. -/
theorem program (h : s.Represents p) : Yields (Guarded.program s) p := by
  obtain ⟨xs, hxs, hall⟩ := functions h
  have hread : Yields (xs.mapM fun x => Guarded.functionTree s x.1 x.2) p.functions :=
    mapM_forall₂ (hall.imp fun _ _ hx => functionTree h hx)
  have hp : (⟨p.functions, s.triviaText⟩ : PlacedProgram) = p := by rw [h.trivia.triviaText]
  rw [← hp]
  exact hxs.bind (hread.bind (pure _))

end Yields

end Recast
