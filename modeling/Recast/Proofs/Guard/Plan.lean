import Recast.Proofs.Guard.Read
import Recast.Proofs.Store.Paths
import Recast.Repair.Plan

/-!
# Guarded planning

The search for a position as it goes through a store by ids, and the resolution of clashes with
guarded lookups of types. The repairs are those of the planner, and the nodes that they name are in
the store.
-/

namespace Recast

variable {α β γ : Type}

namespace Guarded

/-- The name of an expression's type, if it has a valid one. -/
def typeOf (info : TypeInfo) (s : Store) (id : ExprId) : Guarded (Option String) := do
  let e ← expr s id
  return (info.typeOf e).map BasicType.name

/-! ### Paths -/

/-- Where an expression stands. -/
def exprSpan (s : Store) (id : ExprId) : Guarded Span := do
  let node ← entry s.exprs id
  return node.span

/-- Where a statement stands. -/
def stmtSpan (s : Store) (id : StmtId) : Guarded Span := do
  let node ← entry s.stmts id
  return node.span

/-- The first of some nodes that encloses a position. -/
def firstAt (spanOf : Nat → Guarded Span) (pos : Nat) : List Nat → Guarded (Option Nat)
  | [] => return none
  | id :: ids => do
    let span ← spanOf id
    if span.contains pos then return some id else firstAt spanOf pos ids

/-- The children of an expression. -/
def children (s : Store) : ExprShape Name Slice → Guarded (List ExprId)
  | .literal .. | .name .. => return []
  | .paren inner => return [inner]
  | .neg operand => return [operand]
  | .binary _ left right => return [left, right]
  | .call callee args => do
    let args ← s.exprLists.read args
    return callee :: args

/-- The expressions of a statement. -/
def stmtChildren (s : Store) : StmtShape Name Slice → Guarded (List ExprId)
  | .var _ _ values => s.exprLists.read values
  | .assign targets values => do
    let targets ← s.exprLists.read targets
    let values ← s.exprLists.read values
    return targets ++ values
  | .ret results => s.exprLists.read results
  | .expr e => return [e]

/-- An expression and the parts of it that enclose a position, down to a given depth. -/
def descend (s : Store) (pos : Nat) : (depth : Nat) → ExprId → Guarded (List ExprId)
  | 0, _ => crash .endless
  | depth + 1, id => do
    let node ← entry s.exprs id
    let children ← children s node.shape
    match ← firstAt (exprSpan s) pos children with
    | some child => do
      let below ← descend s pos depth child
      return id :: below
    | none => return [id]

/-- The expressions of a statement that enclose a position, outermost first. -/
def chain (s : Store) (pos : Nat) (id : StmtId) : Guarded (List ExprId) := do
  let node ← entry s.stmts id
  let children ← stmtChildren s node.shape
  match ← firstAt (exprSpan s) pos children with
  | some root => descend s pos s.exprs.size root
  | none => return []

/-- The path to a position, if a function encloses it. -/
def pathAt (s : Store) (pos : Nat) : Guarded (Option (Path ExprId Placed)) := do
  match (← functions s).find? fun x => x.2.span.contains pos with
  | none => return none
  | some (id, node) => do
    let f ← functionTree s id node
    let body ← s.stmtLists.read node.shape.body
    match ← firstAt (stmtSpan s) pos body with
    | none => return some ⟨f, none, []⟩
    | some st => do
      let chain ← chain s pos st
      let st ← stmt s st
      let exprs ← chain.reverse.mapM (expr s)
      return some ⟨f, some st, exprs⟩

/-! ### Repairs -/

section

variable (info : TypeInfo) (s : Store) (path : Path ExprId Placed)

/-- The value of a declaration of the declared type. -/
def repairDeclaration? (declared value : String) : Guarded (Option Repair) :=
  match path.stmtPair? with
  | some (child, .var tag _ (some type) values) => do
    let type? ← typeOf info s child.ref
    if info.oracle.denoted type = some declared && type? = some value
        && info.oracle.convertible value declared then
      return (indexIn? values child).map fun i => .convert (.varValue tag.id i) declared value none
    else return none
  | _ => return none

/-- The conversion of an expression, if the expression just around it is a call of which it is an
argument of the argument's type. -/
def convertArgument? (param arg : String) :
    PlacedExpr × PlacedExpr → Guarded (Option Repair)
  | (child, .call tag _ args) => do
    match indexIn? args child with
    | some i =>
      let type? ← typeOf info s child.ref
      if type? = some arg && info.oracle.convertible arg param then
        return some (.convert (.callArg tag.id i) param arg none)
      else return none
    | none => return none
  | _ => return none

/-- The balancing of the expression just around another one, if it is a binary expression with that
operand and operands of the two types. -/
def balanceAround? (leftType rightType : String) :
    PlacedExpr × PlacedExpr → Guarded (Option Repair)
  | (child, .binary tag _ left right) => do
    let l? ← typeOf info s left.ref
    let r? ← typeOf info s right.ref
    if (child.ref = left.ref || child.ref = right.ref) && l? = some leftType
        && r? = some rightType then
      return some (.balance tag.id)
    else return none
  | _ => return none

/-- The result of a `return`, to be converted to the type that its function declares. -/
def repairResult? (actual : String) : Guarded (Option Repair) :=
  match path.stmtPair? with
  | some (child, .ret tag results) => do
    let type? ← typeOf info s child.ref
    return do
      let i ← indexIn? results child
      let declared ← path.function.results[i]?
      let want ← info.oracle.denoted declared
      let got ← type?
      if info.oracle.convertible got want then
        return .convert (.returnValue tag.id i) want actual none
      else none
  | _ => return none

/-- The repair that mends a clash reported at the end of a path, if there is one. -/
def repair? : Clash → Guarded (Option Repair)
  | .declaration declared value => repairDeclaration? info s path declared value
  | .argument param arg => path.exprPairs.findSomeM? (convertArgument? info s param arg)
  | .assignment target source => return Clash.repairAssignment? path target source
  | .operands left right => path.exprPairs.findSomeM? (balanceAround? info s left right)
  | .result _ actual => repairResult? info s path actual

end

/-- The repair for one diagnostic. -/
def planOne (mapper : Mapper) (info : TypeInfo) (s : Store) (d : Diagnostic) :
    Guarded (Except MisplacedClash (Option Repair)) := do
  match mapper d.message with
  | none => return .ok none
  | some clash =>
    match ← pathAt s d.pos with
    | some path => do
      if path.innermostSpan.start = d.pos then
        let repair? ← repair? info s path clash
        return .ok repair?
      else return .error ⟨d.pos, d.message⟩
    | none => return .error ⟨d.pos, d.message⟩

/-- The repairs for a list of diagnostics, in order. -/
def planAll (mapper : Mapper) (info : TypeInfo) (s : Store) :
    List Diagnostic → Guarded (Except MisplacedClash (List Repair))
  | [] => return .ok []
  | d :: ds => do
    match ← planOne mapper info s d with
    | .error e => return .error e
    | .ok repair? => do
      let found ← planAll mapper info s ds
      return found.map (repair?.toList ++ ·)

end Guarded

namespace Yields

variable {s : Store} {p : PlacedProgram} {e : PlacedExpr} {info : TypeInfo} {pos : Nat}

/-! ### Paths -/

theorem exprSpan (h : s.HasExpr e) : Yields (Guarded.exprSpan s e.ref) e.span := by
  obtain ⟨node, hnode, hspan⟩ := Option.map_eq_some_iff.1 h.spanOf?
  rw [← hspan]
  exact (entry hnode).bind (pure _)

theorem stmtSpan {st : PlacedStmt} (h : s.HasStmt st) :
    Yields (Guarded.stmtSpan s st.ref) st.span := by
  obtain ⟨node, hnode, hspan⟩ := Option.map_eq_some_iff.1 h.spanOf?
  rw [← hspan]
  exact (entry hnode).bind (pure _)

/-- The first of some nodes is found as in the tree. -/
theorem firstAt {spanOf : Nat → Guarded Span} {ref : α → Nat} {test : α → Bool} {xs : List α}
    (h : ∀ x ∈ xs, ∃ span, Yields (spanOf (ref x)) span ∧ span.contains pos = test x) :
    Yields (Guarded.firstAt spanOf pos (xs.map ref)) ((xs.find? test).map ref) := by
  induction xs with
  | nil => exact pure none
  | cons x xs ih =>
    obtain ⟨span, hspan, htest⟩ := h x List.mem_cons_self
    rw [List.map_cons, Guarded.firstAt, List.find?_cons]
    refine hspan.bind ?_
    rw [htest]
    cases test x with
    | true => exact pure _
    | false => exact ih fun x hx => h x (List.mem_cons_of_mem _ hx)

theorem firstExpr {es : List PlacedExpr} (h : ∀ e ∈ es, s.HasExpr e) (pos : Nat) :
    Yields (Guarded.firstAt (Guarded.exprSpan s) pos (es.map Expr.ref))
      ((es.find? (Expr.encloses pos)).map Expr.ref) :=
  firstAt fun e he => ⟨e.span, exprSpan (h e he), (h e he).encloses.symm⟩

theorem firstStmt {sts : List PlacedStmt} (h : ∀ st ∈ sts, s.HasStmt st) (pos : Nat) :
    Yields (Guarded.firstAt (Guarded.stmtSpan s) pos (sts.map Stmt.ref))
      ((sts.find? (·.encloses pos)).map Stmt.ref) :=
  firstAt fun st hst => ⟨st.span, stmtSpan (h st hst), (h st hst).encloses.symm⟩

/-- The children of an expression are found at its node. -/
theorem children (h : s.HasExpr e) : ∃ node, s.exprs[e.ref]? = some node ∧
    Yields (Guarded.children s node.shape) (e.children.map Expr.ref) := by
  obtain ⟨shape, hs, hn⟩ := h
  cases e with
  | hole => cases hs
  | literal | name =>
    cases hs
    obtain ⟨_, hnode, -⟩ := hn
    exact ⟨_, hnode, pure _⟩
  | paren | neg | binary =>
    cases hs
    exact ⟨_, hn, pure _⟩
  | call =>
    cases hs
    obtain ⟨slice, hnode, hargs⟩ := hn
    exact ⟨_, hnode, hargs.read.bind (pure _)⟩

theorem stmtChildren {st : PlacedStmt} (h : s.HasStmt st) : ∃ node, s.stmts[st.ref]? = some node ∧
    Yields (Guarded.stmtChildren s node.shape) (st.children.map Expr.ref) := by
  obtain ⟨shape, hs, hn⟩ := h
  cases st with
  | hole => cases hs
  | var =>
    cases hs
    obtain ⟨_, _, _, _, hnode, -, -, -, hvs⟩ := hn
    exact ⟨_, hnode, hvs.read⟩
  | assign tag targets values =>
    cases hs
    obtain ⟨_, _, hnode, hts, hvs⟩ := hn
    rw [Stmt.children, List.map_append]
    exact ⟨_, hnode, hts.read.bind (hvs.read.bind (pure _))⟩
  | ret =>
    cases hs
    obtain ⟨_, hnode, hrs⟩ := hn
    exact ⟨_, hnode, hrs.read⟩
  | expr =>
    cases hs
    exact ⟨_, hn, pure _⟩

/-- The search below an expression passes the nodes of the chain. -/
theorem descend (h : s.Holds e) : ∀ {depth}, e.parts.length ≤ depth →
    Yields (Guarded.descend s pos depth e.ref) ((e.chain pos).map Expr.ref) := by
  induction e using Expr.inductChildren with
  | step e ih =>
    intro depth hd
    obtain ⟨depth, rfl, hdepth⟩ := Expr.exists_depth hd
    obtain ⟨hself, hholds⟩ := Store.holds_iff.1 h
    obtain ⟨node, hnode, hchildren⟩ := children hself
    have hfirst := firstExpr (fun c hc => hholds c hc c c.self_mem_parts) pos
    rw [Expr.chain_eq, Expr.firstChain_eq]
    refine (entry hnode).bind (hchildren.bind (hfirst.bind ?_))
    cases hfind : e.children.find? (Expr.encloses pos) with
    | none => exact pure _
    | some c =>
      have hc := List.mem_of_find?_eq_some hfind
      exact (ih c hc (hholds c hc) (hdepth c hc)).bind (pure _)

theorem chain (h : s.Represents p) {st : PlacedStmt} (hst : st ∈ p.stmts) :
    Yields (Guarded.chain s pos st.ref)
      ((Expr.firstChain pos st.children).map Expr.ref) := by
  have hreadable : ∀ e ∈ st.children, s.Readable e := fun e he =>
    h.readable (Store.Program.mem_parts_of_mem_children hst he)
  obtain ⟨node, hnode, hchildren⟩ := stmtChildren (h.stmts st hst)
  have hfirst := firstExpr (fun e he => (hreadable e he).holds e e.self_mem_parts) pos
  rw [Expr.firstChain_eq]
  refine (entry hnode).bind (hchildren.bind (hfirst.bind ?_))
  cases hfind : st.children.find? (Expr.encloses pos) with
  | none => exact pure _
  | some root =>
    have hroot := hreadable root (List.mem_of_find?_eq_some hfind)
    exact descend hroot.holds hroot.length

/-- Searches of two lists whose items correspond to each other come to the same end. -/
theorem find?_cases {R : α → β → Prop} {f : α → Bool} {g : β → Bool} {xs : List α} {ys : List β}
    (h : List.Forall₂ R xs ys) (agree : ∀ x y, R x y → f x = g y) :
    (xs.find? f = none ∧ ys.find? g = none) ∨
      ∃ x y, R x y ∧ xs.find? f = some x ∧ ys.find? g = some y := by
  induction h with
  | nil => exact .inl ⟨rfl, rfl⟩
  | @cons x y xs ys hxy _ ih =>
    rw [List.find?_cons, List.find?_cons, agree x y hxy]
    cases g y with
    | true => exact .inr ⟨x, y, hxy, rfl, rfl⟩
    | false => exact ih

/-- Searching a store for a position finds the path in the program that it represents. -/
theorem pathAt (h : s.Represents p) (pos : Nat) : Yields (Guarded.pathAt s pos) (p.pathAt pos) := by
  obtain ⟨xs, hxs, hall⟩ := functions h
  refine hxs.bind ?_
  have hfind := find?_cases hall fun x f hx =>
    (by rw [Function.encloses, hx.span] : x.2.span.contains pos = f.encloses pos)
  rw [Program.pathAt]
  rcases hfind with ⟨hx, hf⟩ | ⟨x, f, hdeclares, hx, hf⟩
  · rw [hx, hf]
    exact pure none
  · rw [hx, hf]
    have hstmts : ∀ st ∈ f.body, st ∈ p.stmts := fun st hst =>
      List.mem_flatMap.2 ⟨f, hdeclares.mem, hst⟩
    refine (functionTree h hdeclares).bind (hdeclares.body.read.bind
      ((firstStmt (fun st hst => h.stmts st (hstmts st hst)) pos).bind ?_))
    dsimp only
    cases hst : f.body.find? (·.encloses pos) with
    | none => exact pure _
    | some st =>
      have hmem := hstmts st (List.mem_of_find?_eq_some hst)
      have hreadable : ∀ e ∈ (Expr.firstChain pos st.children).reverse, s.Readable e := by
        intro e he
        rw [List.mem_reverse] at he
        rcases Expr.firstChain_cases pos st.children with ⟨-, hnil⟩ | ⟨root, hr, -, hchain⟩
        · rw [hnil] at he
          cases he
        · rw [hchain] at he
          exact (h.readable (Store.Program.mem_parts_of_mem_children hmem hr)).part
            ((Expr.chain_sublist pos root).subset he)
      refine (chain h hmem).bind ((stmt h hmem).bind ?_)
      rw [← List.map_reverse]
      exact (mapM_ref fun e he => expr (hreadable e he)).bind (pure _)

/-! ### Repairs -/

theorem typeOf (h : s.Represents p) (info : TypeInfo) (he : e ∈ p.parts) :
    Yields (Guarded.typeOf info s e.ref) (info.oracle.typeOf s e.ref) := by
  show Yields _ ((info.typeOf (s.expr e.ref)).map BasicType.name)
  rw [h.expr he]
  exact (expr (h.readable he)).bind (pure _)

theorem ite {c : Prop} [Decidable c] (a b : α) :
    Yields (if c then Pure.pure a else Pure.pure b) (if c then a else b) := by
  split
  · exact pure a
  · exact pure b

theorem findSomeM? {f : α → Guarded (Option β)} {g : α → Option β} {xs : List α}
    (h : ∀ x ∈ xs, Yields (f x) (g x)) : Yields (xs.findSomeM? f) (xs.findSome? g) := by
  induction xs with
  | nil => exact pure none
  | cons x xs ih =>
    rw [List.findSomeM?_cons, List.findSome?_cons]
    refine (h x List.mem_cons_self).bind ?_
    cases g x with
    | some y => exact pure _
    | none => exact ih fun x hx => h x (List.mem_cons_of_mem _ hx)

end Yields

namespace Path

variable {p : PlacedProgram} {pos : Nat} {path : Path ExprId Placed}

theorem mem_of_stmtPair? {child : PlacedExpr} {st : PlacedStmt}
    (h : path.stmtPair? = some (child, st)) : child ∈ path.exprs ∧ path.stmt? = some st := by
  unfold stmtPair? at h
  split at h
  · rename_i hlast hstmt
    cases h
    exact ⟨List.mem_of_getLast? hlast, hstmt⟩
  · cases h

theorem mem_of_exprPairs {pair : PlacedExpr × PlacedExpr} (h : pair ∈ path.exprPairs) :
    pair.1 ∈ path.exprs ∧ pair.2 ∈ path.exprs :=
  have hzip := List.of_mem_zip h
  ⟨hzip.1, List.mem_of_mem_tail hzip.2⟩

end Path

namespace Yields

variable {s : Store} {p : PlacedProgram} {info : TypeInfo} {pos : Nat} {path : Path ExprId Placed}

section

variable (h : s.Represents p) (hp : p.Passes pos path)
include h hp

theorem repairDeclaration? (declared value : String) :
    Yields (Guarded.repairDeclaration? info s path declared value)
      (Clash.repairDeclaration? info.oracle s path declared value) := by
  unfold Guarded.repairDeclaration? Clash.repairDeclaration?
  cases hpair : path.stmtPair? with
  | none => exact pure none
  | some pair =>
    obtain ⟨child, st⟩ := pair
    have htype := typeOf h info (hp.exprs_mem child (Path.mem_of_stmtPair? hpair).1)
    cases st with
    | var tag names type? values =>
      cases type? with
      | none => exact pure none
      | some type => exact htype.bind (ite _ _)
    | _ => exact pure none

theorem convertArgument? (param arg : String) {pair : PlacedExpr × PlacedExpr}
    (hpair : pair ∈ path.exprPairs) :
    Yields (Guarded.convertArgument? info s param arg pair)
      (Clash.convertArgument? info.oracle s param arg pair) := by
  obtain ⟨child, around⟩ := pair
  have htype := typeOf h info (hp.exprs_mem child (Path.mem_of_exprPairs hpair).1)
  cases around with
  | call tag callee args =>
    unfold Guarded.convertArgument? Clash.convertArgument?
    dsimp only
    cases indexIn? args child with
    | none => exact pure none
    | some i => exact htype.bind (ite _ _)
  | _ => exact pure none

theorem balanceAround? (left right : String) {pair : PlacedExpr × PlacedExpr}
    (hpair : pair ∈ path.exprPairs) :
    Yields (Guarded.balanceAround? info s left right pair)
      (Clash.balanceAround? info.oracle s left right pair) := by
  obtain ⟨child, around⟩ := pair
  have hmem := hp.exprs_mem around (Path.mem_of_exprPairs hpair).2
  cases around with
  | binary tag op l r =>
    have hl : l ∈ p.parts := Program.mem_parts_of_child hmem (by simp [Expr.children])
    have hr : r ∈ p.parts := Program.mem_parts_of_child hmem (by simp [Expr.children])
    exact (typeOf h info hl).bind ((typeOf h info hr).bind (ite _ _))
  | _ => exact pure none

theorem repairResult? (actual : String) :
    Yields (Guarded.repairResult? info s path actual)
      (Clash.repairResult? info.oracle s path actual) := by
  unfold Guarded.repairResult? Clash.repairResult?
  cases hpair : path.stmtPair? with
  | none => exact pure none
  | some pair =>
    obtain ⟨child, st⟩ := pair
    have htype := typeOf h info (hp.exprs_mem child (Path.mem_of_stmtPair? hpair).1)
    cases st with
    | ret => exact htype.bind (pure _)
    | _ => exact pure none

theorem repair? (clash : Clash) :
    Yields (Guarded.repair? info s path clash) (clash.repair? info.oracle s path) := by
  cases clash with
  | declaration declared value => exact repairDeclaration? h hp declared value
  | argument param arg => exact findSomeM? fun pair => convertArgument? h hp param arg
  | assignment => exact pure _
  | operands left right => exact findSomeM? fun pair => balanceAround? h hp left right
  | result expected actual => exact repairResult? h hp actual

end

theorem planOne (h : s.Represents p) (mapper : Mapper) (info : TypeInfo) (d : Diagnostic) :
    Yields (Guarded.planOne mapper info s d) (Recast.planOne mapper info.oracle s p d) := by
  unfold Guarded.planOne Recast.planOne
  cases mapper d.message with
  | none => exact pure _
  | some clash =>
    refine (pathAt h d.pos).bind ?_
    cases hpath : p.pathAt d.pos with
    | none => exact pure _
    | some path =>
      dsimp only
      split
      · exact (repair? h (Program.passes_of_pathAt hpath) clash).bind (pure _)
      · exact pure _

/-- Planning repairs for a store that represents a program cannot crash. -/
theorem planAll (h : s.Represents p) (mapper : Mapper) (info : TypeInfo) (ds : List Diagnostic) :
    Yields (Guarded.planAll mapper info s ds) (Recast.planAll mapper info.oracle s ds) := by
  show Yields _ ((ds.mapM (Recast.planOne mapper info.oracle s s.program)) >>=
    fun found => .ok (found.filterMap id))
  rw [h.program]
  induction ds with
  | nil => exact pure _
  | cons d ds ih =>
    rw [List.mapM_cons]
    refine (planOne h mapper info d).bind ?_
    cases Recast.planOne mapper info.oracle s p d with
    | error e => exact pure _
    | ok repair? =>
      refine ih.bind ?_
      cases ds.mapM (Recast.planOne mapper info.oracle s p) with
      | error e => exact pure _
      | ok found =>
        cases repair? with
        | none => exact pure _
        | some repair => exact pure _

end Yields

/-! ### What repairs name -/

/-- The node of a slot is in the store. -/
structure Slot.InStore (s : Store) (slot : Slot) : Prop where
  expr : ∀ id ∈ slot.expr?, id < s.exprs.size
  stmt : ∀ id ∈ slot.stmt?, id < s.stmts.size

/-- The nodes that a repair names are in the store. -/
def Repair.InStore (s : Store) : Repair → Prop
  | convert slot _ _ condition? => slot.InStore s ∧ ∀ goal ∈ condition?, goal < s.exprs.size
  | balance id => id < s.exprs.size

section

variable {s : Store} {p : PlacedProgram} {path : Path ExprId Placed} {pos : Nat} {q : TypeOracle}
  {repair : Repair}

/-- The slots of a statement of the program are in the store. -/
theorem Slot.InStore.of_stmt (h : s.Represents p) {st : PlacedStmt} (hst : st ∈ p.stmts)
    {slot : Slot} (hslot : slot.stmt? = some st.ref) : slot.InStore s where
  expr id hid := by
    cases slot with
    | callArg | operand => cases hslot
    | _ => cases hid
  stmt id hid := by
    rw [hslot] at hid
    obtain rfl := Option.some.inj hid
    exact (h.stmts st hst).ref_lt

namespace Clash

variable (h : s.Represents p) (hp : p.Passes pos path)
include h hp

theorem inStore_of_repairDeclaration? {declared value : String}
    (hr : repairDeclaration? q s path declared value = some repair) : repair.InStore s := by
  unfold repairDeclaration? at hr
  split at hr
  · rename_i child tag names type values hpair
    split at hr
    · obtain ⟨i, -, rfl⟩ := Option.map_eq_some_iff.1 hr
      have hst := hp.stmt_mem_stmts (Path.mem_of_stmtPair? hpair).2
      exact ⟨.of_stmt h hst rfl, fun _ hgoal => nomatch hgoal⟩
    · cases hr
  · cases hr

theorem inStore_of_convertArgument? {param arg : String} {pair : PlacedExpr × PlacedExpr}
    (hpair : pair ∈ path.exprPairs) (hr : convertArgument? q s param arg pair = some repair) :
    repair.InStore s := by
  have hlt := (h.exprs _ (hp.exprs_mem pair.2 (Path.mem_of_exprPairs hpair).2)).ref_lt
  unfold convertArgument? at hr
  split at hr
  · split at hr
    · split at hr
      · obtain rfl := Option.some.inj hr
        refine ⟨⟨fun id hid => ?_, fun _ hid => nomatch hid⟩, fun _ hgoal => nomatch hgoal⟩
        obtain rfl := Option.some.inj hid
        exact hlt
      · cases hr
    · cases hr
  · cases hr

theorem inStore_of_repairAssignment? {target source : String}
    (hr : repairAssignment? path target source = some repair) : repair.InStore s := by
  unfold repairAssignment? at hr
  split at hr
  · rename_i child tag targets values hpair
    split at hr
    · obtain ⟨left, hleft, rfl⟩ := Option.map_eq_some_iff.1 hr
      have hst := hp.stmt_mem_stmts (Path.mem_of_stmtPair? hpair).2
      have hmem : left ∈ p.parts := Store.Program.mem_parts_of_mem_children hst
        (List.mem_append_left _ (List.mem_of_getElem? hleft))
      refine ⟨.of_stmt h hst rfl, fun goal hgoal => ?_⟩
      obtain rfl := Option.some.inj hgoal
      exact (h.exprs left hmem).ref_lt
    · cases hr
  · cases hr

theorem inStore_of_balanceAround? {left right : String} {pair : PlacedExpr × PlacedExpr}
    (hpair : pair ∈ path.exprPairs) (hr : balanceAround? q s left right pair = some repair) :
    repair.InStore s := by
  have hlt := (h.exprs _ (hp.exprs_mem pair.2 (Path.mem_of_exprPairs hpair).2)).ref_lt
  unfold balanceAround? at hr
  split at hr
  · split at hr
    · obtain rfl := Option.some.inj hr
      exact hlt
    · cases hr
  · cases hr

theorem inStore_of_repairResult? {actual : String}
    (hr : repairResult? q s path actual = some repair) : repair.InStore s := by
  unfold repairResult? at hr
  split at hr
  · rename_i child tag results hpair
    simp only [Option.bind_eq_bind, Option.bind_eq_some_iff] at hr
    obtain ⟨i, -, declared, -, want, -, got, -, hr⟩ := hr
    split at hr
    · obtain rfl := Option.some.inj hr
      have hst := hp.stmt_mem_stmts (Path.mem_of_stmtPair? hpair).2
      exact ⟨.of_stmt h hst rfl, fun _ hgoal => nomatch hgoal⟩
    · cases hr
  · cases hr

/-- Repairs name nodes of the path. -/
theorem inStore_of_repair? {clash : Clash} (hr : clash.repair? q s path = some repair) :
    repair.InStore s := by
  cases clash with
  | declaration => exact inStore_of_repairDeclaration? h hp hr
  | argument =>
    obtain ⟨pair, hpair, hr⟩ := List.exists_of_findSome?_eq_some hr
    exact inStore_of_convertArgument? h hp hpair hr
  | assignment => exact inStore_of_repairAssignment? h hp hr
  | operands =>
    obtain ⟨pair, hpair, hr⟩ := List.exists_of_findSome?_eq_some hr
    exact inStore_of_balanceAround? h hp hpair hr
  | result => exact inStore_of_repairResult? h hp hr

end Clash

theorem exists_of_mapM_ok {f : α → Except γ β} {xs : List α} :
    ∀ {ys : List β}, xs.mapM f = .ok ys → ∀ y ∈ ys, ∃ x ∈ xs, f x = .ok y := by
  induction xs with
  | nil =>
    intro ys h y hy
    cases h
    cases hy
  | cons x xs ih =>
    intro ys h y hy
    rw [List.mapM_cons] at h
    cases hx : f x with
    | error e =>
      rw [hx] at h
      cases h
    | ok y' =>
      rw [hx] at h
      cases hxs : xs.mapM f with
      | error e =>
        rw [hxs] at h
        cases h
      | ok ys' =>
        rw [hxs] at h
        cases h
        rcases List.mem_cons.1 hy with rfl | hy
        · exact ⟨x, List.mem_cons_self, hx⟩
        · obtain ⟨x', hx', hf⟩ := ih hxs y hy
          exact ⟨x', List.mem_cons_of_mem _ hx', hf⟩

theorem inStore_of_planOne (h : s.Represents p) {mapper : Mapper} {d : Diagnostic}
    (hplan : planOne mapper q s p d = .ok (some repair)) : repair.InStore s := by
  unfold planOne at hplan
  cases hm : mapper d.message with
  | none =>
    rw [hm] at hplan
    cases hplan
  | some clash =>
    rw [hm] at hplan
    cases hpath : p.pathAt d.pos with
    | none =>
      rw [hpath] at hplan
      cases hplan
    | some path =>
      rw [hpath] at hplan
      dsimp only at hplan
      split at hplan
      · exact Clash.inStore_of_repair? h (Program.passes_of_pathAt hpath) (Except.ok.inj hplan)
      · cases hplan

/-- All nodes that planned repairs name are in the store. -/
theorem inStore_of_planAll (h : s.Represents p) {mapper : Mapper} {ds : List Diagnostic}
    {repairs : List Repair} (hplan : planAll mapper q s ds = .ok repairs) :
    ∀ repair ∈ repairs, repair.InStore s := by
  intro repair hr
  rw [planAll, h.program] at hplan
  cases hfound : ds.mapM (planOne mapper q s p) with
  | error e =>
    rw [hfound] at hplan
    cases hplan
  | ok found =>
    rw [hfound] at hplan
    cases hplan
    obtain ⟨repair?, hmem, rfl⟩ := List.mem_filterMap.1 hr
    obtain ⟨d, -, hd⟩ := exists_of_mapM_ok hfound _ hmem
    exact inStore_of_planOne h hd

end

end Recast
