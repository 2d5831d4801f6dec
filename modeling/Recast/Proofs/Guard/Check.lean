import Recast.Proofs.Guard.Read
import Recast.Types.Checker

/-!
# Guarded type checking

The type checker as it goes through a store by ids. Each node and each list has its guard, and so has
the argument that is one too many for a function. Of a store that represents a program it finds what
the checker finds in the program.
-/

namespace Recast

open Checker

variable {α β γ : Type}

/-- Steps of a checker that may crash. -/
abbrev Checking := StateT Checker.State Guarded

namespace Checking

/-- A step that cannot crash. -/
def plain (y : Check α) : Checking α := fun σ => return y σ

/-- A step that knows nothing of the checker. -/
def guarded (x : Guarded α) : Checking α := fun σ => do
  let a ← x
  return (a, σ)

end Checking

open Checking

namespace Guarded

/-! ### Expressions -/

/-- Checks that there are enough arguments for a function, and not too many. -/
def checkCount (tag : Placed) (function : String) (signature : Signature)
    (args : List PlacedExpr) : Checking Unit := do
  if args.length < signature.requiredArgs then
    plain (report tag.span (.missingArgument function))
  else if !signature.variadic && signature.params.length < args.length then
    let extra ← guarded (entry args.toArray signature.params.length)
    plain (report extra.span (.extraArgument function))

/-- Checks a call of a function whose arguments have the given types. -/
def checkCall (tag : Placed) (callee : PlacedExpr) (signature : Signature)
    (args : List PlacedExpr) (types : List (Option BasicType)) : Checking (Option BasicType) := do
  checkCount tag callee.text signature args
  plain (checkFits (.argument callee.text) args types (signature.targets args.length))
  return signature.value?

/-- Checks expressions in order; `found` has the types of earlier ones, last first. -/
def checkEach (step : ExprId → Checking (Option BasicType)) (found : List (Option BasicType)) :
    List ExprId → Checking (List (Option BasicType))
  | [] => return found.reverse
  | id :: ids => do
    let type? ← step id
    checkEach step (type? :: found) ids

/-- Checks an expression down to a given depth and works out its type. -/
def checkExpr (s : Store) : (depth : Nat) → ExprId → Checking (Option BasicType)
  | 0, _ => guarded (crash .endless)
  | depth + 1, id => do
    let node ← guarded (entry s.exprs id)
    let tag : Placed := ⟨id, node.span⟩
    match node.shape with
    | .literal .int _ => return some .untypedInt
    | .literal .float _ => return some .untypedFloat
    | .name text => plain (checkName tag (s.text text))
    | .paren inner => checkExpr s depth inner
    | .neg operand => do
      match ← checkExpr s depth operand with
      | some type => do
        let operand ← guarded (expr s operand)
        plain (checkNegation tag operand type)
      | none => return none
    | .binary op left right => do
      let l? ← checkExpr s depth left
      let r? ← checkExpr s depth right
      match l?, r? with
      | some l, some r => do
        let left ← guarded (expr s left)
        let right ← guarded (expr s right)
        plain (checkOperands tag op left right l r)
      | _, _ => return none
    | .call calleeId slice => do
      let ids ← guarded (s.exprLists.read slice)
      let callee ← guarded (expr s calleeId)
      plain (bindCallee callee)
      match (← get).info.callee callee with
      | .variable type? => do
        let _ ← checkEach (checkExpr s depth) [] ids
        plain do
          report tag.span (.notFunction callee.text (← quote? callee type?))
          return none
      | .conversion target => do
        let types ← checkEach (checkExpr s depth) [] ids
        let args ← guarded (ids.mapM (expr s))
        plain (checkConversion tag target args types)
      | .function signature => do
        let types ← checkEach (checkExpr s depth) [] ids
        let args ← guarded (ids.mapM (expr s))
        checkCall tag callee signature args types
      | .println => do
        let _ ← checkEach (checkExpr s depth) [] ids
        return none
      | .undefined => do
        let _ ← checkEach (checkExpr s depth) [] ids
        plain do
          report callee.span (.undefined callee.text)
          return none
      | .compound => do
        let _ ← checkExpr s depth calleeId
        let _ ← checkEach (checkExpr s depth) [] ids
        plain do
          report tag.span (.notFunction callee.text none)
          return none

/-- Checks the expressions of a list. Yields them and their types. -/
def checkList (s : Store) (slice : Slice ExprId) :
    Checking (List PlacedExpr × List (Option BasicType)) := do
  let ids ← guarded (s.exprLists.read slice)
  let types ← checkEach (checkExpr s s.exprs.size) [] ids
  let values ← guarded (ids.mapM (expr s))
  return (values, types)

/-! ### Statements and functions -/

/-- Checks a statement of a function with the given result types. -/
def checkStmt (s : Store) (results : List (Option BasicType)) (id : StmtId) : Checking Unit := do
  let node ← guarded (entry s.stmts id)
  let tag : Placed := ⟨id, node.span⟩
  match node.shape with
  | .var names type? values => do
    let names ← guarded (s.nameLists.read names)
    let declared? ← plain (checkDeclared? (type?.map s.typeText))
    let (values, types) ← checkList s values
    plain do
      if !values.isEmpty && values.length != names.length then
        report tag.span (.countMismatch names.length values.length)
      else match declared? with
        | some target? => checkFits .declaration values types (values.map fun _ => target?)
        | none => pure ()
      declareAll tag.span declared? (names.map s.text) types
  | .assign targets values => do
    let targets ← guarded (exprList s targets)
    let wanted ← plain (targets.mapM checkTarget)
    let (values, types) ← checkList s values
    plain do
      if targets.length = values.length then checkFits .assignment values types wanted
      else report tag.span (.countMismatch targets.length values.length)
  | .ret values => do
    let (values, types) ← checkList s values
    plain do
      if values.length = results.length then checkFits .result values types results
      else report tag.span (.resultCount types results)
  | .expr e => do
    let type? ← checkExpr s s.exprs.size e
    let e ← guarded (expr s e)
    plain do
      if !e.isCall then report e.span (.unused e.text (← quote? e type?))

/-- Checks the body of a function against the signature recorded under its name. -/
def checkFunction (s : Store) (id : FunctionId) (node : Node (FunctionShape Name Slice)) :
    Checking Unit := do
  let f ← guarded (signature s id node)
  match (← get).info.signatures[f.name]? with
  | none => return
  | some signature => do
    modify fun σ => { σ with locals := parameterLocals f.params signature.params }
    let body ← guarded (s.stmtLists.read node.shape.body)
    body.forM (checkStmt s signature.results)

/-- Checks a program: all signatures first, then the bodies. -/
def checkProgram (s : Store) : Checking Unit := do
  let functions ← guarded (functions s)
  functions.forM fun (id, node) => do
    let f ← guarded (signature s id node)
    plain (declareFunction f)
  functions.forM fun (id, node) => checkFunction s id node

/-- Checks the program of a store. -/
def check (s : Store) : Guarded Checked := do
  let ((), state) ← (checkProgram s).run Checker.start
  return ⟨state.findings.toList, state.info⟩

end Guarded

/-! ### Checkers that agree -/

/-- From each state the guarded step yields what the plain one does. -/
def Follows (x : Checking α) (y : Check α) : Prop := ∀ σ, Yields (x σ) (y σ)

namespace Follows

variable {x : Checking α} {y : Check α}

theorem pure (a : α) : Follows (Pure.pure a) (Pure.pure a) := fun _ => .pure _

theorem plain (y : Check α) : Follows (plain y) y := fun _ => .pure _

theorem bind {f : α → Checking β} {g : α → Check β} (h : Follows x y)
    (h' : ∀ a, Follows (f a) (g a)) : Follows (x >>= f) (y >>= g) := fun σ =>
  (h σ).bind (h' _ _)

theorem guarded {x : Guarded α} {a : α} {f : α → Checking β} {y : Check β} (h : Yields x a)
    (h' : Follows (f a) y) : Follows (guarded x >>= f) y := fun σ =>
  (h.bind (.pure (a, σ))).bind (h' σ)

theorem get : Follows get get := fun _ => .pure _

theorem modify (f : Checker.State → Checker.State) : Follows (modify f) (modify f) :=
  fun _ => .pure _

theorem forM {f : α → Checking Unit} {g : β → Check Unit} {xs : List α} {ys : List β}
    (h : List.Forall₂ (fun x y => Follows (f x) (g y)) xs ys) :
    Follows (xs.forM f) (ys.forM g) := by
  induction h with
  | nil => exact pure ()
  | cons hx _ ih => exact hx.bind fun _ => ih

variable {s : Store} {p : PlacedProgram} {e : PlacedExpr} {es : List PlacedExpr}

theorem checkCall (tag : Placed) (callee : PlacedExpr) (signature : Signature)
    (args : List PlacedExpr) (types : List (Option BasicType)) :
    Follows (Guarded.checkCall tag callee signature args types)
      (Checker.checkCall tag callee signature args types) := by
  have hfits : Follows (do
        Checking.plain (checkFits (.argument callee.text) args types (signature.targets args.length))
        return signature.value?)
      (do
        checkFits (.argument callee.text) args types (signature.targets args.length)
        return signature.value?) := (plain _).bind fun _ => pure _
  rw [Guarded.checkCall, Guarded.checkCount, Checker.checkCall]
  dsimp only
  split
  · exact (plain _).bind fun _ => hfits
  · cases signature.variadic with
    | true => exact (pure ()).bind fun _ => hfits
    | false =>
      simp only [Bool.not_false, Bool.true_and, decide_eq_true_eq, if_true]
      by_cases hlt : signature.params.length < args.length
      · rw [List.getElem?_eq_getElem hlt, if_pos hlt]
        have hextra : args.toArray[signature.params.length]? = some args[signature.params.length] := by
          rw [List.getElem?_toArray, List.getElem?_eq_getElem hlt]
        exact (guarded (.entry hextra) (plain _)).bind fun _ => hfits
      · rw [List.getElem?_eq_none (Nat.le_of_not_lt hlt), if_neg hlt]
        exact (pure ()).bind fun _ => hfits

theorem checkEach {step : ExprId → Checking (Option BasicType)}
    (h : ∀ e ∈ es, Follows (step e.ref) (Checker.checkExpr e)) :
    ∀ found, Follows (Guarded.checkEach step found (es.map Expr.ref))
      (Checker.checkExprs found es) := by
  induction es with
  | nil =>
    intro found
    rw [Checker.checkExprs]
    exact pure _
  | cons e es ih =>
    intro found
    rw [Checker.checkExprs]
    exact (h e List.mem_cons_self).bind fun type? =>
      ih (fun e he => h e (List.mem_cons_of_mem _ he)) (type? :: found)

theorem checkExpr (h : s.Readable e) : ∀ {depth}, e.parts.length ≤ depth →
    Follows (Guarded.checkExpr s depth e.ref) (Checker.checkExpr e) := by
  induction e using Expr.inductChildren with
  | step e ih =>
    intro depth hd
    obtain ⟨depth, rfl, hdepth⟩ := Expr.exists_depth hd
    obtain ⟨shape, hs, hn⟩ := (Store.holds_iff.1 h.holds).1
    have hchild : ∀ child ∈ e.children,
        Follows (Guarded.checkExpr s depth child.ref) (Checker.checkExpr child) := fun child hc =>
      ih child hc (h.child hc) (hdepth child hc)
    have hread : ∀ child ∈ e.children, Yields (Guarded.expr s child.ref) child := fun child hc =>
      .expr (h.child hc)
    cases e with
    | hole => cases hs
    | literal tag kind lexeme =>
      cases hs
      obtain ⟨n, hnode, -⟩ := hn
      rw [Checker.checkExpr.eq_def]
      cases kind with
      | int => exact guarded (.entry hnode) (pure _)
      | float => exact guarded (.entry hnode) (pure _)
    | name tag text =>
      cases hs
      obtain ⟨n, hnode, htext⟩ := hn
      rw [Checker.checkExpr, ← Store.text_of_string? htext]
      exact guarded (.entry hnode) (plain _)
    | paren tag inner =>
      cases hs
      rw [Checker.checkExpr]
      exact guarded (.entry hn) (hchild inner (by simp [Expr.children]))
    | neg tag operand =>
      cases hs
      rw [Checker.checkExpr]
      refine guarded (.entry hn) ((hchild operand (by simp [Expr.children])).bind fun type? => ?_)
      cases type? with
      | none => exact pure _
      | some type => exact guarded (hread operand (by simp [Expr.children])) (plain _)
    | binary tag op left right =>
      cases hs
      rw [Checker.checkExpr]
      refine guarded (.entry hn) ((hchild left (by simp [Expr.children])).bind fun l? =>
        (hchild right (by simp [Expr.children])).bind fun r? => ?_)
      cases l? with
      | none => exact pure _
      | some l => cases r? with
        | none => exact pure _
        | some r =>
          exact guarded (hread left (by simp [Expr.children]))
            (guarded (hread right (by simp [Expr.children])) (plain _))
    | call tag callee args =>
      cases hs
      obtain ⟨slice, hnode, hids⟩ := hn
      have heach : Follows (Guarded.checkEach (Guarded.checkExpr s depth) [] (args.map Expr.ref))
          (Checker.checkExprs [] args) :=
        checkEach (fun arg ha => hchild arg (List.mem_cons_of_mem _ ha)) []
      have hargs : Yields ((args.map Expr.ref).mapM (Guarded.expr s)) args :=
        .mapM_ref fun arg ha => hread arg (List.mem_cons_of_mem _ ha)
      rw [Checker.checkExpr]
      refine guarded (.entry hnode) (guarded hids.read (guarded (hread callee List.mem_cons_self)
        ((plain _).bind fun _ => get.bind fun σ => ?_)))
      cases σ.info.callee callee with
      | «variable» type? => exact heach.bind fun _ => plain _
      | conversion target => exact heach.bind fun types => guarded hargs (plain _)
      | function signature => exact heach.bind fun types => guarded hargs (checkCall _ _ _ _ _)
      | println => exact heach.bind fun _ => pure _
      | undefined => exact heach.bind fun _ => plain _
      | compound =>
        exact (hchild callee List.mem_cons_self).bind fun _ => heach.bind fun _ => plain _

theorem checkList {slice : Slice ExprId} (hk : s.exprLists.Keeps slice (es.map Expr.ref))
    (h : ∀ e ∈ es, s.Readable e) {f : List PlacedExpr × List (Option BasicType) → Checking β}
    {g : List (Option BasicType) → Check β} (h' : ∀ types, Follows (f (es, types)) (g types)) :
    Follows (Guarded.checkList s slice >>= f) (checkExprs [] es >>= g) := by
  have heach : Follows (Guarded.checkEach (Guarded.checkExpr s s.exprs.size) [] (es.map Expr.ref))
      (checkExprs [] es) := checkEach (fun e he => checkExpr (h e he) (h e he).length) []
  have hread : Yields ((es.map Expr.ref).mapM (Guarded.expr s)) es :=
    .mapM_ref fun e he => .expr (h e he)
  rw [Guarded.checkList]
  simp only [bind_assoc, pure_bind]
  exact guarded hk.read (heach.bind fun types => guarded hread (h' types))

theorem checkStmt (h : s.Represents p) {st : PlacedStmt} (hst : st ∈ p.stmts)
    (results : List (Option BasicType)) :
    Follows (Guarded.checkStmt s results st.ref) (Checker.checkStmt results st) := by
  have hreadable : ∀ e ∈ st.children, s.Readable e := fun e he =>
    h.readable (Store.Program.mem_parts_of_mem_children hst he)
  obtain ⟨shape, hs, hn⟩ := h.stmts st hst
  cases st with
  | hole => cases hs
  | var tag names type? values =>
    cases hs
    obtain ⟨ns, ns', t?, vs, hnode, hns, hnames, ht, hvs⟩ := hn
    rw [Checker.checkStmt, ← Store.map_typeText_of_type? ht]
    refine guarded (.entry hnode) (guarded hns.read ((plain _).bind fun declared? => ?_))
    rw [checkDeclaration, ← Store.map_of_map_some Store.text_of_string? hnames, List.length_map]
    exact checkList hvs hreadable fun types => plain _
  | assign tag targets values =>
    cases hs
    obtain ⟨ts, vs, hnode, hts, hvs⟩ := hn
    rw [Checker.checkStmt]
    have htargets := Yields.exprList hts fun e he => hreadable e (List.mem_append_left _ he)
    exact guarded (.entry hnode) (guarded htargets ((plain _).bind fun wanted =>
      checkList hvs (fun e he => hreadable e (List.mem_append_right _ he)) fun types => plain _))
  | ret tag values =>
    cases hs
    obtain ⟨vs, hnode, hvs⟩ := hn
    rw [Checker.checkStmt]
    exact guarded (.entry hnode) (checkList hvs hreadable fun types => plain _)
  | expr tag e =>
    cases hs
    have he := hreadable e (by simp [Stmt.children])
    rw [Checker.checkStmt]
    exact guarded (.entry hn) ((checkExpr he he.length).bind fun type? =>
      guarded (.expr he) (plain _))

theorem checkFunction (h : s.Represents p) {x : FunctionId × Node (FunctionShape Name Slice)}
    {f : PlacedFunction} (hx : s.Declares p x f) :
    Follows (Guarded.checkFunction s x.1 x.2) (Checker.checkFunction f) := by
  refine guarded hx.signature (get.bind fun σ => ?_)
  dsimp only
  cases σ.info.signatures[f.name]? with
  | none => exact pure ()
  | some signature =>
    refine (modify _).bind fun _ => guarded hx.body.read (forM ?_)
    rw [List.forall₂_map_left_iff]
    exact List.forall₂_same.2 fun st hst =>
      checkStmt h (List.mem_flatMap.2 ⟨f, hx.mem, hst⟩) signature.results

theorem checkProgram (h : s.Represents p) :
    Follows (Guarded.checkProgram s) (Checker.checkProgram p) := by
  obtain ⟨xs, hxs, hall⟩ := Yields.functions h
  refine guarded hxs ((forM (hall.imp fun x f hx => ?_)).bind fun _ =>
    forM (hall.imp fun x f hx => checkFunction h hx))
  exact guarded hx.signature (plain (declareFunction f))

end Follows

/-- A store that represents a program can be checked, with the outcome that the program has. -/
theorem Yields.check {s : Store} {p : PlacedProgram} (h : s.Represents p) :
    Yields (Guarded.check s) p.check :=
  (Follows.checkProgram h Checker.start).bind (pure _)

end Recast
