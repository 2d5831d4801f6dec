import Recast.Proofs.Store.Renumber

/-!
# Programs that stand elsewhere

`Function.forget` takes the spans away from a function and leaves its code and its ids. A store
numbers the nodes of a program in the order in which they are read, so two programs with the same
code are the same without their spans.
-/

namespace Recast

/-! ### Programs without spans -/

/-- The tag without its span. -/
def Placed.forget (tag : Placed) : Placed := ⟨tag.id, ⟨0, 0⟩⟩

mutual

/-- The expression without its spans. -/
def Expr.forget : PlacedExpr → PlacedExpr
  | .hole id => .hole id
  | .literal tag kind lexeme => .literal tag.forget kind lexeme
  | .name tag text => .name tag.forget text
  | .paren tag inner => .paren tag.forget inner.forget
  | .neg tag operand => .neg tag.forget operand.forget
  | .binary tag op left right => .binary tag.forget op left.forget right.forget
  | .call tag callee args => .call tag.forget callee.forget (Expr.forgetAll args)

/-- The expressions without their spans. -/
def Expr.forgetAll : List PlacedExpr → List PlacedExpr
  | [] => []
  | e :: es => e.forget :: Expr.forgetAll es

end

/-- The statement without its spans. -/
def Stmt.forget : PlacedStmt → PlacedStmt
  | .hole id => .hole id
  | .var tag names type? values =>
    .var tag.forget names (type?.map TypeRef.bare) (values.map Expr.forget)
  | .assign tag targets values =>
    .assign tag.forget (targets.map Expr.forget) (values.map Expr.forget)
  | .ret tag values => .ret tag.forget (values.map Expr.forget)
  | .expr tag e => .expr tag.forget e.forget

/-- The function without its spans. -/
def Function.forget (f : PlacedFunction) : PlacedFunction :=
  ⟨⟨0, ⟨0, 0⟩⟩, f.name, f.params.map Param.bare, f.results.map TypeRef.bare,
    f.body.map Stmt.forget⟩

/-! ### What stays -/

@[simp] theorem Placed.id_forget (tag : Placed) : tag.forget.id = tag.id := rfl

@[simp] theorem Placed.span_forget (tag : Placed) : tag.forget.span = ⟨0, 0⟩ := rfl

namespace Expr

@[simp] theorem forgetAll_eq (es : List PlacedExpr) : forgetAll es = es.map forget := by
  induction es with
  | nil => rfl
  | cons e es ih => rw [forgetAll, ih, List.map_cons]

/-- Without its spans an expression is as it is with the same ids. -/
theorem renumber_id (e : PlacedExpr) : e.renumber id = e.forget := by
  induction e using Expr.inductArgs with
  | hole | literal | name => rfl
  | paren tag _ ih => exact congrArg (Expr.paren tag.forget) ih
  | neg tag _ ih => exact congrArg (Expr.neg tag.forget) ih
  | binary tag op _ _ ihl ihr => exact congrArg₂ (Expr.binary tag.forget op) ihl ihr
  | call tag _ args ihc iha =>
    rw [renumber, forget, renumberAll_eq, forgetAll_eq, ihc, List.map_congr_left iha]
    rfl

theorem map_renumber_id (es : List PlacedExpr) : es.map (renumber id) = es.map forget :=
  List.map_congr_left fun e _ => e.renumber_id

@[simp] theorem ref_forget (e : PlacedExpr) : e.forget.ref = e.ref := by
  rw [← renumber_id, ref_renumber, id]

@[simp] theorem span_forget (e : PlacedExpr) : e.forget.span = ⟨0, 0⟩ := by
  rw [← renumber_id, span_renumber]

@[simp] theorem bare_forget (e : PlacedExpr) : e.forget.bare = e.bare := by
  rw [← renumber_id, bare_renumber]

@[simp] theorem text_forget (e : PlacedExpr) : e.forget.text = e.text :=
  text_eq_of_bare e.bare_forget

end Expr

/-- Without its spans a statement is as it is with the same ids. -/
theorem Stmt.renumber_refl (s : PlacedStmt) : s.renumber .refl = s.forget := by
  cases s with
  | hole => rfl
  | expr tag e => exact congrArg (Stmt.expr tag.forget) e.renumber_id
  | var | assign | ret =>
    simp only [renumber, forget, Renumbering.refl, Expr.map_renumber_id]
    rfl

theorem Stmt.map_renumber_refl (body : List PlacedStmt) :
    body.map (renumber .refl) = body.map forget :=
  List.map_congr_left fun s _ => s.renumber_refl

@[simp] theorem Stmt.ref_forget (s : PlacedStmt) : s.forget.ref = s.ref := by
  cases s <;> rfl

@[simp] theorem Stmt.bare_forget (s : PlacedStmt) : s.forget.bare = s.bare := by
  rw [← renumber_refl, bare_renumber]

@[simp] theorem Function.name_forget (f : PlacedFunction) : f.forget.name = f.name := rfl

@[simp] theorem Function.bare_forget (f : PlacedFunction) : f.forget.bare = f.bare := by
  simp [forget, bare, Function.comp_def, Param.bare, TypeRef.bare]

/-! ### The same code with the same numbers -/

theorem Program.bare_stmts (p : PlacedProgram) :
    p.stmts.map Stmt.bare = (p.functions.map Function.bare).flatMap Function.body := by
  rw [stmts, List.map_flatMap, List.flatMap_map]
  rfl

theorem Program.bare_exprs (p : PlacedProgram) :
    p.exprs.map Expr.bare = (p.stmts.map Stmt.bare).flatMap Stmt.children := by
  rw [exprs, List.map_flatMap, List.flatMap_map]
  exact List.flatMap_congr fun s _ => s.children_bare.symm

/-- Programs with the same code and the same ids are the same without their spans. -/
theorem Program.forget_eq {p p' : PlacedProgram}
    (h : p.functions.map Function.bare = p'.functions.map Function.bare)
    (hstmts : p.stmts.map Stmt.ref = p'.stmts.map Stmt.ref)
    (hexprs : p.exprs.flatMap Expr.numbers = p'.exprs.flatMap Expr.numbers) :
    p.functions.map Function.forget = p'.functions.map Function.forget := by
  have hforget (p : PlacedProgram) : p.stmts.map Stmt.forget
      = p.functions.flatMap fun f => f.body.map Stmt.forget := by
    rw [stmts, List.map_flatMap]
  have hforgotten : p.stmts.map Stmt.forget = p'.stmts.map Stmt.forget := by
    rw [exprs, exprs, List.flatMap_assoc, List.flatMap_assoc] at hexprs
    rw [← Stmt.map_renumber_refl, ← Stmt.map_renumber_refl]
    refine Stmt.map_renumber_eq ?_ (congrArg (List.map id) hstmts) (congrArg (List.map id) hexprs)
    rw [bare_stmts, bare_stmts, h]
  refine map_eq_of_flatMap_eq Function.bare Function.bare (fun f => f.body.map Stmt.forget)
    (fun f => f.body.map Stmt.forget) ?_ ?_ h
    (by rw [← hforget, ← hforget, hforgotten])
  · intro f f' h
    have hbody : f.body.map Stmt.bare = f'.body.map Stmt.bare := congrArg Function.body h
    simpa using congrArg List.length hbody
  · intro f _ f' h hbody
    obtain ⟨-, hname, hparams, hresults, -⟩ := Function.mk.inj h
    rw [Function.forget, Function.forget, hname, hparams, hresults, hbody]

/-! ### Numbered programs -/

/-- The nodes of a program are numbered in the order in which they are read. -/
structure Program.Numbered (p : PlacedProgram) : Prop where
  stmts : p.stmts.map Stmt.ref = List.range p.stmts.length
  exprs : p.exprs.flatMap Expr.numbers = List.range (p.exprs.flatMap Expr.numbers).length

theorem Store.Numbers.numbered {s : Store} {p : PlacedProgram} (h : s.Numbers p) :
    p.Numbered where
  stmts := by
    have hlength := congrArg List.length h.stmts
    rw [List.length_map, List.length_range] at hlength
    rw [hlength, h.stmts]
  exprs := by
    have hnumbers : p.exprs.flatMap Expr.numbers = List.range s.exprs.size := by
      rw [← h.exprs, List.map_flatMap]
      rfl
    rw [hnumbers, List.length_range]

/-- A numbered program is, without its spans, told by its code. -/
theorem Program.Numbered.forget_eq {p p' : PlacedProgram} (hp : p.Numbered) (hp' : p'.Numbered)
    (h : p.functions.map Function.bare = p'.functions.map Function.bare) :
    p.functions.map Function.forget = p'.functions.map Function.forget := by
  have hstmts : p.stmts.map Stmt.bare = p'.stmts.map Stmt.bare := by
    rw [Program.bare_stmts, Program.bare_stmts, h]
  have hexprs : p.exprs.map Expr.bare = p'.exprs.map Expr.bare := by
    rw [Program.bare_exprs, Program.bare_exprs, hstmts]
  have hlength : p.stmts.length = p'.stmts.length := by
    simpa using congrArg List.length hstmts
  apply Program.forget_eq h
  · rw [hp.stmts, hp'.stmts, hlength]
  · rw [hp.exprs, hp'.exprs, Expr.length_flatMap_numbers, Expr.length_flatMap_numbers, hexprs]

end Recast
