import Mathlib.Data.List.Forall2
import Recast.Proofs.Store.Forget

/-!
# Places in programs with the same code

Programs with the same code have their expressions in the same order. So a place in one of them can
be told in the other one, whatever ids and spans their nodes have: it is where as many expressions
come before.
-/

namespace Recast

/-! ### Lists in step -/

section Lists

variable {β γ δ κ : Type} {R : β → γ → Prop} {xs : List β} {ys : List γ}

theorem forall₂_of_map_eq {f : β → κ} {g : γ → κ} (h : xs.map f = ys.map g) :
    List.Forall₂ (fun x y => f x = g y) xs ys := by
  rw [← List.forall₂_map_right_iff (R := fun x b => f x = b), ← h, List.forall₂_map_right_iff]
  exact List.forall₂_same.2 fun _ _ => rfl

/-- An item of a list has a partner in a list in step. -/
theorem exists_zip_of_getElem? (h : List.Forall₂ R xs ys) {k : Nat} {x : β} (hx : xs[k]? = some x) :
    ∃ y, ys[k]? = some y ∧ R x y ∧ (x, y) ∈ xs.zip ys := by
  obtain ⟨hk, rfl⟩ := List.getElem?_eq_some_iff.1 hx
  have hk' : k < ys.length := h.length_eq ▸ hk
  have hzip : (xs.zip ys)[k]? = some (xs[k], ys[k]) :=
    List.getElem?_zip_eq_some.2 ⟨hx, List.getElem?_eq_getElem hk'⟩
  have hmem := List.mem_of_getElem? hzip
  exact ⟨ys[k], List.getElem?_eq_getElem hk', (List.forall₂_iff_zip.1 h).2 hmem, hmem⟩

theorem exists_zip_of_mem (h : List.Forall₂ R xs ys) {x : β} (hx : x ∈ xs) :
    ∃ y, R x y ∧ (x, y) ∈ xs.zip ys := by
  obtain ⟨k, hk⟩ := List.getElem?_of_mem hx
  obtain ⟨y, -, hy⟩ := exists_zip_of_getElem? h hk
  exact ⟨y, hy⟩

/-- Lists that are made piece by piece of lists in step are in step when the pieces are as long. -/
theorem mem_zip_flatMap {f : β → List δ} {g : γ → List κ} (h : List.Forall₂ R xs ys)
    (hlength : ∀ x y, R x y → (f x).length = (g y).length) {a : δ} {b : κ} :
    (a, b) ∈ (xs.flatMap f).zip (ys.flatMap g) ↔
      ∃ x y, (x, y) ∈ xs.zip ys ∧ (a, b) ∈ (f x).zip (g y) := by
  induction h with
  | nil => simp
  | @cons x y xs ys hxy _ ih =>
    rw [List.flatMap_cons, List.flatMap_cons, List.zip_append (hlength x y hxy), List.mem_append,
      ih, List.zip_cons_cons]
    simp only [List.mem_cons, Prod.mk.injEq]
    constructor
    · intro h
      rcases h with h | ⟨x', y', hmem, h⟩
      · exact ⟨x, y, .inl ⟨rfl, rfl⟩, h⟩
      · exact ⟨x', y', .inr hmem, h⟩
    · intro h
      obtain ⟨x', y', ⟨rfl, rfl⟩ | hmem, h⟩ := h
      · exact .inl h
      · exact .inr ⟨x', y', hmem, h⟩

end Lists

/-! ### Expressions -/

namespace Expr

variable {e e' a a' b b' : PlacedExpr}

theorem forall₂_children (h : e.bare = e'.bare) :
    List.Forall₂ (fun c c' => c.bare = c'.bare) e.children e'.children := by
  have := congrArg children h
  rw [bare, bare, children_retag, children_retag] at this
  exact forall₂_of_map_eq this

theorem forall₂_parts (h : e.bare = e'.bare) :
    List.Forall₂ (fun c c' => c.bare = c'.bare) e.parts e'.parts := by
  have := congrArg parts h
  rw [bare, bare, parts_retag, parts_retag] at this
  exact forall₂_of_map_eq this

theorem length_parts_eq (h : e.bare = e'.bare) : e.parts.length = e'.parts.length :=
  (forall₂_parts h).length_eq

theorem mem_zip_parts (h : e.bare = e'.bare) : (a, a') ∈ e.parts.zip e'.parts ↔
    (a = e ∧ a' = e') ∨
      ∃ c c', (c, c') ∈ e.children.zip e'.children ∧ (a, a') ∈ c.parts.zip c'.parts := by
  rw [parts_eq e, parts_eq e', List.zip_cons_cons, List.mem_cons, Prod.mk.injEq,
    mem_zip_flatMap (forall₂_children h) fun _ _ => length_parts_eq]

/-- The parts of partners are partners. -/
theorem mem_zip_parts_trans (h : e.bare = e'.bare) (ha : (a, a') ∈ e.parts.zip e'.parts)
    (hb : (b, b') ∈ a.parts.zip a'.parts) : (b, b') ∈ e.parts.zip e'.parts := by
  induction e using inductChildren generalizing e' with
  | step e ih =>
    rcases (mem_zip_parts h).1 ha with ⟨rfl, rfl⟩ | ⟨c, c', hc, ha⟩
    · exact hb
    · have hbare : c.bare = c'.bare := (List.forall₂_iff_zip.1 (forall₂_children h)).2 hc
      exact (mem_zip_parts h).2 (.inr ⟨c, c', hc, ih c (List.of_mem_zip hc).1 hbare ha⟩)

end Expr

/-! ### Programs -/

/-- The expressions stand at the same place of two programs with the same code: both come after as
many other ones. -/
def Program.SamePlace (p p' : PlacedProgram) (e e' : PlacedExpr) : Prop :=
  (e, e') ∈ p.parts.zip p'.parts

section Programs

variable {p p' : PlacedProgram} {f f' : PlacedFunction} {s s' : PlacedStmt}
  {root root' e e' : PlacedExpr}

theorem Stmt.forall₂_children (h : s.bare = s'.bare) :
    List.Forall₂ (fun c c' => c.bare = c'.bare) s.children s'.children := by
  have := congrArg children h
  rw [children_bare, children_bare] at this
  exact forall₂_of_map_eq this

/-- Expressions that have the same place in statements that have the same place in functions that
have the same place have the same place. -/
theorem Program.samePlace_of_mem
    (h : p.functions.map Function.bare = p'.functions.map Function.bare)
    (hf : (f, f') ∈ p.functions.zip p'.functions) (hs : (s, s') ∈ f.body.zip f'.body)
    (hroot : (root, root') ∈ s.children.zip s'.children)
    (he : (e, e') ∈ root.parts.zip root'.parts) : p.SamePlace p' e e' := by
  have hstmts : p.stmts.map Stmt.bare = p'.stmts.map Stmt.bare := by
    rw [bare_stmts, bare_stmts, h]
  have hexprs : p.exprs.map Expr.bare = p'.exprs.map Expr.bare := by
    rw [bare_exprs, bare_exprs, hstmts]
  have hbody (f f' : PlacedFunction) (hff : f.bare = f'.bare) : f.body.length = f'.body.length := by
    have hlength := congrArg (fun f : Function Unit Unit => f.body.length) hff
    simpa [Function.bare] using hlength
  refine (mem_zip_flatMap (forall₂_of_map_eq hexprs) fun _ _ => Expr.length_parts_eq).2
    ⟨root, root', ?_, he⟩
  refine (mem_zip_flatMap (forall₂_of_map_eq hstmts) fun _ _ hss =>
    (Stmt.forall₂_children hss).length_eq).2 ⟨s, s', ?_, hroot⟩
  exact (mem_zip_flatMap (forall₂_of_map_eq h) hbody).2 ⟨f, f', hf, hs⟩

end Programs

end Recast
