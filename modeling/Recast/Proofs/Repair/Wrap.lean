import Mathlib.Data.List.Nodup
import Recast.Proofs.Store.Holds
import Recast.Proofs.Types.Remarks

/-!
# Trees with conversions put around expressions

Repairs put conversions around expressions of a program and change nothing else. `Program.wrap` is
the program after that: it is made from the original program and from what was put around which of
its expressions, told by their ids.
-/

namespace Recast

/-- Types as conversions name them. A repair names any type, a checked program only types that there
are. -/
class Spelled (τ : Type) where
  spelling : τ → String

instance : Spelled BasicType := ⟨BasicType.name⟩

instance : Spelled String := ⟨id⟩

/-- A conversion that is put around an expression: the tags of its two nodes, and its type. -/
structure Insertion (τ : Type) where
  callee : Placed
  call : Placed
  type : τ

variable {τ : Type} [Spelled τ]

/-- The conversion of an expression. -/
def Insertion.around (i : Insertion τ) (e : PlacedExpr) : PlacedExpr :=
  .call i.call (.name i.callee (Spelled.spelling i.type)) [e]

theorem Insertion.around_eq (i : Insertion BasicType) (e : PlacedExpr) :
    i.around e = .call i.call (.name i.callee i.type.name) [e] := rfl

@[simp] theorem Spelled.spelling_basicType (t : BasicType) : spelling t = t.name := rfl

/-- What is put around expressions, by their ids. -/
abbrev Insertions (τ : Type) := ExprId → Option (Insertion τ)

namespace Insertions

variable (W : Insertions τ)

/-- Nothing is put around any expression. -/
def empty : Insertions τ := fun _ => none

/-- A conversion is put around one more expression. -/
def insert (id : ExprId) (i : Insertion τ) : Insertions τ := fun other =>
  if other = id then some i else W other

/-- Puts what is to be put around expression number `id` around the expression `e`. -/
def place (id : ExprId) (e : PlacedExpr) : PlacedExpr :=
  match W id with
  | some i => i.around e
  | none => e

/-- The id of what takes the place of an expression. -/
def rename (id : ExprId) : ExprId :=
  match W id with
  | some i => i.call.id
  | none => id

/-- The ids of an expression and of what is put around it, from outside. -/
def ids (id : ExprId) : List ExprId :=
  match W id with
  | some i => [i.call.id, i.callee.id, id]
  | none => [id]

/-- The types of the conversions that are put around expressions, by their ids. -/
def types (id : ExprId) : Option τ := (W id).map Insertion.type

/-- Only types that can be written are named by conversions around the expressions. -/
def Written (W : Insertions BasicType) (es : List PlacedExpr) : Prop :=
  ∀ e ∈ es, ∀ i, W e.ref = some i → i.type.isUntyped = false

end Insertions

/-! ### Wrapping -/

mutual

/-- The expression with conversions put around expressions below it. -/
def Expr.wrapBelow (W : Insertions τ) : PlacedExpr → PlacedExpr
  | .hole id => .hole id
  | .literal tag kind lexeme => .literal tag kind lexeme
  | .name tag text => .name tag text
  | .paren tag inner => .paren tag (W.place inner.ref (inner.wrapBelow W))
  | .neg tag operand => .neg tag (W.place operand.ref (operand.wrapBelow W))
  | .binary tag op left right =>
    .binary tag op (W.place left.ref (left.wrapBelow W)) (W.place right.ref (right.wrapBelow W))
  | .call tag callee args =>
    .call tag (W.place callee.ref (callee.wrapBelow W)) (Expr.wrapAll W args)

/-- The expressions with conversions put around them and around expressions below them. -/
def Expr.wrapAll (W : Insertions τ) : List PlacedExpr → List PlacedExpr
  | [] => []
  | e :: es => W.place e.ref (e.wrapBelow W) :: Expr.wrapAll W es

end

namespace Expr

variable {W : Insertions τ}

/-- The expression with conversions put around it and around expressions below it. -/
def wrap (W : Insertions τ) (e : PlacedExpr) : PlacedExpr := W.place e.ref (e.wrapBelow W)

@[simp] theorem wrapAll_eq (es : List PlacedExpr) : wrapAll W es = es.map (wrap W) := by
  induction es with
  | nil => rfl
  | cons e es ih => rw [wrapAll, ih, List.map_cons, wrap]

@[simp] theorem ref_wrapBelow (e : PlacedExpr) : (e.wrapBelow W).ref = e.ref := by
  cases e <;> rfl

@[simp] theorem tag?_wrapBelow (e : PlacedExpr) : (e.wrapBelow W).tag? = e.tag? := by
  cases e <;> rfl

@[simp] theorem span_wrapBelow (e : PlacedExpr) : (e.wrapBelow W).span = e.span := by
  cases e <;> rfl

@[simp] theorem children_wrapBelow (e : PlacedExpr) :
    (e.wrapBelow W).children = e.children.map (wrap W) := by
  cases e <;> simp [wrapBelow, children, wrap]

theorem wrap_of_none {e : PlacedExpr} (h : W e.ref = none) : e.wrap W = e.wrapBelow W := by
  rw [wrap, Insertions.place, h]

theorem wrap_of_some {e : PlacedExpr} {i : Insertion τ} (h : W e.ref = some i) :
    e.wrap W = i.around (e.wrapBelow W) := by
  rw [wrap, Insertions.place, h]

@[simp] theorem ref_wrap (e : PlacedExpr) : (e.wrap W).ref = W.rename e.ref := by
  rw [wrap, Insertions.place, Insertions.rename]
  cases W e.ref with
  | none => exact ref_wrapBelow e
  | some i => rfl

theorem ref_comp_wrap : Expr.ref ∘ wrap W = W.rename ∘ Expr.ref := funext ref_wrap

end Expr

/-- The statement with conversions put around expressions in it. -/
def Stmt.wrap (W : Insertions τ) : PlacedStmt → PlacedStmt
  | .hole id => .hole id
  | .var tag names type? values => .var tag names type? (values.map (Expr.wrap W))
  | .assign tag targets values =>
    .assign tag (targets.map (Expr.wrap W)) (values.map (Expr.wrap W))
  | .ret tag values => .ret tag (values.map (Expr.wrap W))
  | .expr tag e => .expr tag (e.wrap W)

/-- The function with conversions put around expressions in it. -/
def Function.wrap (W : Insertions τ) (f : PlacedFunction) : PlacedFunction :=
  { f with body := f.body.map (Stmt.wrap W) }

/-- The program with conversions put around expressions in it. -/
def Program.wrap (W : Insertions τ) (p : PlacedProgram) : PlacedProgram :=
  { p with functions := p.functions.map (Function.wrap W) }

@[simp] theorem Stmt.ref_wrap (W : Insertions τ) (s : PlacedStmt) : (s.wrap W).ref = s.ref := by
  cases s <;> rfl

@[simp] theorem Stmt.span_wrap (W : Insertions τ) (s : PlacedStmt) : (s.wrap W).span = s.span := by
  cases s <;> rfl

@[simp] theorem Stmt.children_wrap (W : Insertions τ) (s : PlacedStmt) :
    (s.wrap W).children = s.children.map (Expr.wrap W) := by
  cases s <;> simp [Stmt.wrap, Stmt.children]

@[simp] theorem Program.stmts_wrap (W : Insertions τ) (p : PlacedProgram) :
    (p.wrap W).stmts = p.stmts.map (Stmt.wrap W) := by
  simp [Program.stmts, Program.wrap, List.flatMap_map, List.map_flatMap, Function.wrap]

/-! ### Without insertions -/

section Empty

open Insertions (empty)

theorem Expr.wrap_empty (e : PlacedExpr) : e.wrap (empty : Insertions τ) = e := by
  induction e using Expr.inductArgs with
  | hole | literal | name => rfl
  | paren tag inner ih => exact congrArg _ ih
  | neg tag operand ih => exact congrArg _ ih
  | binary tag op left right ihl ihr => exact congrArg₂ _ ihl ihr
  | call tag callee args ihc iha =>
    rw [wrap_of_none rfl, wrapBelow, wrapAll_eq, List.map_congr_left iha, List.map_id']
    exact congrArg (Expr.call tag · args) ihc

theorem Stmt.wrap_empty (s : PlacedStmt) : s.wrap (empty : Insertions τ) = s := by
  have hmap (es : List PlacedExpr) : es.map (Expr.wrap (empty : Insertions τ)) = es := by
    rw [List.map_congr_left fun e _ => e.wrap_empty, List.map_id']
  cases s <;> simp [Stmt.wrap, hmap, Expr.wrap_empty]

theorem Function.wrap_empty (f : PlacedFunction) : f.wrap (empty : Insertions τ) = f := by
  rw [wrap, List.map_congr_left fun s _ => s.wrap_empty, List.map_id']

theorem Program.wrap_empty (p : PlacedProgram) : p.wrap (empty : Insertions τ) = p := by
  rw [wrap, List.map_congr_left fun f _ => f.wrap_empty, List.map_id']

end Empty

/-! ### Nodes -/

/-- The nodes that an expression and what is put around it have, from outside. -/
def Insertions.nodes (W : Insertions τ) (e : PlacedExpr) : List PlacedExpr :=
  match W e.ref with
  | some i => [i.around (e.wrapBelow W), .name i.callee (Spelled.spelling i.type), e.wrapBelow W]
  | none => [e.wrapBelow W]

theorem Expr.parts_wrap (W : Insertions τ) (e : PlacedExpr) :
    (e.wrap W).parts = e.parts.flatMap W.nodes := by
  induction e using Expr.inductChildren with
  | step e ih =>
    have hbelow : (e.wrapBelow W).parts
        = e.wrapBelow W :: (e.children.flatMap Expr.parts).flatMap W.nodes := by
      rw [parts_eq, children_wrapBelow, List.flatMap_map, List.flatMap_assoc]
      exact congrArg _ (List.flatMap_congr fun child hc => ih child hc)
    rw [parts_eq e, List.flatMap_cons, Insertions.nodes]
    cases h : W e.ref with
    | none =>
      rw [wrap_of_none h, hbelow]
      rfl
    | some i =>
      rw [wrap_of_some h]
      simp [Insertion.around, Expr.parts, hbelow]

theorem Program.parts_wrap (W : Insertions τ) (p : PlacedProgram) :
    (p.wrap W).parts = p.parts.flatMap W.nodes := by
  rw [parts, exprs, stmts_wrap, parts, exprs]
  simp only [List.flatMap_map, Stmt.children_wrap, List.flatMap_assoc, Expr.parts_wrap]

theorem Program.wrapBelow_mem_parts (W : Insertions τ) {p : PlacedProgram} {e : PlacedExpr}
    (he : e ∈ p.parts) : e.wrapBelow W ∈ (p.wrap W).parts := by
  rw [parts_wrap]
  refine List.mem_flatMap.2 ⟨e, he, ?_⟩
  rw [Insertions.nodes]
  split <;> simp

theorem Insertions.map_ref_nodes (W : Insertions τ) (e : PlacedExpr) :
    (W.nodes e).map Expr.ref = W.ids e.ref := by
  rw [nodes, ids]
  cases W e.ref with
  | none => simp
  | some i => simp only [List.map_cons, List.map_nil, Expr.ref_wrapBelow]; rfl

theorem Program.ids_wrap (W : Insertions τ) (p : PlacedProgram) :
    (p.wrap W).parts.map Expr.ref = (p.parts.map Expr.ref).flatMap W.ids := by
  rw [parts_wrap, List.map_flatMap, List.flatMap_map]
  exact List.flatMap_congr fun e _ => W.map_ref_nodes e

/-! ### Shapes -/

/-- The shape with other ids for the children. -/
def ExprShape.rename {ν : Type} (f : ExprId → ExprId) : ExprShape ν List → ExprShape ν List
  | literal kind lexeme => literal kind lexeme
  | name text => name text
  | paren inner => paren (f inner)
  | neg operand => neg (f operand)
  | binary op left right => binary op (f left) (f right)
  | call callee args => call (f callee) (args.map f)

/-- The shape with other ids for the expressions. -/
def StmtShape.rename {ν : Type} (f : ExprId → ExprId) : StmtShape ν List → StmtShape ν List
  | var names type? values => var names type? (values.map f)
  | assign targets values => assign (targets.map f) (values.map f)
  | ret results => ret (results.map f)
  | expr e => expr (f e)

theorem Expr.shape?_wrapBelow (W : Insertions τ) (e : PlacedExpr) :
    (e.wrapBelow W).shape? = e.shape?.map (ExprShape.rename W.rename) := by
  have href (e : PlacedExpr) : (W.place e.ref (e.wrapBelow W)).ref = W.rename e.ref := ref_wrap e
  cases e <;> simp [wrapBelow, shape?, ExprShape.rename, href, ref_comp_wrap]

theorem Stmt.shape?_wrap (W : Insertions τ) (s : PlacedStmt) :
    (s.wrap W).shape? = s.shape?.map (StmtShape.rename W.rename) := by
  cases s <;> simp [Stmt.wrap, shape?, StmtShape.rename, Expr.ref_comp_wrap]

end Recast
