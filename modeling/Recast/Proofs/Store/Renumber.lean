import Mathlib.Data.List.Basic
import Recast.Proofs.Store.Build

/-!
# Code with other ids

`Stmt.renumber` gives the nodes of a statement other ids and takes their spans away. Two statements
with the same code differ in ids and spans only, so one of them is the other one with the ids changed.
-/

namespace Recast

/-- Other ids for expressions and statements. -/
structure Renumbering where
  expr : ExprId → ExprId
  stmt : StmtId → StmtId

/-- All nodes keep their ids. -/
def Renumbering.refl : Renumbering := ⟨id, id⟩

/-- The tag with another id and without its span. -/
def Placed.renumber (n : Nat → Nat) (tag : Placed) : Placed := ⟨n tag.id, ⟨0, 0⟩⟩

mutual

/-- The expression with other ids and without its spans. -/
def Expr.renumber (n : ExprId → ExprId) : PlacedExpr → PlacedExpr
  | .hole id => .hole (n id)
  | .literal tag kind lexeme => .literal (tag.renumber n) kind lexeme
  | .name tag text => .name (tag.renumber n) text
  | .paren tag inner => .paren (tag.renumber n) (inner.renumber n)
  | .neg tag operand => .neg (tag.renumber n) (operand.renumber n)
  | .binary tag op left right =>
    .binary (tag.renumber n) op (left.renumber n) (right.renumber n)
  | .call tag callee args =>
    .call (tag.renumber n) (callee.renumber n) (Expr.renumberAll n args)

/-- The expressions with other ids and without their spans. -/
def Expr.renumberAll (n : ExprId → ExprId) : List PlacedExpr → List PlacedExpr
  | [] => []
  | e :: es => e.renumber n :: Expr.renumberAll n es

end

/-- The statement with other ids and without its spans. -/
def Stmt.renumber (ρ : Renumbering) : PlacedStmt → PlacedStmt
  | .hole id => .hole (ρ.stmt id)
  | .var tag names type? values =>
    .var (tag.renumber ρ.stmt) names (type?.map TypeRef.bare) (values.map (Expr.renumber ρ.expr))
  | .assign tag targets values =>
    .assign (tag.renumber ρ.stmt) (targets.map (Expr.renumber ρ.expr))
      (values.map (Expr.renumber ρ.expr))
  | .ret tag values => .ret (tag.renumber ρ.stmt) (values.map (Expr.renumber ρ.expr))
  | .expr tag e => .expr (tag.renumber ρ.stmt) (e.renumber ρ.expr)

/-! ### What stays -/

section

variable (n : ExprId → ExprId) (ρ : Renumbering)

@[simp] theorem Placed.id_renumber (n : Nat → Nat) (tag : Placed) :
    (tag.renumber n).id = n tag.id := rfl

@[simp] theorem Placed.span_renumber (n : Nat → Nat) (tag : Placed) :
    (tag.renumber n).span = ⟨0, 0⟩ := rfl

namespace Expr

@[simp] theorem renumberAll_eq (es : List PlacedExpr) : renumberAll n es = es.map (renumber n) := by
  induction es with
  | nil => rfl
  | cons e es ih => rw [renumberAll, ih, List.map_cons]

@[simp] theorem ref_renumber (e : PlacedExpr) : (e.renumber n).ref = n e.ref := by
  cases e <;> rfl

@[simp] theorem span_renumber (e : PlacedExpr) : (e.renumber n).span = ⟨0, 0⟩ := by
  cases e <;> rfl

@[simp] theorem bare_renumber (e : PlacedExpr) : (e.renumber n).bare = e.bare := by
  induction e using Expr.inductArgs with
  | hole | literal | name => rfl
  | paren _ _ ih => exact congrArg (Expr.paren ()) ih
  | neg _ _ ih => exact congrArg (Expr.neg ()) ih
  | binary _ op _ _ ihl ihr => exact congrArg₂ (Expr.binary () op) ihl ihr
  | call _ _ args ihc iha =>
    simp only [renumber, renumberAll_eq, bare, retag, retagAll_eq, List.map_map]
    exact congrArg₂ (Expr.call ()) ihc (List.map_congr_left iha)

@[simp] theorem text_renumber (e : PlacedExpr) : (e.renumber n).text = e.text :=
  text_eq_of_bare (e.bare_renumber n)

@[simp] theorem isCall_renumber (e : PlacedExpr) : (e.renumber n).isCall = e.isCall := by
  cases e <;> rfl

@[simp] theorem children_renumber (e : PlacedExpr) :
    (e.renumber n).children = e.children.map (renumber n) := by
  cases e <;> simp [renumber, children]

theorem parts_renumber (e : PlacedExpr) : (e.renumber n).parts = e.parts.map (renumber n) := by
  induction e using inductChildren with
  | step e ih =>
    rw [parts_eq, parts_eq e, children_renumber, List.flatMap_map, List.map_cons, List.map_flatMap]
    exact congrArg _ (List.flatMap_congr ih)

end Expr

@[simp] theorem Stmt.ref_renumber (s : PlacedStmt) : (s.renumber ρ).ref = ρ.stmt s.ref := by
  cases s <;> rfl

@[simp] theorem Stmt.bare_renumber (s : PlacedStmt) : (s.renumber ρ).bare = s.bare := by
  cases s with
  | var _ _ type? _ => cases type? <;> simp [renumber, bare, TypeRef.bare]
  | _ => simp [renumber, bare]

theorem Stmt.children_bare (s : PlacedStmt) : s.bare.children = s.children.map Expr.bare := by
  cases s <;> simp [bare, children]

end

/-! ### The same code -/

/-- Lists are mapped to the same if their elements are told by a key and by lists that make up the
same list. -/
theorem map_eq_of_flatMap_eq {β γ δ ω : Type} (key key' : β → γ) (ids ids' : β → List δ)
    {out out' : β → ω} {xs ys : List β}
    (hlength : ∀ x y, key x = key' y → (ids x).length = (ids' y).length)
    (hout : ∀ x ∈ xs, ∀ y, key x = key' y → ids x = ids' y → out x = out' y)
    (hkey : xs.map key = ys.map key') (hids : xs.flatMap ids = ys.flatMap ids') :
    xs.map out = ys.map out' := by
  induction xs generalizing ys with
  | nil =>
    obtain rfl := List.map_eq_nil_iff.1 hkey.symm
    rfl
  | cons x xs ih =>
    obtain ⟨y, ys, rfl, hfirst, hrest⟩ := List.map_eq_cons_iff.1 hkey.symm
    rw [List.flatMap_cons, List.flatMap_cons] at hids
    obtain ⟨hx, hxs⟩ := List.append_inj hids (hlength x y hfirst.symm)
    rw [List.map_cons, List.map_cons, hout x List.mem_cons_self y hfirst.symm hx,
      ih (fun x hx => hout x (List.mem_cons_of_mem _ hx)) hrest.symm hxs]

namespace Expr

/-- The ids of the nodes of an expression in the order in which a store numbers them. -/
def numbers (e : PlacedExpr) : List ExprId := e.postorder.map ref

theorem numbers_eq (e : PlacedExpr) : e.numbers = e.children.flatMap numbers ++ [e.ref] := by
  rw [numbers, postorder_eq, List.map_append, List.map_flatMap]
  rfl

theorem length_numbers (e : PlacedExpr) : e.numbers.length = e.bare.parts.length := by
  rw [numbers, List.length_map, e.postorder_perm.length_eq, bare, parts_retag, List.length_map]

theorem length_flatMap_numbers (es : List PlacedExpr) :
    (es.flatMap numbers).length = ((es.map bare).flatMap parts).length := by
  simp only [List.length_flatMap, List.map_map, Function.comp_def, length_numbers]

theorem perm_numbers (e : PlacedExpr) : e.numbers.Perm (e.parts.map ref) := e.postorder_perm.map ref

variable {n n' : ExprId → ExprId}

theorem map_renumber_eq {es es' : List PlacedExpr}
    (ih : ∀ e ∈ es, ∀ e' : PlacedExpr, e.bare = e'.bare → e.numbers.map n = e'.numbers.map n' →
      e.renumber n = e'.renumber n')
    (h : es.map bare = es'.map bare)
    (hids : (es.flatMap numbers).map n = (es'.flatMap numbers).map n') :
    es.map (renumber n) = es'.map (renumber n') := by
  rw [List.map_flatMap, List.map_flatMap] at hids
  refine map_eq_of_flatMap_eq bare bare _ _ (fun e e' h => ?_) ih h hids
  rw [List.length_map, List.length_map, length_numbers, length_numbers, h]

/-- An expression with other ids is told by its code, its id and its parts. -/
theorem renumber_eq_of_children {e e' : PlacedExpr} (h : e.bare = e'.bare) (href : n e.ref = n' e'.ref)
    (hchildren : e.children.map (renumber n) = e'.children.map (renumber n')) :
    e.renumber n = e'.renumber n' := by
  have htag {tag tag' : Placed} (h : n tag.id = n' tag'.id) : tag.renumber n = tag'.renumber n' :=
    congrArg (Placed.mk · ⟨0, 0⟩) h
  cases e with
  | hole id =>
    cases e' with
    | hole id' => exact congrArg hole href
    | _ => cases h
  | literal tag kind lexeme =>
    cases e' with
    | literal tag' kind' lexeme' =>
      cases h
      exact congrArg (literal · kind lexeme) (htag href)
    | _ => cases h
  | name tag text =>
    cases e' with
    | name tag' text' =>
      cases h
      exact congrArg (name · text) (htag href)
    | _ => cases h
  | paren tag inner =>
    cases e' with
    | paren tag' inner' => exact congrArg₂ paren (htag href) (List.cons.inj hchildren).1
    | _ => cases h
  | neg tag operand =>
    cases e' with
    | neg tag' operand' => exact congrArg₂ neg (htag href) (List.cons.inj hchildren).1
    | _ => cases h
  | binary tag op left right =>
    cases e' with
    | binary tag' op' left' right' =>
      obtain ⟨hleft, hright⟩ := List.cons.inj hchildren
      obtain rfl : op = op' := (binary.inj h).2.1
      rw [renumber, renumber, htag href, hleft, (List.cons.inj hright).1]
    | _ => cases h
  | call tag callee args =>
    cases e' with
    | call tag' callee' args' =>
      obtain ⟨hcallee, hargs⟩ := List.cons.inj hchildren
      rw [renumber, renumber, renumberAll_eq, renumberAll_eq, htag href, hcallee, hargs]
    | _ => cases h

/-- Expressions with the same code are the same with ids that agree. -/
theorem renumber_eq {e e' : PlacedExpr} (h : e.bare = e'.bare)
    (hids : e.numbers.map n = e'.numbers.map n') : e.renumber n = e'.renumber n' := by
  induction e using inductChildren generalizing e' with
  | step e ih =>
    rw [numbers_eq, numbers_eq, List.map_append, List.map_append] at hids
    obtain ⟨hids, href⟩ := List.append_inj' hids rfl
    have hbare : e.children.map bare = e'.children.map bare := by
      have := congrArg children h
      rwa [children_retag, children_retag] at this
    exact renumber_eq_of_children h (List.singleton_injective href)
      (map_renumber_eq (fun child hc _ => ih child hc) hbare hids)

end Expr

namespace Stmt

variable {ρ ρ' : Renumbering}

/-- The ids of the expressions in a statement in the order in which a store numbers them. -/
def numbers (s : PlacedStmt) : List ExprId := s.children.flatMap Expr.numbers

theorem length_numbers_eq {s s' : PlacedStmt} (h : s.bare = s'.bare) :
    s.numbers.length = s'.numbers.length := by
  rw [numbers, numbers, Expr.length_flatMap_numbers, Expr.length_flatMap_numbers, ← children_bare,
    ← children_bare, h]

/-- Statements with the same code are the same with ids that agree. -/
theorem renumber_eq {s s' : PlacedStmt} (h : s.bare = s'.bare) (href : ρ.stmt s.ref = ρ'.stmt s'.ref)
    (hids : s.numbers.map ρ.expr = s'.numbers.map ρ'.expr) : s.renumber ρ = s'.renumber ρ' := by
  have htag {tag tag' : Placed} (h : ρ.stmt tag.id = ρ'.stmt tag'.id) :
      tag.renumber ρ.stmt = tag'.renumber ρ'.stmt := congrArg (Placed.mk · ⟨0, 0⟩) h
  have hexprs (es es' : List PlacedExpr) (h : es.map Expr.bare = es'.map Expr.bare)
      (hids : (es.flatMap Expr.numbers).map ρ.expr = (es'.flatMap Expr.numbers).map ρ'.expr) :
      es.map (Expr.renumber ρ.expr) = es'.map (Expr.renumber ρ'.expr) :=
    Expr.map_renumber_eq (fun _ _ _ => Expr.renumber_eq) h hids
  cases s with
  | hole id =>
    cases s' with
    | hole id' => exact congrArg hole href
    | _ => cases h
  | var tag names type? values =>
    cases s' with
    | var tag' names' type?' values' =>
      obtain ⟨-, rfl, htype, hvalues⟩ := var.inj h
      rw [renumber, renumber, htag href, htype, hexprs values values' hvalues hids]
    | _ => cases h
  | assign tag targets values =>
    cases s' with
    | assign tag' targets' values' =>
      obtain ⟨-, htargets, hvalues⟩ := assign.inj h
      have hlength : targets.length = targets'.length := by
        simpa using congrArg List.length htargets
      have hboth := hexprs (targets ++ values) (targets' ++ values')
        (by rw [List.map_append, List.map_append, htargets, hvalues]) hids
      rw [List.map_append, List.map_append] at hboth
      obtain ⟨htargets, hvalues⟩ := List.append_inj hboth (by simpa using hlength)
      rw [renumber, renumber, htag href, htargets, hvalues]
    | _ => cases h
  | ret tag values =>
    cases s' with
    | ret tag' values' => exact congrArg₂ ret (htag href) (hexprs values values' (ret.inj h).2 hids)
    | _ => cases h
  | expr tag e =>
    cases s' with
    | expr tag' e' =>
      have he := hexprs [e] [e'] (congrArg (· :: []) (expr.inj h).2) hids
      exact congrArg₂ expr (htag href) (List.cons.inj he).1
    | _ => cases h

/-- Statements with the same code that follow each other are the same with ids that agree. -/
theorem map_renumber_eq {body body' : List PlacedStmt} (h : body.map bare = body'.map bare)
    (hrefs : (body.map ref).map ρ.stmt = (body'.map ref).map ρ'.stmt)
    (hids : (body.flatMap numbers).map ρ.expr = (body'.flatMap numbers).map ρ'.expr) :
    body.map (renumber ρ) = body'.map (renumber ρ') := by
  rw [List.map_map, List.map_map] at hrefs
  rw [List.map_flatMap, List.map_flatMap] at hids
  refine map_eq_of_flatMap_eq (fun s => (s.bare, ρ.stmt s.ref)) (fun s => (s.bare, ρ'.stmt s.ref))
    _ _ ?_ ?_ ?_ hids
  · intro s s' h
    rw [List.length_map, List.length_map, length_numbers_eq (Prod.mk.inj h).1]
  · intro s _ s' h hids
    exact renumber_eq (Prod.mk.inj h).1 (Prod.mk.inj h).2 hids
  · rw [← List.zip_map', ← List.zip_map', h]
    exact congrArg (List.zip _) hrefs

end Stmt

end Recast
