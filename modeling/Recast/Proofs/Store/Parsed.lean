import Mathlib.Data.List.Flatten
import Recast.Proofs.Printing.Printable
import Recast.Proofs.Store.Build
import Recast.Proofs.Types.Bodies

/-!
# Programs that were parsed and stored

What reading a source text and storing its tree promises about the program that the checker and the
planner get to see: the tree was printable and well placed, and its nodes have ids of their own.
-/

namespace Recast

/-- The program is what a store gives back of a tree. -/
structure Stored (tree : SourceProgram) (p : PlacedProgram) : Prop where
  represents : (Store.ofProgram tree).Represents p
  functions : p.functions.map (Function.retag Placed.span) = tree.functions.map (Function.retag id)
  trivia : p.trivia = tree.trivia
  numbers : (Store.ofProgram tree).Numbers p

/-- A store gives back the tree that it was made of. -/
theorem stored_program (tree : SourceProgram) : Stored tree (Store.ofProgram tree).program := by
  obtain ⟨p, hp, hf, ht, hn⟩ := Store.represents_ofProgram tree
  rw [hp.program]
  exact ⟨hp, hf, ht, hn⟩

/-- A source text that the parser accepts, with what can be computed about its tree. -/
theorem exists_parse {source : String} (check : SourceProgram → Bool)
    (h : (parse source).toOption.any check = true) :
    ∃ tree, parse source = .ok tree ∧ check tree = true := by
  cases hp : parse source with
  | error e =>
    rw [hp] at h
    cases h
  | ok tree =>
    rw [hp] at h
    exact ⟨tree, rfl, h⟩

/-! ### Ids -/

theorem map_filterMap_sublist {β γ δ : Type} {f : β → Option γ} {g : γ → δ} {h : β → δ}
    (hf : ∀ x y, f x = some y → g y = h x) (xs : List β) :
    ((xs.filterMap f).map g).Sublist (xs.map h) := by
  induction xs with
  | nil => exact .slnil
  | cons x xs ih =>
    rw [List.map_cons]
    cases hx : f x with
    | none =>
      rw [List.filterMap_cons_none hx]
      exact ih.cons _
    | some y =>
      rw [List.filterMap_cons_some hx, List.map_cons, hf x y hx]
      exact ih.cons_cons _

theorem Expr.names_sublist (e : PlacedExpr) :
    (e.names.map fun n => n.1.id).Sublist (e.parts.map Expr.ref) := by
  refine map_filterMap_sublist (fun part n h => ?_) _
  cases part <;> cases h
  rfl

theorem Expr.targetName_sublist (e : PlacedExpr) :
    (e.targetName?.toList.map fun n => n.1.id).Sublist (e.parts.map Expr.ref) := by
  induction e using Expr.inductArgs with
  | name tag text => exact (List.Sublist.refl [tag.id])
  | paren tag inner ih => exact ih.cons tag.id
  | _ => exact List.nil_sublist _

theorem Stmt.names_sublist (s : PlacedStmt) :
    (s.names.map fun n => n.1.id).Sublist ((s.children.flatMap Expr.parts).map Expr.ref) := by
  have hvalues (es : List PlacedExpr) :
      ((es.flatMap Expr.names).map fun n => n.1.id).Sublist
        ((es.flatMap Expr.parts).map Expr.ref) := by
    rw [List.map_flatMap, List.map_flatMap]
    exact .flatMap_right es fun e _ => e.names_sublist
  cases s with
  | assign _ targets values =>
    rw [names, children, List.flatMap_append, List.map_append, List.map_append]
    refine .append ?_ (hvalues values)
    rw [List.map_flatMap, List.map_flatMap]
    exact .flatMap_right targets fun e _ => e.targetName_sublist
  | _ => exact hvalues _

theorem Program.names_sublist (p : PlacedProgram) :
    (p.names.map fun n => n.1.id).Sublist (p.parts.map Expr.ref) := by
  rw [names, parts, exprs, stmts]
  simp only [List.map_flatMap, List.flatMap_assoc]
  refine .flatMap_right _ fun f _ => .flatMap_right _ fun s _ => ?_
  simpa [List.map_flatMap] using s.names_sublist

namespace Store.Represents

variable {s : Store} {p : PlacedProgram}

/-- Checking a stored program makes its remarks. -/
theorem check_describes (h : s.Represents p) : p.check.Describes p :=
  p.check_describes (h.distinct.sublist p.names_sublist)

end Store.Represents

/-! ### Trees that were read -/

namespace Stored

variable {source : String} {tree : SourceProgram} {p : PlacedProgram}

/-- The functions of a stored program are those of the tree. -/
theorem function (h : Stored tree p) {P : Function Unit Span → Prop}
    (ht : ∀ f ∈ tree.functions, P (f.retag id)) : ∀ f ∈ p.functions, P (f.retag Placed.span) := by
  have : ∀ g ∈ p.functions.map (Function.retag Placed.span), P g := by
    rw [h.functions]
    exact List.forall_mem_map.2 ht
  exact List.forall_mem_map.1 this

theorem printable (h : Stored tree p) (hp : parse source = .ok tree) :
    ∀ f ∈ p.functions, f.Printable := by
  intro f hf
  have := h.function (P := Function.Printable) (fun f hf => by
    rw [← Function.printable_bare, Function.bare_retag, Function.printable_bare]
    exact printable_of_parse hp f hf) f hf
  rwa [← Function.printable_bare, Function.bare_retag, Function.printable_bare] at this

theorem wellPlaced (h : Stored tree p) (hp : parse source = .ok tree) : p.WellPlaced where
  apart := by
    have ht := (wellPlaced_of_parse hp).apart
    have hspan {fs : List PlacedFunction} : fs.Pairwise (fun a b => a.span.stop ≤ b.span.start) ↔
        (fs.map (Function.retag Placed.span)).Pairwise fun a b => a.span.stop ≤ b.span.start := by
      simp only [List.pairwise_map]
      rfl
    rw [hspan, h.functions, List.pairwise_map]
    exact ht
  functions := by
    intro f hf
    have := h.function (P := Function.WellPlaced) (fun f hf =>
      (Function.wellPlaced_retag (fun _ => rfl)).2 ((wellPlaced_of_parse hp).functions f hf)) f hf
    have hspan (tag : Placed) : Spanned.span (Placed.span tag) = Spanned.span tag := rfl
    exact (Function.wellPlaced_retag hspan).1 this

end Stored

end Recast
