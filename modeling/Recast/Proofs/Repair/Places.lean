import Mathlib.Data.List.Flatten
import Mathlib.Data.List.Nodup
import Mathlib.Data.List.Perm.Subperm
import Recast.Proofs.Store.Holds
import Recast.Proofs.Types.Sites

/-!
# Remarks are about different values

No two remarks of a program are about the same value: each value stands in one place, and the checker
comes to a place once.
-/

namespace Recast

/-! ### Lists of lists -/

section Lists

variable {β γ : Type} {f g : β → List γ} {xs : List β}

theorem flatMap_subperm (h : ∀ x ∈ xs, (f x).Subperm (g x)) :
    (xs.flatMap f).Subperm (xs.flatMap g) := by
  induction xs with
  | nil => exact List.Subperm.refl _
  | cons x xs ih =>
    rw [List.flatMap_cons, List.flatMap_cons]
    exact (h x List.mem_cons_self).append (ih fun x hx => h x (List.mem_cons_of_mem _ hx))

end Lists

/-- The values that a remark is about, by their ids. -/
def Remark.values : Remark → List ExprId
  | unfit _ value _ _ _ => [value.ref]
  | operands _ _ left right _ _ => [left.ref, right.ref]
  | other _ => []

theorem Remark.values_eq_nil {rs : List Remark} (h : ∀ r ∈ rs, r.IsOther) :
    rs.flatMap Remark.values = [] := by
  refine List.flatMap_eq_nil_iff.2 fun r hr => ?_
  have := h r hr
  cases r with
  | other => rfl
  | _ => exact this.elim

section Remarks

variable {S : Scope}

theorem Scope.values_fitsRemarks {fit : Nat → Option BasicType → Fit} :
    ∀ (values : List PlacedExpr) (targets : List (Option BasicType)) (i : Nat),
      ((S.fitsRemarks fit i values targets).flatMap Remark.values).Sublist (values.map Expr.ref)
  | [], _, _ => List.nil_sublist _
  | _ :: _, [], _ => List.nil_sublist _
  | value :: values, target? :: targets, i => by
    have hfirst : ((S.fitRemarks value target? (fit i target?)).flatMap Remark.values).Sublist
        [value.ref] := by
      unfold fitRemarks
      split
      · split
        · exact List.nil_sublist _
        · exact List.Sublist.refl _
      · exact List.nil_sublist _
    rw [fitsRemarks, List.flatMap_append]
    exact hfirst.append (values_fitsRemarks values targets (i + 1))

theorem Expr.values_ownRemarks (e : PlacedExpr) :
    ((e.ownRemarks S).flatMap Remark.values).Sublist (e.children.map Expr.ref) := by
  have hother {rs : List Remark} (h : ∀ r ∈ rs, r.IsOther) :
      (rs.flatMap Remark.values).Sublist (e.children.map Expr.ref) := by
    rw [Remark.values_eq_nil h]
    exact List.nil_sublist _
  cases e with
  | hole | literal | paren => exact List.nil_sublist _
  | name tag text => exact hother Scope.isOther_nameRemarks
  | neg tag operand => exact hother Scope.isOther_negationRemarks
  | binary tag op left right =>
    simp only [ownRemarks, Scope.operandRemarks]
    repeat' split
    all_goals first | exact List.Sublist.refl _ | exact List.nil_sublist _
  | call tag callee args =>
    rw [ownRemarks]
    split
    · exact hother (by simp [Remark.IsOther])
    · exact hother Scope.isOther_conversionRemarks
    · rw [Scope.callRemarks, List.flatMap_append,
        Remark.values_eq_nil isOther_argumentCountRemarks, List.nil_append]
      exact (S.values_fitsRemarks args _ 0).cons _
    · exact List.nil_sublist _
    · exact hother (by simp [Remark.IsOther])
    · exact hother (by simp [Remark.IsOther])

/-- Some expressions and what is below them. -/
theorem map_ref_append_perm (es : List PlacedExpr) :
    (es.map Expr.ref ++ es.flatMap fun e => (e.children.flatMap Expr.parts).map Expr.ref).Perm
      ((es.flatMap Expr.parts).map Expr.ref) := by
  refine (List.map_append_flatMap_perm es _ _).trans (.of_eq ?_)
  rw [List.map_flatMap]
  exact List.flatMap_congr fun e _ => by rw [Expr.parts_eq e, List.map_cons]

/-- What is said about an expression is about expressions below it, each in turn. -/
theorem Expr.values_remarks (e : PlacedExpr) : ((e.remarks S).flatMap Remark.values).Subperm
    ((e.children.flatMap Expr.parts).map Expr.ref) := by
  induction e using Expr.inductChildren with
  | step e ih =>
    have hes := e.checkedParts_sublist
    rw [e.remarks_eq, List.flatMap_append, List.flatMap_assoc]
    refine List.perm_append_comm.subperm.trans (.trans ?_ (map_ref_append_perm _).subperm)
    refine e.values_ownRemarks.subperm.append ?_
    refine (flatMap_subperm fun child hc => ih child (hes.subset hc)).trans ?_
    exact (hes.flatMap _).subperm

theorem Stmt.values_ownRemarks {results own : List (Option BasicType)} (s : PlacedStmt) :
    ((s.ownRemarks S results own).flatMap Remark.values).Sublist (s.values.map Expr.ref) := by
  have hcount {r : Finding} {l : List ExprId} :
      (([.other r] : List Remark).flatMap Remark.values).Sublist l := List.nil_sublist _
  cases s with
  | hole => exact List.nil_sublist _
  | var tag names type? values =>
    have htypes : (type?.toList.flatMap TypeRef.remarks).flatMap Remark.values = [] :=
      Remark.values_eq_nil (List.forall_mem_flatMap.2 fun _ _ => TypeRef.isOther_remarks)
    rw [ownRemarks, List.flatMap_append, List.flatMap_append, htypes, List.nil_append,
      Remark.values_eq_nil Scope.isOther_declareRemarks, List.append_nil]
    split
    · exact hcount
    · cases type? with
      | none => exact List.nil_sublist _
      | some type =>
        rw [Option.map_some, Option.toList_some, List.flatMap_singleton]
        exact S.values_fitsRemarks values _ 0
  | assign tag targets values =>
    rw [ownRemarks, List.flatMap_append, Remark.values_eq_nil
      (List.forall_mem_flatMap.2 fun _ _ => Expr.isOther_targetRemarks), List.nil_append]
    split
    · exact S.values_fitsRemarks values _ 0
    · exact hcount
  | ret tag values =>
    rw [ownRemarks]
    split
    · exact S.values_fitsRemarks values _ 0
    · exact hcount
  | expr tag e =>
    rw [ownRemarks]
    split
    · exact List.nil_sublist _
    · exact hcount

/-- What is said about a statement is said about itself and about its values. -/
theorem Stmt.remarks_perm {results own : List (Option BasicType)} (s : PlacedStmt) :
    (s.remarks S results own).Perm
      (s.ownRemarks S results own ++ s.values.flatMap (Expr.remarks S)) := by
  cases s with
  | hole => exact .refl _
  | var tag names type? values =>
    simp only [remarks, ownRemarks, Stmt.values, Scope.declarationRemarks, List.append_assoc]
    exact .append_left _ (List.perm_append_comm.trans (by rw [List.append_assoc]))
  | assign tag targets values =>
    simp only [remarks, ownRemarks, Stmt.values, List.append_assoc]
    exact .append_left _ List.perm_append_comm
  | ret tag values => exact List.perm_append_comm
  | expr tag e =>
    simp only [remarks, ownRemarks, Stmt.values, List.flatMap_singleton]
    exact List.perm_append_comm

theorem Stmt.values_sublist (s : PlacedStmt) : s.values.Sublist s.children := by
  cases s with
  | hole => exact .refl _
  | assign _ targets values => exact List.sublist_append_right _ _
  | _ => exact .refl _

/-- What is said about a statement is about expressions in it, each in turn. -/
theorem Stmt.values_remarks {results own : List (Option BasicType)} (s : PlacedStmt) :
    ((s.remarks S results own).flatMap Remark.values).Subperm
      ((s.children.flatMap Expr.parts).map Expr.ref) := by
  refine (s.remarks_perm.flatMap_right _).subperm.trans ?_
  rw [List.flatMap_append, List.flatMap_assoc]
  refine .trans ?_ ((s.values_sublist.flatMap _).map _).subperm
  refine .trans ?_ (map_ref_append_perm _).subperm
  exact s.values_ownRemarks.subperm.append (flatMap_subperm fun e _ => e.values_remarks)

theorem Stmt.values_bodyRemarks {results own : List (Option BasicType)} (body : List PlacedStmt) :
    ∀ S : Scope, ((bodyRemarks S results own body).flatMap Remark.values).Subperm
      (body.flatMap fun s => (s.children.flatMap Expr.parts).map Expr.ref) := by
  induction body with
  | nil => exact fun _ => List.nil_subperm
  | cons s body ih =>
    intro S
    rw [bodyRemarks, List.flatMap_append, List.flatMap_cons]
    exact s.values_remarks.append (ih _)

theorem Function.values_remarks (signatures : String → Option Signature) (f : PlacedFunction) :
    ((f.remarks signatures).flatMap Remark.values).Subperm
      (f.body.flatMap fun s => (s.children.flatMap Expr.parts).map Expr.ref) := by
  rw [remarks]
  split
  · exact List.nil_subperm
  · exact Stmt.values_bodyRemarks f.body _

/-- What is said about a program is about expressions of it, each in turn. -/
theorem Program.values_remarks (p : PlacedProgram) :
    (p.remarks.flatMap Remark.values).Subperm (p.parts.map Expr.ref) := by
  have hdeclarations : (declarationRemarks [] p.functions).flatMap Remark.values = [] := by
    refine Remark.values_eq_nil fun r hr => ?_
    obtain ⟨f, -, earlier, hr⟩ := mem_declarationRemarks hr
    exact f.isOther_declarationRemarks r hr
  rw [remarks, List.flatMap_append, hdeclarations, List.nil_append, parts, exprs, stmts]
  simp only [List.flatMap_assoc, List.map_flatMap]
  refine flatMap_subperm fun f _ => (f.values_remarks _).trans ?_
  simp only [List.map_flatMap]
  exact List.Subperm.refl _

/-- No two remarks of a program are about one value. -/
theorem Program.nodup_values_remarks {p : PlacedProgram} (distinct : (p.parts.map Expr.ref).Nodup) :
    (p.remarks.flatMap Remark.values).Nodup := by
  obtain ⟨l, hperm, hsub⟩ := p.values_remarks
  exact hperm.nodup_iff.1 (distinct.sublist hsub)

end Remarks

end Recast
