import Recast.Proofs.Store.Forget
import Recast.Proofs.Types.Agreement
import Recast.Proofs.Types.Renumber

/-!
# Where code stands does not matter to the checker

The checker copies spans into its findings and does nothing else with them. Two programs that differ
only in where their parts stand get the same remarks about the same nodes, with other spans.
-/

namespace Recast

/-! ### Remarks without spans -/

/-- The remark without its spans. -/
def Remark.forget : Remark → Remark
  | unfit fit value mode type target => .unfit fit value.forget mode type target
  | operands tag op left right l r => .operands tag.forget op left.forget right.forget l r
  | other finding => .other finding.forget

/-- Without its spans a remark is as it is with the same ids. -/
theorem Remark.renumber_refl (r : Remark) : r.renumber .refl = r.forget := by
  cases r with
  | other => rfl
  | operands => simp only [renumber, forget, Renumbering.refl, Expr.renumber_id]; rfl
  | unfit fit =>
    have hfit : fit.renumber .refl = fit := by
      obtain ⟨slot, destination, wanted?, goal?⟩ := fit
      simp only [Fit.renumber, Renumbering.refl, Option.map_id_fun, id]
      cases slot <;> rfl
    rw [renumber, hfit]
    simp only [forget, Renumbering.refl, Expr.renumber_id]

theorem Remark.map_renumber_refl (rs : List Remark) : rs.map (renumber .refl) = rs.map forget :=
  List.map_congr_left fun r _ => r.renumber_refl

section Remarks

@[simp] theorem Stmt.scope_forget {S : Scope} (s : PlacedStmt) : s.forget.scope S = s.scope S := by
  rw [← renumber_refl, scope_renumber]

@[simp] theorem Function.signature_forget (f : PlacedFunction) :
    f.forget.signature = f.signature := by
  rw [← signature_bare f.forget, bare_forget, signature_bare]

theorem signaturesOf_forget (fs : List PlacedFunction) :
    signaturesOf (fs.map Function.forget) = signaturesOf fs := by
  rw [← signaturesOf_bare (fs.map Function.forget), ← signaturesOf_bare fs, List.map_map]
  congr 1
  exact List.map_congr_left fun f _ => f.bare_forget

theorem Stmt.bodyRemarks_forget (results own : List (Option BasicType)) (body : List PlacedStmt)
    (S : Scope) : bodyRemarks S results own (body.map Stmt.forget)
      = (bodyRemarks S results own body).map Remark.forget := by
  rw [← map_renumber_refl, bodyRemarks_renumber, Remark.map_renumber_refl]

theorem Function.scope_forget (f : PlacedFunction) (signatures : String → Option Signature)
    (signature : Signature) : f.forget.scope signatures signature = f.scope signatures signature :=
  Scope.declareParams_bare _ _

theorem Function.remarks_forget (signatures : String → Option Signature) (f : PlacedFunction) :
    f.forget.remarks signatures = (f.remarks signatures).map Remark.forget := by
  unfold remarks
  rw [signature_forget, name_forget]
  cases signatures f.name with
  | none => rfl
  | some signature =>
    dsimp only
    rw [f.scope_forget]
    exact Stmt.bodyRemarks_forget _ _ f.body _

theorem Function.declarationRemarks_forget (earlier : List PlacedFunction) (f : PlacedFunction) :
    f.forget.declarationRemarks (earlier.map Function.forget)
      = (f.declarationRemarks earlier).map Remark.forget := by
  have hparams : f.forget.params.flatMap (fun p => p.type.remarks)
      = (f.params.flatMap fun p => p.type.remarks).map Remark.forget := by
    show (f.params.map Param.bare).flatMap _ = _
    rw [List.flatMap_map, List.map_flatMap]
    exact List.flatMap_congr fun p _ => p.type.remarks_bare.trans (Remark.map_renumber_refl _)
  have hresults : f.forget.results.flatMap TypeRef.remarks
      = (f.results.flatMap TypeRef.remarks).map Remark.forget :=
    (TypeRef.flatMap_remarks_bare _).trans (Remark.map_renumber_refl _)
  have hearlier : (earlier.map Function.forget).any (·.name == f.forget.name)
      = earlier.any (·.name == f.name) := by
    rw [List.any_map]
    rfl
  unfold declarationRemarks
  rw [hparams, hresults, hearlier, List.map_append, List.map_append]
  congr 1
  split <;> rfl

theorem declarationRemarks_forget (fs : List PlacedFunction) : ∀ earlier : List PlacedFunction,
    declarationRemarks (earlier.map Function.forget) (fs.map Function.forget)
      = (declarationRemarks earlier fs).map Remark.forget := by
  induction fs with
  | nil => exact fun _ => rfl
  | cons f fs ih =>
    intro earlier
    have hnext := ih (earlier ++ [f])
    rw [List.map_append] at hnext
    rw [List.map_cons, declarationRemarks, declarationRemarks, List.map_append,
      f.declarationRemarks_forget, ← hnext]
    rfl

/-- What is said about a program, spans aside, can be told from the program without spans. -/
theorem Program.remarks_forget (p : PlacedProgram) :
    p.remarks.map Remark.forget
      = declarationRemarks [] (p.functions.map Function.forget)
        ++ (p.functions.map Function.forget).flatMap
          (Function.remarks (signaturesOf (p.functions.map Function.forget))) := by
  rw [remarks, List.map_append, signaturesOf_forget, List.flatMap_map, List.map_flatMap]
  congr 1
  · exact (declarationRemarks_forget p.functions []).symm
  · exact (List.flatMap_congr fun f _ => f.remarks_forget _).symm

end Remarks

/-! ### Records -/

section Records

open Checker (records bodyRecords functionRecords)

theorem Expr.parts_forget (e : PlacedExpr) : e.forget.parts = e.parts.map forget := by
  rw [← renumber_id, parts_renumber, map_renumber_id]

theorem Expr.names_forget (e : PlacedExpr) :
    e.forget.names = e.names.map fun n => (n.1.forget, n.2) := by
  rw [names, names, parts_forget, List.filterMap_map, List.map_filterMap]
  congr 1
  funext part
  cases part <;> rfl

theorem Expr.targetName?_forget (e : PlacedExpr) :
    e.forget.targetName? = e.targetName?.map fun n => (n.1.forget, n.2) := by
  induction e using Expr.inductArgs with
  | paren _ _ ih => exact ih
  | _ => rfl

theorem Stmt.names_forget (s : PlacedStmt) :
    s.forget.names = s.names.map fun n => (n.1.forget, n.2) := by
  have hexprs (es : List PlacedExpr) : (es.map Expr.forget).flatMap Expr.names
      = (es.flatMap Expr.names).map fun n => (n.1.forget, n.2) := by
    rw [List.flatMap_map, List.map_flatMap]
    exact List.flatMap_congr fun e _ => e.names_forget
  cases s with
  | hole => rfl
  | var _ _ _ values => exact hexprs values
  | assign _ targets values =>
    rw [forget, names, names, hexprs, List.map_append]
    congr 1
    rw [List.flatMap_map, List.map_flatMap]
    refine List.flatMap_congr fun e _ => ?_
    rw [e.targetName?_forget]
    cases e.targetName? <;> rfl
  | ret _ values => exact hexprs values
  | expr _ e => exact hexprs [e]

theorem Checker.bodyRecords_forget (body : List PlacedStmt) : ∀ S : Scope,
    bodyRecords S (body.map Stmt.forget) = bodyRecords S body := by
  induction body with
  | nil => exact fun _ => rfl
  | cons s body ih =>
    intro S
    rw [List.map_cons, bodyRecords, bodyRecords, ih, Stmt.scope_forget, Stmt.names_forget, records,
      List.map_map]
    rfl

theorem Checker.functionRecords_forget (signatures : String → Option Signature)
    (f : PlacedFunction) : functionRecords signatures f.forget = functionRecords signatures f := by
  unfold functionRecords
  rw [Function.name_forget]
  cases signatures f.name with
  | none => rfl
  | some signature =>
    dsimp only
    rw [f.scope_forget]
    exact bodyRecords_forget f.body _

/-- What the checker records about a program can be told from the program without spans. -/
theorem Program.records_forget (p : PlacedProgram) :
    p.records = (p.functions.map Function.forget).flatMap
      (functionRecords (signaturesOf (p.functions.map Function.forget))) := by
  rw [records, signaturesOf_forget, List.flatMap_map]
  exact (List.flatMap_congr fun f _ => Checker.functionRecords_forget _ f).symm

end Records

/-! ### Types -/

/-- The same is known about the names. -/
structure TypeInfo.Agrees (info info' : TypeInfo) : Prop where
  bindings : ∀ id : ExprId, info.bindings[id]? = info'.bindings[id]?
  signatures : ∀ name : String, info.signatures[name]? = info'.signatures[name]?

theorem TypeInfo.Agrees.refl (info : TypeInfo) : info.Agrees info := ⟨fun _ => rfl, fun _ => rfl⟩

/-- Checking programs that are the same without their spans leaves the same behind. -/
theorem Checked.Describes.agrees {c c' : Checked} {p p' : PlacedProgram} (hc : c.Describes p)
    (hc' : c'.Describes p')
    (h : p.functions.map Function.forget = p'.functions.map Function.forget) :
    c.info.Agrees c'.info where
  bindings id := by
    have hrecords : p.records = p'.records := by
      rw [p.records_forget, p'.records_forget, h]
    by_cases hid : ∃ r ∈ p.records, r.1 = id
    · obtain ⟨r, hr, rfl⟩ := hid
      rw [hc.bound r hr, hc'.bound r (hrecords ▸ hr)]
    · have hunbound : ∀ r ∈ p.records, r.1 ≠ id := fun r hr hne => hid ⟨r, hr, hne⟩
      rw [hc.unbound id hunbound, hc'.unbound id (hrecords ▸ hunbound)]
  signatures name := by
    rw [hc.signatures, hc'.signatures, ← signaturesOf_forget, h, signaturesOf_forget]

theorem TypeInfo.Agrees.typeOf_forget {info info' : TypeInfo} (h : info.Agrees info')
    (e : PlacedExpr) : info'.typeOf e.forget = info.typeOf e := by
  induction e using Expr.inductArgs with
  | hole => rfl
  | literal _ kind => cases kind <;> rfl
  | name tag =>
    rw [Expr.forget, typeOf, typeOf, h.bindings]
    rfl
  | paren _ _ ih => exact ih
  | neg _ _ ih => rw [Expr.forget, typeOf, typeOf, ih]
  | binary _ _ _ _ ihl ihr => rw [Expr.forget, typeOf, typeOf, ihl, ihr]
  | call _ callee args _ iha =>
    have hcallee : info'.callee callee.forget = info.callee callee := by
      cases callee with
      | name tag text =>
        rw [Expr.forget, callee, callee, calleeNamed, calleeNamed, h.bindings, h.signatures]
        rfl
      | _ => rfl
    rw [Expr.forget, Expr.forgetAll_eq, typeOf_call, typeOf_call, hcallee, List.map_map]
    exact congrArg (Callee.typeOf? · _) (List.map_congr_left iha)

end Recast
