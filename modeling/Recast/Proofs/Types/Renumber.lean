import Recast.Proofs.Repair.Pending
import Recast.Proofs.Store.Renumber

/-!
# Ids and spans do not matter to the checker

The checker copies ids and spans into its remarks and does nothing else with them. Statements that
differ only in the ids and the spans of their parts get the same remarks, about the other ids and
with other spans.
-/

namespace Recast

/-! ### Remarks with other ids -/

/-- The finding without its span. -/
def Finding.forget (f : Finding) : Finding := ⟨f.complaint, ⟨0, 0⟩⟩

/-- The slot with another id. -/
def Slot.renumber (ρ : Renumbering) : Slot → Slot
  | varValue stmt index => varValue (ρ.stmt stmt) index
  | callArg call index => callArg (ρ.expr call) index
  | assignValue stmt index => assignValue (ρ.stmt stmt) index
  | returnValue stmt index => returnValue (ρ.stmt stmt) index
  | operand binary side => operand (ρ.expr binary) side

/-- The place with other ids. -/
def Fit.renumber (ρ : Renumbering) (fit : Fit) : Fit :=
  ⟨fit.slot.renumber ρ, fit.destination, fit.wanted?, fit.goal?.map ρ.expr⟩

/-- The remark with other ids and without its spans. -/
def Remark.renumber (ρ : Renumbering) : Remark → Remark
  | unfit fit value mode type target =>
    .unfit (fit.renumber ρ) (value.renumber ρ.expr) mode type target
  | operands tag op left right l r =>
    .operands (tag.renumber ρ.expr) op (left.renumber ρ.expr) (right.renumber ρ.expr) l r
  | other finding => .other finding.forget

section

variable {S : Scope} {n : ExprId → ExprId} {ρ : Renumbering}

/-! ### Types and scopes -/

namespace Expr

@[simp] theorem typeIn_renumber (e : PlacedExpr) : (e.renumber n).typeIn S = e.typeIn S := by
  rw [← typeIn_retag (f := fun _ => ()) (e.renumber n), ← typeIn_retag (f := fun _ => ()) e]
  exact congrArg (typeIn S) (e.bare_renumber n)

@[simp] theorem targetType?_renumber (e : PlacedExpr) :
    (e.renumber n).targetType? S = e.targetType? S := by
  rw [← targetType?_retag (f := fun _ => ()) (e.renumber n),
    ← targetType?_retag (f := fun _ => ()) e]
  exact congrArg (targetType? S) (e.bare_renumber n)

@[simp] theorem isConstant_renumber (e : PlacedExpr) :
    (e.renumber n).isConstant = e.isConstant := by
  induction e using Expr.inductArgs with
  | paren _ _ ih => exact ih
  | neg _ _ ih => exact ih
  | binary _ _ _ _ ihl ihr => rw [renumber, isConstant, isConstant, ihl, ihr]
  | _ => rfl

@[simp] theorem bareName?_renumber (e : PlacedExpr) : (e.renumber n).bareName? = e.bareName? := by
  induction e using Expr.inductArgs with
  | paren _ _ ih => exact ih
  | _ => rfl

end Expr

@[simp] theorem Scope.callee_renumber (e : PlacedExpr) : S.callee (e.renumber n) = S.callee e := by
  cases e <;> rfl

@[simp] theorem Scope.quote_renumber (e : PlacedExpr) (type : BasicType) :
    S.quote (e.renumber n) type = S.quote e type := by
  simp [quote, modeOf]

@[simp] theorem Stmt.scope_renumber (s : PlacedStmt) :
    (s.renumber ρ).scope S = s.scope S := by
  rw [← scope_bare (s.renumber ρ), bare_renumber, scope_bare]

variable (S)

theorem Stmt.values_renumber (s : PlacedStmt) :
    (s.renumber ρ).values = s.values.map (Expr.renumber ρ.expr) := by
  cases s <;> simp [renumber, values]

/-! ### Remarks -/

namespace Scope

theorem nameRemarks_renumber (tag : Placed) (name : String) :
    S.nameRemarks (tag.renumber ρ.expr) name
      = (S.nameRemarks tag name).map (Remark.renumber ρ) := by
  unfold nameRemarks
  split <;> rfl

theorem negationRemarks_renumber (tag : Placed) (operand : PlacedExpr) :
    S.negationRemarks (tag.renumber ρ.expr) (operand.renumber ρ.expr)
      = (S.negationRemarks tag operand).map (Remark.renumber ρ) := by
  unfold negationRemarks
  rw [Expr.typeIn_renumber]
  cases operand.typeIn S with
  | none => rfl
  | some type =>
    dsimp only
    split
    · rfl
    · rw [quote_renumber]
      rfl

theorem operandRemarks_renumber (tag : Placed) (op : BinaryOp) (left right : PlacedExpr) :
    S.operandRemarks (tag.renumber ρ.expr) op (left.renumber ρ.expr) (right.renumber ρ.expr)
      = (S.operandRemarks tag op left right).map (Remark.renumber ρ) := by
  unfold operandRemarks
  simp only [Expr.typeIn_renumber, quote_renumber, Expr.text_renumber, Expr.span_renumber]
  repeat' split
  all_goals rfl

theorem fitRemarks_renumber (value : PlacedExpr) (target? : Option BasicType) (fit : Fit) :
    S.fitRemarks (value.renumber ρ.expr) target? (fit.renumber ρ)
      = (S.fitRemarks value target? fit).map (Remark.renumber ρ) := by
  unfold fitRemarks
  simp only [Expr.typeIn_renumber, modeOf, Expr.isConstant_renumber, Expr.bareName?_renumber]
  repeat' split
  all_goals rfl

theorem fitsRemarks_renumber {fit fit' : Nat → Option BasicType → Fit}
    (h : ∀ i target?, fit' i target? = (fit i target?).renumber ρ) (values : List PlacedExpr) :
    ∀ (i : Nat) (targets : List (Option BasicType)),
      S.fitsRemarks fit' i (values.map (Expr.renumber ρ.expr)) targets
        = (S.fitsRemarks fit i values targets).map (Remark.renumber ρ) := by
  induction values with
  | nil => exact fun _ _ => rfl
  | cons value values ih =>
    intro i targets
    cases targets with
    | nil => rfl
    | cons target? targets =>
      rw [List.map_cons, fitsRemarks, fitsRemarks, ih, h, fitRemarks_renumber, List.map_append]

theorem conversionRemarks_renumber (tag : Placed) (target : BasicType) (args : List PlacedExpr) :
    S.conversionRemarks (tag.renumber ρ.expr) target (args.map (Expr.renumber ρ.expr))
      = (S.conversionRemarks tag target args).map (Remark.renumber ρ) := by
  rcases args with _ | ⟨arg, _ | ⟨arg', args⟩⟩
  · rfl
  · simp only [List.map_cons, List.map_nil, conversionRemarks, Expr.typeIn_renumber, quote_renumber,
      Expr.span_renumber]
    repeat' split
    all_goals rfl
  · rfl

theorem argumentCountRemarks_renumber (tag : Placed) (function : String) (signature : Signature)
    (args : List PlacedExpr) :
    argumentCountRemarks (tag.renumber ρ.expr) function signature (args.map (Expr.renumber ρ.expr))
      = (argumentCountRemarks tag function signature args).map (Remark.renumber ρ) := by
  unfold argumentCountRemarks
  rw [List.length_map, List.getElem?_map]
  split
  · rfl
  · split
    · rfl
    · cases args[signature.params.length]? with
      | none => rfl
      | some extra =>
        simp only [Option.map_some, Option.toList_some, List.map_cons, List.map_nil,
          Remark.renumber, Finding.forget, Expr.span_renumber]

theorem callRemarks_renumber (tag : Placed) (function : String) (signature : Signature)
    (args : List PlacedExpr) :
    S.callRemarks (tag.renumber ρ.expr) function signature (args.map (Expr.renumber ρ.expr))
      = (S.callRemarks tag function signature args).map (Remark.renumber ρ) := by
  rw [callRemarks, callRemarks, argumentCountRemarks_renumber, List.length_map, List.map_append]
  exact congrArg _ (S.fitsRemarks_renumber (by intros; rfl) args 0 _)

theorem declareRemarks_renumber (span : Span) (declared? : Option (Option BasicType))
    (names : List String) : ∀ (S : Scope) (types : List (Option BasicType)),
      S.declareRemarks ⟨0, 0⟩ declared? names types
        = (S.declareRemarks span declared? names types).map (Remark.renumber ρ) := by
  induction names with
  | nil => exact fun _ _ => rfl
  | cons name names ih =>
    intro S types
    rw [declareRemarks, declareRemarks, ih, List.map_append]
    congr 1
    split <;> rfl

end Scope

theorem Expr.remarks_renumber (e : PlacedExpr) :
    (e.renumber ρ.expr).remarks S = (e.remarks S).map (Remark.renumber ρ) := by
  induction e using Expr.inductArgs with
  | hole | literal => rfl
  | name tag text => exact S.nameRemarks_renumber tag text
  | paren _ _ ih => exact ih
  | neg tag operand ih =>
    rw [Expr.renumber, remarks, remarks, ih, Scope.negationRemarks_renumber, List.map_append]
  | binary tag op left right ihl ihr =>
    rw [Expr.renumber, remarks, remarks, ihl, ihr, Scope.operandRemarks_renumber, List.map_append,
      List.map_append]
  | call tag callee args ihc iha =>
    have hargs : (args.map (Expr.renumber ρ.expr)).flatMap (remarks S)
        = (args.flatMap (remarks S)).map (Remark.renumber ρ) := by
      rw [List.flatMap_map, List.map_flatMap]
      exact List.flatMap_congr iha
    simp only [Expr.renumber, renumberAll_eq, remarks, remarksAll_eq, Scope.callee_renumber]
    cases S.callee callee with
    | «variable» type? =>
      have hquote : S.quote (callee.renumber ρ.expr) = S.quote callee :=
        funext (S.quote_renumber callee)
      simp [hargs, hquote, Remark.renumber, Finding.forget]
    | conversion target =>
      simp only [hargs, Scope.conversionRemarks_renumber, List.map_append]
    | function signature =>
      simp only [hargs, Scope.callRemarks_renumber, List.map_append, text_renumber]
    | println => exact hargs
    | undefined => simp [hargs, Remark.renumber, Finding.forget]
    | compound => simp [hargs, ihc, Remark.renumber, Finding.forget]

theorem Expr.flatMap_remarks_renumber (es : List PlacedExpr) :
    (es.map (Expr.renumber ρ.expr)).flatMap (remarks S)
      = (es.flatMap (remarks S)).map (Remark.renumber ρ) := by
  rw [List.flatMap_map, List.map_flatMap]
  exact List.flatMap_congr fun e _ => e.remarks_renumber S

theorem Expr.targetRemarks_renumber (e : PlacedExpr) :
    (e.renumber ρ.expr).targetRemarks S = (e.targetRemarks S).map (Remark.renumber ρ) := by
  induction e using Expr.inductArgs with
  | name tag text => exact S.nameRemarks_renumber tag text
  | paren _ _ ih => exact ih
  | hole | literal => rfl
  | neg tag operand | binary tag op left right | call tag callee args =>
    refine congrArg (fun text => [Remark.other ⟨.notAssignable text, ⟨0, 0⟩⟩]) ?_
    exact Expr.text_renumber _ _

theorem TypeRef.remarks_bare (t : TypeRef String) :
    t.bare.remarks = t.remarks.map (Remark.renumber ρ) := by
  unfold remarks
  rw [type?_bare]
  split <;> rfl

theorem TypeRef.flatMap_remarks_bare (ts : List (TypeRef String)) :
    (ts.map TypeRef.bare).flatMap remarks = (ts.flatMap remarks).map (Remark.renumber ρ) := by
  rw [List.flatMap_map, List.map_flatMap]
  exact List.flatMap_congr fun t _ => t.remarks_bare

theorem Scope.declarationRemarks_renumber (tag : Placed) (names : List String)
    (declared? : Option (Option BasicType)) (values : List PlacedExpr) :
    S.declarationRemarks (tag.renumber ρ.stmt) names declared? (values.map (Expr.renumber ρ.expr))
      = (S.declarationRemarks tag names declared? values).map (Remark.renumber ρ) := by
  have htypes : (values.map (Expr.renumber ρ.expr)).map (Expr.typeIn S)
      = values.map (Expr.typeIn S) := by
    rw [List.map_map]
    exact List.map_congr_left fun e _ => e.typeIn_renumber
  have htargets (target? : Option BasicType) :
      (values.map (Expr.renumber ρ.expr)).map (fun _ => target?) = values.map fun _ => target? := by
    rw [List.map_map]
    rfl
  have hempty : (values.map (Expr.renumber ρ.expr)).isEmpty = values.isEmpty := by
    cases values <;> rfl
  unfold declarationRemarks
  rw [Expr.flatMap_remarks_renumber, htypes, hempty, List.length_map, List.map_append,
    List.map_append, Placed.span_renumber, declareRemarks_renumber tag.span]
  congr 2
  split
  · rfl
  · cases declared? with
    | none => rfl
    | some target? =>
      simp only [Option.toList_some, List.flatMap_singleton, htargets]
      exact S.fitsRemarks_renumber (by intros; rfl) values 0 _

theorem Stmt.remarks_renumber (results own : List (Option BasicType)) (s : PlacedStmt) :
    (s.renumber ρ).remarks S results own = (s.remarks S results own).map (Remark.renumber ρ) := by
  cases s with
  | hole => rfl
  | var tag names type? values =>
    have htype : (type?.map TypeRef.bare).map TypeRef.type? = type?.map TypeRef.type? := by
      cases type? <;> rfl
    have hremarks : (type?.map TypeRef.bare).toList.flatMap TypeRef.remarks
        = (type?.toList.flatMap TypeRef.remarks).map (Remark.renumber ρ) := by
      rw [← TypeRef.flatMap_remarks_bare]
      cases type? <;> rfl
    rw [renumber, remarks, remarks, htype, hremarks, S.declarationRemarks_renumber, List.map_append]
  | assign tag targets values =>
    have htargets : (targets.map (Expr.renumber ρ.expr)).flatMap (Expr.targetRemarks S)
        = (targets.flatMap (Expr.targetRemarks S)).map (Remark.renumber ρ) := by
      rw [List.flatMap_map, List.map_flatMap]
      exact List.flatMap_congr fun e _ => e.targetRemarks_renumber S
    have htypes : (targets.map (Expr.renumber ρ.expr)).map (Expr.targetType? S)
        = targets.map (Expr.targetType? S) := by
      rw [List.map_map]
      exact List.map_congr_left fun e _ => e.targetType?_renumber
    have hgoals (i : Nat) : (targets.map (Expr.renumber ρ.expr))[i]?.map Expr.ref
        = (targets[i]?.map Expr.ref).map ρ.expr := by
      rw [List.getElem?_map, Option.map_map, Option.map_map]
      congr 1
      funext e
      exact e.ref_renumber _
    rw [renumber, remarks, remarks, htargets, Expr.flatMap_remarks_renumber, htypes,
      List.length_map, List.length_map, List.map_append, List.map_append]
    congr 1
    split
    · simp only [hgoals]
      exact S.fitsRemarks_renumber (by intros; rfl) values 0 _
    · rfl
  | ret tag values =>
    have htypes : (values.map (Expr.renumber ρ.expr)).map (Expr.typeIn S)
        = values.map (Expr.typeIn S) := by
      rw [List.map_map]
      exact List.map_congr_left fun e _ => e.typeIn_renumber
    rw [renumber, remarks, remarks, Expr.flatMap_remarks_renumber, htypes, List.length_map,
      List.map_append]
    congr 1
    split
    · exact S.fitsRemarks_renumber (by intros; rfl) values 0 _
    · rfl
  | expr tag e =>
    have hquote : S.quote (e.renumber ρ.expr) = S.quote e := funext (S.quote_renumber e)
    rw [renumber, remarks, remarks, Expr.remarks_renumber, Expr.isCall_renumber, hquote,
      Expr.typeIn_renumber, Expr.text_renumber, Expr.span_renumber, List.map_append]
    congr 1
    split <;> rfl

theorem Stmt.bodyRemarks_renumber (results own : List (Option BasicType)) (body : List PlacedStmt) :
    ∀ S : Scope, bodyRemarks S results own (body.map (Stmt.renumber ρ))
      = (bodyRemarks S results own body).map (Remark.renumber ρ) := by
  induction body with
  | nil => exact fun _ => rfl
  | cons s body ih =>
    intro S
    rw [List.map_cons, bodyRemarks, bodyRemarks, ih, remarks_renumber, scope_renumber,
      List.map_append]

end

end Recast
