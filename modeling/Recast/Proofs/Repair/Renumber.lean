import Recast.Proofs.Repair.Pass
import Recast.Proofs.Repair.Places
import Recast.Proofs.Types.Forget

/-!
# Repairs of code with other ids

What a remark asks for depends on ids only as far as they say which expressions it is about. If these
have the same types with other ids, the repair converts the same one of them to the same type.
-/

namespace Recast

variable {rules : RuleTable} {info info' : TypeInfo} {n : ExprId → ExprId} {ρ : Renumbering}

/-- The parts of an expression have the same types with other ids. -/
def TypeInfo.Matches (info info' : TypeInfo) (n : ExprId → ExprId) (e : PlacedExpr) : Prop :=
  ∀ part ∈ e.parts, info'.typeOf (part.renumber n) = info.typeOf part

theorem Remark.values_renumber (r : Remark) : (r.renumber ρ).values = r.values.map ρ.expr := by
  cases r <;> simp [renumber, values]

theorem Remark.complaint_renumber (r : Remark) :
    (r.renumber ρ).finding.complaint = r.finding.complaint := by
  cases r with
  | unfit fit value mode type target =>
    simp only [renumber, finding, Fit.renumber, Expr.text_renumber]
  | operands tag op left right l r =>
    exact congrArg (Complaint.mismatchedOperands · l r)
      ((Expr.binary tag op left right).text_renumber ρ.expr)
  | other => rfl

/-- The conversion with other ids and without its spans. -/
def Mending.renumber (ρ : Renumbering) (m : Mending) : Mending :=
  { m with slot := m.slot.renumber ρ, value := m.value.renumber ρ.expr }

theorem Remark.candidate?_renumber (r : Remark) (info info' : TypeInfo) :
    (r.renumber ρ).candidate? rules info' = (r.candidate? rules info).map (Mending.renumber ρ) := by
  cases r with
  | other => rfl
  | unfit fit v mode type target =>
    simp only [renumber, candidate?, Fit.renumber]
    split
    · rfl
    · cases fit.wanted? with
      | none => rfl
      | some wanted =>
        rw [Option.bind_some, Option.bind_some]
        split <;> rfl
  | operands tag op left right l r =>
    have hallowed (source target : String) : Repair.allowed? rules info'.oracle source target
        = Repair.allowed? rules info.oracle source target := rfl
    simp only [renumber, candidate?, hallowed]
    split <;> rfl

theorem Expr.conversion?_renumber (e : PlacedExpr) :
    (e.renumber n).conversion? = e.conversion?.map fun c => (c.1, c.2.renumber n) := by
  cases e with
  | call tag callee args =>
    cases callee with
    | name => rcases args with _ | ⟨arg, _ | ⟨arg', args⟩⟩ <;> rfl
    | _ => rfl
  | _ => rfl

theorem TypeInfo.Matches.repeats_renumber {v : PlacedExpr} (h : info.Matches info' n v)
    {type wanted : BasicType} :
    info'.Repeats (v.renumber n) type wanted ↔ info.Repeats v type wanted := by
  rw [repeats_iff, repeats_iff, Expr.conversion?_renumber]
  cases hc : v.conversion? with
  | none => simp
  | some c =>
    obtain ⟨text, arg⟩ := c
    obtain ⟨tag, calleeTag, rfl⟩ := Expr.conversion?_eq_some.1 hc
    have harg : info'.typeOf (arg.renumber n) = info.typeOf arg :=
      h arg (Expr.mem_parts_of_child (by simp [Expr.children]) arg.self_mem_parts)
    simp [harg]

theorem Remark.mending?_renumber (r : Remark)
    (h : ∀ m ∈ r.candidate? rules info, info.Matches info' ρ.expr m.value) :
    (r.renumber ρ).mending? rules info' = (r.mending? rules info).map (Mending.renumber ρ) := by
  rw [mending?, mending?, r.candidate?_renumber info info']
  cases hc : r.candidate? rules info with
  | none => rfl
  | some m =>
    have hrepeats : info'.Repeats (m.value.renumber ρ.expr) m.source m.target
        ↔ info.Repeats m.value m.source m.target := (h m hc).repeats_renumber
    simp only [Option.map_some, Option.filter, Mending.renumber, hrepeats]
    split <;> rfl

/-- With other ids a remark asks for the conversion of the same expression to the same type. -/
theorem Remark.made?_renumber (r : Remark) {id : ExprId}
    (h : ∀ m ∈ r.candidate? rules info, info.Matches info' ρ.expr m.value)
    (hid : ∀ m ∈ r.candidate? rules info, ρ.expr m.value.ref = ρ.expr id → m.value.ref = id) :
    (r.renumber ρ).made? rules info' (ρ.expr id) = r.made? rules info id := by
  rw [made?, made?, r.mending?_renumber h]
  cases hm : r.mending? rules info with
  | none => rfl
  | some m =>
    have hc : r.candidate? rules info = some m := (Option.filter_eq_some_iff.1 hm).1
    have href : (m.renumber ρ).value.ref = ρ.expr id ↔ m.value.ref = id := by
      refine Iff.trans ?_ ⟨hid m hc, congrArg ρ.expr⟩
      exact (m.value.ref_renumber ρ.expr).congr_left
    simp only [Option.map_some, Option.filter, beq_iff_eq, href]
    split <;> rfl

end Recast
