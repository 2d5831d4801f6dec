import Mathlib.Data.List.Flatten
import Recast.Proofs.Types.Bodies

/-!
# The check, body by body

The checker looks at all declarations first and then at one body after the other, and its findings
grow all the while. What is added in a body are the remarks about that body, and together with what
is said about the declarations that is everything that the check finds.
-/

namespace Recast

open Checker (State start declareFunction checkFunction forM_apply)

namespace Program

/-- The state of the checker after the declarations and the first `k` bodies of a program. -/
def checkedTo (p : PlacedProgram) (k : Nat) : State :=
  ((p.functions.take k).forM checkFunction (p.functions.forM declareFunction start).2).2

/-- What the checker finds in body number `k`: its findings after it without those before it. -/
def bodyFindings (p : PlacedProgram) (k : Nat) : List Finding :=
  (p.checkedTo (k + 1)).findings.toList.drop (p.checkedTo k).findings.size

/-- The messages of the checker about body number `k`, in order. -/
def bodyMessages (p : PlacedProgram) (k : Nat) : List String :=
  (p.bodyFindings k).map fun finding => finding.diagnostic.message

variable {p : PlacedProgram} {f : PlacedFunction} {k : Nat}

/-- After some of the bodies the remarks about the declarations and these bodies are made. -/
theorem findings_checkedTo (distinct : (p.names.map fun n => n.1.id).Nodup) (k : Nat) :
    (p.checkedTo k).findings.toList
      = (declarationRemarks [] p.functions ++ (p.functions.take k).flatMap
          (Function.remarks (signaturesOf p.functions))).map Remark.finding := by
  have hstart : ∀ x, start.info.signatures[x]? = signaturesOf ([] : List PlacedFunction) x :=
    fun x => Std.HashMap.getElem?_empty
  obtain ⟨st₁, hx, hb, hs, hr⟩ := Checker.course_declarations p.functions hstart
  have hempty : ∀ id : ExprId, st₁.info.bindings[id]? = none := fun id =>
    (hb id).trans Std.HashMap.getElem?_empty
  have hsublist : ((p.functions.take k).flatMap fun f => f.body.flatMap Stmt.names).Sublist
      p.names := (List.take_sublist k p.functions).flatMap _
  obtain ⟨st₂, hy, hw⟩ := Checker.course_functions (p.functions.take k) hs
    ⟨distinct.sublist (hsublist.map _), fun n _ => hempty _⟩
  rw [checkedTo, hx, hy, hw.findings, hr, List.map_append]
  rfl

/-- What is found in a body are the remarks about it. -/
theorem bodyFindings_eq (distinct : (p.names.map fun n => n.1.id).Nodup)
    (hf : p.functions[k]? = some f) :
    p.bodyFindings k = (f.remarks (signaturesOf p.functions)).map Remark.finding := by
  have hnext : (p.checkedTo (k + 1)).findings.toList = (p.checkedTo k).findings.toList
      ++ (f.remarks (signaturesOf p.functions)).map Remark.finding := by
    rw [findings_checkedTo distinct, findings_checkedTo distinct, List.take_add_one, hf,
      Option.toList_some, List.flatMap_append, List.flatMap_singleton, ← List.append_assoc,
      List.map_append]
  rw [bodyFindings, hnext]
  exact List.drop_left

/-- The findings of a check are those about the declarations and those of one body after another. -/
theorem findings_check (distinct : (p.names.map fun n => n.1.id).Nodup) :
    p.check.findings = (p.checkedTo 0).findings.toList
      ++ (List.range p.functions.length).flatMap p.bodyFindings := by
  have hbodies : (List.range p.functions.length).map p.bodyFindings
      = p.functions.map fun f => (f.remarks (signaturesOf p.functions)).map Remark.finding := by
    refine List.ext_getElem (by simp) fun k hk hk' => ?_
    rw [List.getElem_map, List.getElem_map, List.getElem_range]
    exact bodyFindings_eq distinct (List.getElem?_eq_getElem _)
  rw [(p.check_describes distinct).findings, List.flatMap_def, hbodies, findings_checkedTo distinct,
    remarks, List.take_zero, List.flatMap_nil, List.append_nil, List.map_append, List.map_flatMap,
    List.flatMap_def]

end Program

end Recast
