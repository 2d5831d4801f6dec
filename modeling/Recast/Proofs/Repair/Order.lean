import Mathlib.Data.List.Perm.Basic
import Recast.Proofs.Repair.Outcome

/-!
# The order of the diagnostics

Each diagnostic is about values that no other one is about, and a repair asks about types that no
repair changes. So it does not matter in which order diagnostics are dealt with.
-/

namespace Recast

/-- A list that a map makes in another order is made of the elements in another order. -/
theorem exists_perm_of_perm_map {β γ : Type} {f : β → γ} {xs : List β} {ys : List γ}
    (h : ys.Perm (xs.map f)) : ∃ zs : List β, ys = zs.map f ∧ zs.Perm xs :=
  (congrFun (congrFun (List.eq_map_comp_perm f) ys) xs).mpr h

theorem reportOn_perm {rules : RuleTable} {info : TypeInfo} {rs rs' : List Remark}
    (h : rs.Perm rs') : reportOn rules info rs = reportOn rules info rs' := by
  rw [reportOn, reportOn, (h.filterMap _).length_eq, (h.filterMap _).length_eq]

/-- Passes over the remarks of a check in two orders have the same report and leave the same text. -/
theorem exists_same_outcome {source : String} {tree : SourceProgram} (h : parse source = .ok tree)
    (rules : RuleTable) {rs : List Remark} :
    let st := Store.ofProgram tree
    let p := st.program
    let checked := p.check
    rs.Perm p.remarks →
      ∃ t t' report,
        repair rules Classifier.standard.classify checked.info.oracle st checked.diagnostics
          = .ok (t, report) ∧
        repair rules Classifier.standard.classify checked.info.oracle st
          (rs.map fun r => r.finding.diagnostic) = .ok (t', report) ∧
        t'.program.render = t.program.render := by
  intro st p checked hrs
  have hs : Stored tree p := stored_program tree
  obtain ⟨t, W, hrepair, hprogram, hmade, hrest⟩ := exists_outcome h rules (List.Perm.refl p.remarks)
  obtain ⟨t', V, hrepair', hprogram', hmade', hrest'⟩ := exists_outcome h rules hrs
  -- both passes convert the same expressions to the same types
  have htypes : V.types = W.types := by
    funext id
    by_cases hid : id ∈ p.remarks.flatMap Remark.values
    · obtain ⟨r, hr, hid⟩ := List.mem_flatMap.1 hid
      rw [hmade r hr id hid, hmade' r hr id hid]
    · rw [hrest id hid, hrest' id hid]
  have hprintable := hs.printableProgram h
  refine ⟨t, t', reportOn rules checked.info p.remarks, ?_, ?_, ?_⟩
  · rw [(classify_checked h).1]
    exact hrepair
  · rw [hrepair', reportOn_perm hrs]
  · rw [hprogram, hprogram']
    exact Program.render_wrap_eq hprintable hprintable rfl (Program.bare_wrap htypes rfl)

/-- Dealing with the diagnostics of a check in any order gives the same report and the same text. -/
theorem repair_perm {source : String} {tree : SourceProgram} (h : parse source = .ok tree)
    (rules : RuleTable) {ds : List Diagnostic}
    (hperm : ds.Perm (Store.ofProgram tree).program.check.diagnostics) :
    let st := Store.ofProgram tree
    let checked := st.program.check
    ∃ t t' report,
      repair rules Classifier.standard.classify checked.info.oracle st checked.diagnostics
        = .ok (t, report) ∧
      repair rules Classifier.standard.classify checked.info.oracle st ds = .ok (t', report) ∧
      t'.program.render = t.program.render := by
  intro st checked
  rw [(classify_checked h).1] at hperm
  obtain ⟨rs, rfl, hrs⟩ := exists_perm_of_perm_map hperm
  exact exists_same_outcome h rules hrs

theorem repair_perm_reverse :
    ∃ tree, parse "func f(a int8, b int64) int64 \x7b\n\tvar x int32 = a * b\n\treturn x + a\n\x7d\n"
        = .ok tree ∧
      let st := Store.ofProgram tree
      let checked := st.program.check
      ∃ t t' report,
        repair .widening Classifier.standard.classify checked.info.oracle st checked.diagnostics
          = .ok (t, report) ∧
        repair .widening Classifier.standard.classify checked.info.oracle st
          checked.diagnostics.reverse = .ok (t', report) ∧
        t'.program.render = t.program.render := by
  obtain ⟨tree, hp, -⟩ := exists_parse (fun _ => true)
    (by decide +kernel : (parse
      "func f(a int8, b int64) int64 \x7b\n\tvar x int32 = a * b\n\treturn x + a\n\x7d\n").toOption.any
        (fun _ => true) = true)
  exact ⟨tree, hp, repair_perm hp .widening (List.reverse_perm _)⟩

end Recast
