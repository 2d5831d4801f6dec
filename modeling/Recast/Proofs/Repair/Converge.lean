import Mathlib.Order.WellFounded
import Recast.Proofs.Repair.Reprint
import Recast.Proofs.Repair.Sites
import Recast.Proofs.Store.Apart

/-!
# Repeated fixing comes to an end

Each conversion that a pass makes mends what the checker says at one place, so the bound on
conversions that may still be made goes down with each pass that changes anything.
-/

namespace Recast

/-! ### Sizes and reports -/

section Sizes

variable {s t : Store} {rules : RuleTable} {q : TypeOracle}

theorem Store.size_addConversion (s : Store) (name : String) (arg : ExprId) :
    (s.addConversion name arg).2.exprs.size = s.exprs.size + 2 := by
  unfold addConversion
  rw [(addsExpr _ _ _).2.size, (addsExpr _ _ _).2.size]

theorem Repair.size_wrap? {slot : Slot} {target source : String}
    (h : wrap? q s slot target source = some t) : t.exprs.size = s.exprs.size + 2 := by
  unfold wrap? at h
  split at h
  · cases h
  · rw [Option.ite_none_left_eq_some] at h
    exact (Store.sameFrame_setSlot? h.2).size.trans (s.size_addConversion target _)

/-- A repair that changes anything adds a conversion. -/
theorem Repair.size_perform? {repair : Repair} (h : repair.perform? rules q s = some t) :
    t.exprs.size = s.exprs.size + 2 := by
  cases repair with
  | convert =>
    rw [perform?, Option.ite_none_right_eq_some] at h
    exact size_wrap? h.2
  | balance id =>
    rw [perform?, balance?] at h
    repeat' split at h
    all_goals first | exact size_wrap? h | cases h

/-- Each repair that is counted as applied adds a conversion, and without one the store stays. -/
theorem size_performAll (rules : RuleTable) (q : TypeOracle) (s : Store) (repairs : List Repair) :
    let out := performAll rules q s repairs
    out.1.exprs.size = s.exprs.size + 2 * out.2.applied ∧ (out.2.applied = 0 → out.1 = s) := by
  have hfold : ∀ state : Store × RepairReport,
      (state.1.exprs.size = s.exprs.size + 2 * state.2.applied ∧
        (state.2.applied = 0 → state.1 = s)) →
      let out := repairs.foldl (performNext rules q) state
      out.1.exprs.size = s.exprs.size + 2 * out.2.applied ∧ (out.2.applied = 0 → out.1 = s) := by
    induction repairs with
    | nil => exact fun _ h => h
    | cons repair repairs ih =>
      intro state h
      refine ih _ ?_
      rw [performNext]
      split
      · rename_i t ht
        refine ⟨?_, fun h => by cases h⟩
        rw [Repair.size_perform? ht, h.1]
        show _ = _ + 2 * (state.2.applied + 1)
        omega
      · exact h
  exact hfold (s, .none) ⟨rfl, fun _ => rfl⟩

/-- The report counts the repairs, those that changed the tree and those that did not. -/
theorem performAll_counts (rules : RuleTable) (q : TypeOracle) (s : Store)
    (repairs : List Repair) :
    let report := (performAll rules q s repairs).2
    report.planned = repairs.length ∧ report.applied + report.unchanged = repairs.length := by
  have hfold : ∀ state : Store × RepairReport,
      let report := (repairs.foldl (performNext rules q) state).2
      report.planned = state.2.planned + repairs.length ∧
        report.applied + report.unchanged
          = state.2.applied + state.2.unchanged + repairs.length := by
    induction repairs with
    | nil => exact fun _ => ⟨rfl, rfl⟩
    | cons repair repairs ih =>
      intro state
      obtain ⟨hplanned, hsum⟩ := ih (performNext rules q state repair)
      have hnext : (performNext rules q state repair).2.planned = state.2.planned + 1 ∧
          (performNext rules q state repair).2.applied
              + (performNext rules q state repair).2.unchanged
            = state.2.applied + state.2.unchanged + 1 := by
        unfold performNext
        split
        · exact ⟨rfl, Nat.add_right_comm _ _ _⟩
        · exact ⟨rfl, rfl⟩
      rw [List.foldl_cons, List.length_cons]
      dsimp only at hplanned hsum ⊢
      omega
  obtain ⟨hplanned, hsum⟩ := hfold (s, .none)
  exact ⟨hplanned.trans (Nat.zero_add _), hsum.trans (Nat.zero_add _)⟩

/-- The report can be read off the sizes of the stores. -/
theorem performAll_report (rules : RuleTable) (q : TypeOracle) (s : Store) (repairs : List Repair)
    (applied : Nat) (h : (performAll rules q s repairs).1.exprs.size = s.exprs.size + 2 * applied) :
    (performAll rules q s repairs).2 = ⟨repairs.length, applied, repairs.length - applied⟩ := by
  obtain ⟨hplanned, hsum⟩ := performAll_counts rules q s repairs
  have hsize := (size_performAll rules q s repairs).1
  have happlied : (performAll rules q s repairs).2.applied = applied := by omega
  rw [happlied] at hsum
  cases hreport : (performAll rules q s repairs).2 with
  | mk planned applied' unchanged =>
    rw [hreport] at hplanned hsum happlied
    subst hplanned happlied
    rw [← hsum, Nat.add_sub_cancel_left]

end Sizes

/-! ### Passes over a source text -/

theorem repair_eq_ok {rules : RuleTable} {mapper : Mapper} {q : TypeOracle} {s t : Store}
    {ds : List Diagnostic} {report : RepairReport}
    (h : repair rules mapper q s ds = .ok (t, report)) :
    ∃ repairs, performAll rules q s repairs = (t, report) := by
  rw [repair] at h
  cases hplan : planAll mapper q s ds with
  | error e => rw [hplan] at h; cases h
  | ok repairs =>
    rw [hplan] at h
    exact ⟨repairs, Except.ok.inj h⟩

/-- A pass over a source text that can be read gives a text that can be read. The bound on the
conversions that may still be made goes down unless the pass changes nothing. -/
theorem exists_fix {source : String} {tree : SourceProgram} (h : parse source = .ok tree)
    (rules : RuleTable) : ∃ fixed tree', fix rules source = .ok fixed ∧
      parse fixed.source = .ok tree' ∧ tree'.render = fixed.source ∧
      (fixed.report.applied = 0 → fixed.source = tree.render) ∧
      tree'.pending ≤ tree.pending ∧
      (0 < fixed.report.applied → tree'.pending < tree.pending) := by
  have hs := stored_program tree
  have hc := hs.represents.check_describes
  obtain ⟨t, report, W, hrepair, -, hpass⟩ := exists_pass h rules
  obtain ⟨repairs, hperformed⟩ := repair_eq_ok hrepair
  have hprintable := hpass.printable (hs.printableProgram h)
  obtain ⟨tree', hparse, hsame, hlines⟩ := hprintable.exists_parse_render
  refine ⟨_, tree', fix_eq_ok h hrepair, hparse, Program.render_eq hlines, ?_, ?_⟩
  · intro hnone
    have hsize := (size_performAll rules (Store.ofProgram tree).program.check.info.oracle
      (Store.ofProgram tree) repairs).2
    rw [hperformed] at hsize
    show t.program.render = tree.render
    rw [show t = _ from hsize hnone]
    exact Program.render_eq hs.lines
  · have hbound := Program.pending_wrap
      (hpass.mendsProgram hc hs.represents.distinct fun _ hr => hr)
    rw [← hpass.represents.program, ← hsame.pending_eq, hs.sameText.pending_eq] at hbound
    refine ⟨by omega, fun happlied => ?_⟩
    have hsize := (size_performAll rules (Store.ofProgram tree).program.check.info.oracle
      (Store.ofProgram tree) repairs).1
    rw [hperformed] at hsize
    dsimp only at hsize happlied
    -- the first new node belongs to a conversion of the pass
    obtain ⟨e, he, i, hi, -⟩ := hpass.covered _ (Nat.le_refl _) (by omega)
    have hcount : 0 < W.count (Store.ofProgram tree).program.parts :=
      List.countP_pos_iff.2 ⟨e, he, by rw [hi]; rfl⟩
    omega

end Recast
