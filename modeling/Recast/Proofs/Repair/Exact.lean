import Recast.Proofs.Repair.Pass

/-!
# Only a text that cannot be read cannot be fixed

The planner gives up on a clash that is reported where no node starts. The checker reports no such
clash: it reports some faults at whole statements, functions and written types, but the words of
those are not the words of a clash.
-/

namespace Recast

/-- The planner gives up on every clash that is reported where no node starts. -/
theorem pathIsExact_of_planOne {mapper : Mapper} {q : TypeOracle} {s : Store} {p : PlacedProgram}
    {d : Diagnostic} {repair? : Option Repair} (hplan : planOne mapper q s p d = .ok repair?)
    (hclash : (mapper d.message).isSome) : pathIsExact (p.pathAt d.pos) d.pos = true := by
  obtain ⟨clash, hclash⟩ := Option.isSome_iff_exists.1 hclash
  simp only [planOne, hclash] at hplan
  cases hpath : p.pathAt d.pos with
  | none =>
    rw [hpath] at hplan
    cases hplan
  | some path =>
    rw [hpath] at hplan
    by_cases hstart : path.innermostSpan.start = d.pos
    · simpa [pathIsExact] using hstart
    · dsimp only at hplan
      rw [if_neg hstart] at hplan
      cases hplan

/-- The checker reports clashes only where nodes start. -/
theorem pathIsExact_of_checked {source : String} {tree : SourceProgram}
    (h : parse source = .ok tree) :
    let p := (Store.ofProgram tree).program
    ∀ d ∈ p.check.diagnostics, (Classifier.standard.classify d.message).isSome →
      pathIsExact (p.pathAt d.pos) d.pos = true := by
  intro p d hd hclash
  have hs : Stored tree p := stored_program tree
  obtain ⟨hdiagnostics, hclassify⟩ := classify_checked h
  rw [hdiagnostics] at hd
  obtain ⟨r, hr, rfl⟩ := List.mem_map.1 hd
  have hplan := planOne_remark hs.represents (hs.wellPlaced h) hs.represents.check_describes hr
    (hclassify r hr)
  exact pathIsExact_of_planOne hplan hclash

/-- Fixing a text fails just when reading it does, and with the error of the reader. In a text that
can be read, each diagnostic that reports a clash stands at the start of the innermost node that
encloses its position. -/
theorem fix_eq_error_iff (rules : RuleTable) (source : String) :
    (∀ e, fix rules source = .error e ↔
      ∃ error, parse source = .error error ∧ e = .parse error) ∧
    ∀ tree, parse source = .ok tree →
      let p := (Store.ofProgram tree).program
      ∀ d ∈ p.check.diagnostics, (Classifier.standard.classify d.message).isSome →
        pathIsExact (p.pathAt d.pos) d.pos = true := by
  refine ⟨fun e => ?_, fun tree h => pathIsExact_of_checked h⟩
  cases hparse : parse source with
  | error error =>
    have hfix : fix rules source = .error (.parse error) := by
      rw [fix, fixWith, hparse]
    rw [hfix]
    constructor
    · intro he
      exact ⟨error, rfl, (Except.error.inj he).symm⟩
    · intro he
      obtain ⟨_, herror, rfl⟩ := he
      rw [Except.error.inj herror]
  | ok tree =>
    obtain ⟨t, report, -, hrepair, -, -⟩ := exists_pass hparse rules
    rw [fix_eq_ok hparse hrepair]
    constructor
    · intro he
      cases he
    · intro he
      obtain ⟨_, herror, -⟩ := he
      cases herror

theorem fix_eq_error_iff_nested :
    ∃ tree, parse "func f(a int32, b int64) \x7b\n\tvar x int8 = a + b + a\n\x7d\n" = .ok tree ∧
      let p := (Store.ofProgram tree).program
      ∀ d ∈ p.check.diagnostics, (Classifier.standard.classify d.message).isSome →
        pathIsExact (p.pathAt d.pos) d.pos = true := by
  obtain ⟨tree, hp, -⟩ := exists_parse (fun _ => true)
    (by decide +kernel : (parse
      "func f(a int32, b int64) \x7b\n\tvar x int8 = a + b + a\n\x7d\n").toOption.any
        (fun _ => true) = true)
  exact ⟨tree, hp, (fix_eq_error_iff .widening _).2 tree hp⟩

end Recast
