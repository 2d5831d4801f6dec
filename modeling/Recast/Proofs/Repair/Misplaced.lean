import Recast.Fix
import Recast.Proofs.Store.Paths

/-!
# Diagnostics of another tree

A clash that is reported where no node starts does not belong to the tree. The first such diagnostic
of a list is the error of the whole list, and the tree stays as it was, whatever was planned before.

`repair` yields a new store. `repairInPlace` is the same work on a tree that is changed step by step
and that no failure takes back.
-/

namespace Recast

/-! ### Repairs in place -/

/-- Work on a tree in place. What it does to the tree is not undone when it fails. -/
abbrev InPlace := ExceptT MisplacedClash (StateM Store)

namespace InPlace

variable {α β : Type}

/-- What the work yields, and the tree after it. -/
def run (work : InPlace α) (s : Store) : Except MisplacedClash α × Store :=
  (ExceptT.run work).run s

theorem run_bind (work : InPlace α) (next : α → InPlace β) (s : Store) :
    (work >>= next).run s =
      match work.run s with
      | (.error e, t) => (.error e, t)
      | (.ok a, t) => (next a).run t := by
  show (ExceptT.bindCont next (work.run s).1).run (work.run s).2 = _
  cases work.run s with
  | mk result t => cases result <;> rfl

/-- The repairs for diagnostics; each one is planned on the tree as it is by then. -/
def plan (mapper : Mapper) (q : TypeOracle) : List Diagnostic → InPlace (List Repair)
  | [] => return []
  | d :: ds => do
    let s ← get
    let repair? ← planOne mapper q s s.program d
    return repair?.toList ++ (← plan mapper q ds)

/-- Performs repairs in order and counts them. -/
def perform (rules : RuleTable) (q : TypeOracle) : List Repair → RepairReport → InPlace RepairReport
  | [], report => return report
  | repair :: repairs, report => do
    let (s, report) := performNext rules q (← get, report) repair
    set s
    perform rules q repairs report

end InPlace

/-- Works out the repairs for a list of diagnostics and applies them to the tree. -/
def repairInPlace (rules : RuleTable) (mapper : Mapper) (q : TypeOracle) (ds : List Diagnostic) :
    InPlace RepairReport := do
  let repairs ← InPlace.plan mapper q ds
  InPlace.perform rules q repairs .none

/-! ### Planning, diagnostic by diagnostic -/

section Plan

variable {mapper : Mapper} {q : TypeOracle} {s : Store} {d : Diagnostic} {ds : List Diagnostic}

theorem planAll_nil : planAll mapper q s [] = .ok [] := rfl

theorem planAll_cons : planAll mapper q s (d :: ds) =
    match planOne mapper q s s.program d with
    | .error e => .error e
    | .ok repair? => (planAll mapper q s ds).map (repair?.toList ++ ·) := by
  show (do let found ← List.mapM (planOne mapper q s s.program) (d :: ds)
           pure (found.filterMap id)) = _
  rw [List.mapM_cons]
  cases planOne mapper q s s.program d with
  | error e => rfl
  | ok repair? =>
    show _ = Except.map _ (do let found ← List.mapM (planOne mapper q s s.program) ds
                              pure (found.filterMap id))
    cases List.mapM (planOne mapper q s s.program) ds with
    | error e => rfl
    | ok found => cases repair? <;> rfl

/-- A message that reports no clash asks for nothing, wherever it points. -/
theorem planOne_of_unclassified (h : mapper d.message = none) (p : PlacedProgram) :
    planOne mapper q s p d = .ok none := by
  rw [planOne, h]

theorem planAll_filter : planAll mapper q s (ds.filter fun d => (mapper d.message).isSome)
    = planAll mapper q s ds := by
  induction ds with
  | nil => rfl
  | cons d ds ih =>
    cases hd : mapper d.message with
    | none =>
      rw [List.filter_cons_of_neg (by simp [hd]), ih, planAll_cons, planOne_of_unclassified hd]
      cases planAll mapper q s ds <;> rfl
    | some clash => rw [List.filter_cons_of_pos (by simp [hd]), planAll_cons, planAll_cons, ih]

/-- Planning in place reads the tree and leaves it as it is. -/
theorem InPlace.run_plan (ds : List Diagnostic) :
    (plan mapper q ds).run s = (planAll mapper q s ds, s) := by
  induction ds with
  | nil => rfl
  | cons d ds ih =>
    rw [plan, run_bind]
    refine (run_bind (planOne mapper q s s.program d : InPlace (Option Repair)) _ s).trans ?_
    rw [planAll_cons]
    cases planOne mapper q s s.program d with
    | error e => rfl
    | ok repair? =>
      refine (run_bind (plan mapper q ds) _ s).trans ?_
      rw [ih]
      cases planAll mapper q s ds <;> rfl

theorem InPlace.run_perform (rules : RuleTable) (repairs : List Repair) (report : RepairReport)
    (s : Store) :
    (perform rules q repairs report).run s =
      let out := repairs.foldl (performNext rules q) (s, report)
      (.ok out.2, out.1) := by
  induction repairs generalizing report s with
  | nil => rfl
  | cons repair repairs ih => exact ih _ _

/-- Repairing in place comes to the store that `repair` yields. Where that fails, the tree is as it
was. -/
theorem run_repairInPlace (rules : RuleTable) (ds : List Diagnostic) :
    (repairInPlace rules mapper q ds).run s =
      match repair rules mapper q s ds with
      | .error e => (.error e, s)
      | .ok (t, report) => (.ok report, t) := by
  rw [repairInPlace, InPlace.run_bind, InPlace.run_plan, repair]
  cases planAll mapper q s ds with
  | error e => rfl
  | ok repairs => exact InPlace.run_perform rules repairs .none s

end Plan

/-! ### The first misplaced diagnostic -/

/-- Where some item of a list has a property, there is a first one. -/
theorem exists_first {α : Type} {P : α → Prop} {xs : List α} {x : α} (hx : x ∈ xs) (hP : P x) :
    ∃ before first after, xs = before ++ first :: after ∧ (∀ y ∈ before, ¬ P y) ∧ P first := by
  classical
  cases hfind : xs.find? (fun y => decide (P y)) with
  | none => exact absurd hP (by simpa using List.find?_eq_none.1 hfind x hx)
  | some first =>
    obtain ⟨hfirst, before, after, rfl, hbefore⟩ := List.find?_eq_some_iff_append.1 hfind
    exact ⟨before, first, after, rfl, by simpa using hbefore, by simpa using hfirst⟩

/-- A diagnostic reports a clash at a position where no node of the tree starts. -/
structure Diagnostic.Misplaced (mapper : Mapper) (s : Store) (d : Diagnostic) : Prop where
  classified : (mapper d.message).isSome
  noNode : ∀ id span, s.spanOf? id = some span → span.start ≠ d.pos

/-- The path to a position of a source text is exact just where a node of the tree starts. -/
theorem pathIsExact_ofProgram_iff {source : String} {tree : SourceProgram}
    (h : parse source = .ok tree) (pos : Nat) :
    let st := Store.ofProgram tree
    pathIsExact (st.program.pathAt pos) pos ↔
      ∃ id span, st.spanOf? id = some span ∧ span.start = pos := by
  intro st
  have hstored : Stored tree st.program := stored_program tree
  have hspan {id : NodeId} {span : Span} : st.spanOf? id = some span ↔ (id, span) ∈ _ :=
    (hstored.represents.holding hstored.numbers).spanOf?_eq_some
  rw [hstored.represents.exact_iff (hstored.wellPlaced h)]
  simp only [hspan, Prod.exists]

section First

variable {source : String} {tree : SourceProgram} {rules : RuleTable} {mapper : Mapper}
  {q : TypeOracle} {e : MisplacedClash} {d : Diagnostic} {ds : List Diagnostic}

theorem planOne_eq_error_iff (h : parse source = .ok tree) :
    let st := Store.ofProgram tree
    planOne mapper q st st.program d = .error e ↔
      d.Misplaced mapper st ∧ e = ⟨d.pos, d.message⟩ := by
  intro st
  rw [planOne]
  cases hm : mapper d.message with
  | none =>
    refine iff_of_false nofun ?_
    rintro ⟨⟨hclassified, -⟩, -⟩
    simp [hm] at hclassified
  | some clash =>
    have hmisplaced : d.Misplaced mapper st ↔ ¬ pathIsExact (st.program.pathAt d.pos) d.pos := by
      refine Iff.trans ?_ (pathIsExact_ofProgram_iff h d.pos).not.symm
      constructor
      · rintro hd ⟨id, span, hspan, hstart⟩
        exact hd.noNode id span hspan hstart
      · intro hnone
        exact ⟨by simp [hm], fun id span hspan hstart => hnone ⟨id, span, hspan, hstart⟩⟩
    rw [hmisplaced]
    cases st.program.pathAt d.pos with
    | none => simp [pathIsExact, eq_comm]
    | some path =>
      by_cases hstart : path.innermostSpan.start = d.pos
      · simp [pathIsExact, hstart]
      · simp only [hstart, if_false, pathIsExact, Option.any_some, beq_iff_eq, not_false_eq_true,
          true_and, Except.error.injEq]
        exact eq_comm

/-- The error of a list of diagnostics is that of the first one that is misplaced. -/
theorem planAll_eq_error_iff (h : parse source = .ok tree) :
    let st := Store.ofProgram tree
    planAll mapper q st ds = .error e ↔
      ∃ before d after, ds = before ++ d :: after ∧
        (∀ earlier ∈ before, ¬ earlier.Misplaced mapper st) ∧ d.Misplaced mapper st ∧
        e = ⟨d.pos, d.message⟩ := by
  intro st
  induction ds with
  | nil => simp [planAll_nil]
  | cons d ds ih =>
    rw [planAll_cons]
    cases hone : planOne mapper q st st.program d with
    | error e' =>
      obtain ⟨hd, rfl⟩ := (planOne_eq_error_iff h).1 hone
      constructor
      · rintro ⟨⟩
        exact ⟨[], d, ds, rfl, nofun, hd, rfl⟩
      · rintro ⟨before, d', after, hds, hbefore, hd', rfl⟩
        cases before with
        | nil =>
          cases hds
          rfl
        | cons b before =>
          cases hds
          exact absurd hd (hbefore d List.mem_cons_self)
    | ok repair? =>
      have hd : ¬ d.Misplaced mapper st := by
        intro hd
        rw [(planOne_eq_error_iff h).2 ⟨hd, rfl⟩] at hone
        cases hone
      have hrest : (planAll mapper q st ds).map (repair?.toList ++ ·) = .error e ↔
          planAll mapper q st ds = .error e := by
        cases planAll mapper q st ds <;> simp [Except.map]
      rw [hrest, ih]
      constructor
      · rintro ⟨before, d', after, rfl, hbefore, hd', he⟩
        exact ⟨d :: before, d', after, rfl, List.forall_mem_cons.2 ⟨hd, hbefore⟩, hd', he⟩
      · rintro ⟨before, d', after, hds, hbefore, hd', he⟩
        cases before with
        | nil =>
          cases hds
          exact absurd hd' hd
        | cons b before =>
          cases hds
          exact ⟨before, d', after, rfl, (List.forall_mem_cons.1 hbefore).2, hd', he⟩

theorem repair_eq_error_iff {s : Store} :
    repair rules mapper q s ds = .error e ↔ planAll mapper q s ds = .error e := by
  rw [repair]
  cases planAll mapper q s ds with
  | error e' =>
    show Except.error e' = Except.error e ↔ _
    simp
  | ok repairs => exact iff_of_false nofun nofun

theorem repair_filter {s : Store} :
    repair rules mapper q s (ds.filter fun d => (mapper d.message).isSome)
      = repair rules mapper q s ds := by
  rw [repair, repair, planAll_filter]

end First

/-- Repairing a program that was read fails if and only if some diagnostic reports a clash where no
node of the tree starts. The error is that of the first such diagnostic, and the tree is as it was,
also where diagnostics before that one asked for repairs. Diagnostics that report no clash make no
difference, wherever they point. -/
theorem repair_misplaced {source : String} {tree : SourceProgram} (h : parse source = .ok tree)
    (rules : RuleTable) (mapper : Mapper) (q : TypeOracle) (ds : List Diagnostic) :
    let st := Store.ofProgram tree
    let result := repair rules mapper q st ds
    let outcome := (repairInPlace rules mapper q ds).run st
    (∀ e, result = .error e ↔ ∃ before d after, ds = before ++ d :: after ∧
      (∀ earlier ∈ before, ¬ earlier.Misplaced mapper st) ∧ d.Misplaced mapper st ∧
      e = ⟨d.pos, d.message⟩) ∧
    ((∃ e, result = .error e) ↔ ∃ d ∈ ds, d.Misplaced mapper st) ∧
    (∀ e, result = .error e → outcome = (.error e, st)) ∧
    (∀ t report, result = .ok (t, report) → outcome = (.ok report, t)) ∧
    let classified := ds.filter fun d => (mapper d.message).isSome
    repair rules mapper q st classified = result ∧
      (repairInPlace rules mapper q classified).run st = outcome := by
  intro st result outcome
  have houtcome : outcome = match result with
      | .error e => (.error e, st)
      | .ok (t, report) => (.ok report, t) := run_repairInPlace rules ds
  have hiff (e : MisplacedClash) : result = .error e ↔ ∃ before d after, ds = before ++ d :: after ∧
      (∀ earlier ∈ before, ¬ earlier.Misplaced mapper st) ∧ d.Misplaced mapper st ∧
      e = ⟨d.pos, d.message⟩ :=
    repair_eq_error_iff.trans (planAll_eq_error_iff h)
  refine ⟨hiff, ?_, ?_, ?_, repair_filter, ?_⟩
  · constructor
    · rintro ⟨e, he⟩
      obtain ⟨before, d, after, rfl, -, hd, -⟩ := (hiff e).1 he
      exact ⟨d, by simp, hd⟩
    · rintro ⟨d, hmem, hd⟩
      obtain ⟨before, first, after, hds, hbefore, hfirst⟩ := exists_first hmem hd
      exact ⟨_, (hiff _).2 ⟨before, first, after, hds, hbefore, hfirst, rfl⟩⟩
  · intro e he
    rw [houtcome, he]
  · intro t report hok
    rw [houtcome, hok]
  · rw [houtcome, run_repairInPlace, repair_filter]

/-- The second clash is reported at the operator, so the first one is not mended either. -/
theorem repair_misplaced_operator :
    ∃ tree, parse "func f(a int32, b int64) \x7b\n\tprintln(a + b)\n\x7d\n" = .ok tree ∧
      let st := Store.ofProgram tree
      let mapper := Classifier.standard.classify
      let q : TypeOracle := ⟨fun _ id => [none, some "int32", some "int64"][id]?.join,
        fun _ => none, BasicType.convertibleNames⟩
      let message := "invalid operation: a + b (mismatched types int32 and int64)"
      let clash : Diagnostic := ⟨message, ⟨36, 41⟩⟩
      let other : Diagnostic := ⟨"undefined: c", ⟨99, 100⟩⟩
      let moved : Diagnostic := ⟨message, ⟨37, 42⟩⟩
      (planAll mapper q st [clash, other]).toOption.map List.length = some 1 ∧
        (repairInPlace .widening mapper q [clash, other, moved]).run st
          = (.error ⟨37, message⟩, st) := by
  obtain ⟨tree, hp, hcheck⟩ := exists_parse
    (fun tree =>
      let st := Store.ofProgram tree
      let mapper := Classifier.standard.classify
      let q : TypeOracle := ⟨fun _ id => [none, some "int32", some "int64"][id]?.join,
        fun _ => none, BasicType.convertibleNames⟩
      let message := "invalid operation: a + b (mismatched types int32 and int64)"
      decide ((planAll mapper q st
          [⟨message, ⟨36, 41⟩⟩, ⟨"undefined: c", ⟨99, 100⟩⟩]).toOption.map List.length = some 1 ∧
        (mapper message).isSome = true ∧ (mapper "undefined: c").isSome = false ∧
        pathIsExact (st.program.pathAt 36) 36 = true ∧
        pathIsExact (st.program.pathAt 37) 37 = false))
    (by decide +kernel : (parse
      "func f(a int32, b int64) \x7b\n\tprintln(a + b)\n\x7d\n").toOption.any _ = true)
  obtain ⟨hplan, hclash, hother, hexact, hmoved⟩ := of_decide_eq_true hcheck
  obtain ⟨hiff, -, hunchanged, -⟩ := repair_misplaced hp .widening Classifier.standard.classify
    ⟨fun _ id => [none, some "int32", some "int64"][id]?.join, fun _ => none,
      BasicType.convertibleNames⟩ _
  refine ⟨tree, hp, hplan, hunchanged _ ((hiff _).2 ⟨[_, _], _, [], rfl, ?_, ?_, rfl⟩)⟩
  · simp only [List.forall_mem_cons]
    refine ⟨fun h => ?_, fun h => ?_, nofun⟩
    · obtain ⟨id, span, hspan, hstart⟩ := (pathIsExact_ofProgram_iff hp 36).1 hexact
      exact h.noNode id span hspan hstart
    · have := h.classified
      rw [hother] at this
      cases this
  · refine ⟨hclash, fun id span hspan hstart => ?_⟩
    have := (pathIsExact_ofProgram_iff hp 37).2 ⟨id, span, hspan, hstart⟩
    rw [hmoved] at this
    cases this

end Recast
