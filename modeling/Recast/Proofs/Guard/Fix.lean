import Recast.Fix
import Recast.Proofs.Guard.Check
import Recast.Proofs.Guard.ParseProgram
import Recast.Proofs.Guard.Perform

/-!
# Fixing without a crash

The whole way from a source text to the fixed one with all guards in place: the text is read into a
store, the store is checked, repairs are planned and performed in it, and it is read to be laid out.
Whatever the text, the rules and the mapper are, no guard stops this but the one for the room in an
arena.
-/

namespace Recast

variable {ε α : Type}

/-! ### Lists -/

/-- The length of the list that an expression has. -/
def Expr.listLengths : Expr ε α → List Nat
  | .call _ _ args => [args.length]
  | _ => []

/-- The lengths of the lists that a statement has. -/
def Stmt.listLengths : Stmt ε α → List Nat
  | .var _ names _ values => [names.length, values.length]
  | .assign _ targets values => [targets.length, values.length]
  | .ret _ results => [results.length]
  | _ => []

/-- The lengths of the lists that a function has. -/
def Function.listLengths (f : Function ε α) : List Nat :=
  [f.params.length, f.results.length, f.body.length]

/-- The lengths of all lists of a program. -/
def Program.listLengths (p : Program ε α) : List Nat :=
  p.functions.flatMap Function.listLengths ++ p.stmts.flatMap Stmt.listLengths
    ++ p.parts.flatMap Expr.listLengths

theorem Expr.Printable.short {e : Expr ε α} {m : Nat} (h : e.Printable m) :
    ∀ n ∈ e.listLengths, n ≤ maxItems := by
  cases e with
  | call tag callee args => exact List.forall_mem_singleton.2 h.2.1
  | _ => exact fun _ hn => nomatch hn

theorem Stmt.Printable.short {s : Stmt ε α} (h : s.Printable) :
    ∀ n ∈ s.listLengths, n ≤ maxItems := by
  cases s with
  | var => simpa [listLengths] using ⟨h.1.2.1, h.2.2.2.length⟩
  | assign => simpa [listLengths] using ⟨h.1.2.length, h.2.2.length⟩
  | ret => exact List.forall_mem_singleton.2 h.length
  | _ => exact fun _ hn => nomatch hn

theorem Function.Printable.short {f : Function ε α} (h : f.Printable) :
    ∀ n ∈ f.listLengths, n ≤ maxItems := by
  simpa [listLengths] using ⟨h.params.1, h.results.1, h.body.1⟩

/-- A source text with a list that is too long is not accepted. -/
theorem short_of_parse {source : String} {tree : SourceProgram} (h : parse source = .ok tree) :
    ∀ n ∈ tree.listLengths, n ≤ maxItems := by
  have hfunctions := printable_of_parse h
  have hstmts : ∀ s ∈ tree.stmts, s.Printable := by
    intro s hs
    obtain ⟨f, hf, hs⟩ := List.mem_flatMap.1 hs
    exact (hfunctions f hf).body.2 s hs
  intro n hn
  rw [Program.listLengths, List.mem_append, List.mem_append] at hn
  simp only [List.mem_flatMap] at hn
  rcases hn with (⟨f, hf, hn⟩ | ⟨s, hs, hn⟩) | ⟨e, he, hn⟩
  · exact (hfunctions f hf).short n hn
  · exact (hstmts s hs).short n hn
  · obtain ⟨root, hr, he⟩ := List.mem_flatMap.1 he
    obtain ⟨s, hs, hr⟩ := List.mem_flatMap.1 hr
    exact (((hstmts s hs).child hr).part he).short n hn

/-! ### The whole way -/

/-- The patterns of the standard classifier as they are written. -/
def Classifier.standardTexts : List (ClashCategory × String) := [
  (.declaration, "\\((?:constant .+|variable|value) of type (?P<got>.+)\\) as (?P<want>.+) value in variable declaration$"),
  (.argument, "\\((?:constant .+|variable|value) of type (?P<got>.+)\\) as (?P<want>.+) value in argument to .+$"),
  (.assignment, "\\((?:constant .+|variable|value) of type (?P<got>.+)\\) as (?P<want>.+) value in assignment$"),
  (.operands, "^invalid operation: (?:.+ \\()?mismatched types (?P<left>.+) and (?P<right>[^)]+)\\)?$"),
  (.result, "\\((?:constant .+|variable|value) of type (?P<got>.+)\\) as (?P<want>.+) value in return statement$")]

namespace Guarded

/-- Fixes a source text once; `mapper` finds the clashes in the messages of the checker. -/
def fixWith (mapper : Mapper) (rules : RuleTable) (source : String) :
    Guarded (Except FixError Fixed) := do
  match ← parse source with
  | .error e => return .error (.parse e)
  | .ok s => do
    let checked ← check s
    match ← planAll mapper checked.info s checked.diagnostics with
    | .error e => return .error (.misplaced e)
    | .ok repairs => do
      let (t, report) ← performAll rules checked.info s repairs
      let p ← program t
      return .ok ⟨p.render, report, checked.diagnostics⟩

/-- The standard classifier, whose patterns have to be readable. -/
def standard : Guarded Classifier :=
  if (Classifier.ofTexts? Classifier.standardTexts).isSome then return .standard
  else crash .brokenPattern

/-- Fixes a source text once. -/
def fix (rules : RuleTable) (source : String) : Guarded (Except FixError Fixed) := do
  let classifier ← standard
  fixWith classifier.classify rules source

end Guarded

theorem Yields.fixWith (mapper : Mapper) (rules : RuleTable) (source : String) :
    Yields (Guarded.fixWith mapper rules source) (Recast.fixWith mapper rules source) := by
  unfold Guarded.fixWith Recast.fixWith
  refine (parse source).bind ?_
  cases Recast.parse source with
  | error e => exact pure _
  | ok tree =>
    have hstored := stored_program tree
    have hs := hstored.represents
    have hholding := hs.holding hstored.numbers
    have hplan := planAll hs mapper (Store.ofProgram tree).program.check.info
      (Store.ofProgram tree).program.check.diagnostics
    refine (check hs).bind (hplan.bind ?_)
    dsimp only
    unfold repair
    cases hrepairs : Recast.planAll mapper (Store.ofProgram tree).program.check.info.oracle
        (Store.ofProgram tree) (Store.ofProgram tree).program.check.diagnostics with
    | error e => exact pure _
    | ok repairs =>
      have hperform := performAll hholding rules (Store.ofProgram tree).program.check.info
        (inStore_of_planAll hs hrepairs)
      have hend := hholding.performAll rules (Store.ofProgram tree).program.check.info.oracle repairs
      exact hperform.bind ((program hend.toRepresents).bind (pure _))

theorem Yields.standard : Yields Guarded.standard Classifier.standard := by
  have hread : (Classifier.ofTexts? Classifier.standardTexts).isSome = true := by decide +kernel
  rw [Guarded.standard, if_pos hread]
  exact pure _

theorem Yields.fix (rules : RuleTable) (source : String) :
    Yields (Guarded.fix rules source) (Recast.fix rules source) :=
  standard.bind (fixWith Classifier.standard.classify rules source)

/-- Fixing a text crashes at most for want of room in an arena, and with room enough it does not, so
that it comes to what it comes to without guards. A text is accepted only if all its lists are
short, and all that nodes refer to is in the store after the text was read and after any repairs. -/
theorem fix_safe (mapper : Mapper) (rules : RuleTable) (source : String) :
    Yields (Guarded.fix rules source) (fix rules source) ∧
      Yields (Guarded.fixWith mapper rules source) (fixWith mapper rules source) ∧
      ∀ tree, parse source = .ok tree →
        (∀ n ∈ tree.listLengths, n ≤ maxItems) ∧
          (Store.ofProgram tree).InBounds ∧
          ∀ (q : TypeOracle) (repairs : List Repair),
            (performAll rules q (Store.ofProgram tree) repairs).1.InBounds := by
  refine ⟨.fix rules source, .fixWith mapper rules source, fun tree hp => ?_⟩
  have hstored := stored_program tree
  have hholding := hstored.represents.holding hstored.numbers
  exact ⟨short_of_parse hp, hholding.inBounds, fun q repairs =>
    (hholding.performAll rules q repairs).inBounds⟩

theorem fix_safe_conversion :
    ∃ tree, parse "func f(a int8) \x7b\n\tvar b int16 = a\n\x7d\n" = .ok tree ∧
      (performAll .widening ⟨fun _ _ => some "int8", fun _ => none, fun _ _ => true⟩
        (Store.ofProgram tree) [.convert (.varValue 0 0) "int16" "int8" none]).1.InBounds ∧
      ∃ room, Guarded.fix .widening "func f(a int8) \x7b\n\tvar b int16 = a\n\x7d\n" room
        = .ok (fix .widening "func f(a int8) \x7b\n\tvar b int16 = a\n\x7d\n") := by
  obtain ⟨tree, hp, -⟩ := exists_parse (fun _ => true)
    (by decide +kernel : (parse "func f(a int8) \x7b\n\tvar b int16 = a\n\x7d\n").toOption.any
      (fun _ => true) = true)
  obtain ⟨hfix, -, hbounds⟩ := fix_safe Classifier.standard.classify .widening
    "func f(a int8) \x7b\n\tvar b int16 = a\n\x7d\n"
  obtain ⟨room, hroom⟩ := hfix.roomy
  exact ⟨tree, hp, (hbounds tree hp).2.2 _ _, room, hroom room (Nat.le_refl _)⟩

end Recast
