import Recast.Layout
import Recast.Parser
import Recast.Repair.Perform
import Recast.Repair.Plan
import Recast.Store.Build
import Recast.Types.Checker

/-!
# Fixing a source text

`fix` reads a source text, checks its types, puts conversions where they mend a type clash, and lays
the result out.
-/

namespace Recast

/-- Works out the repairs for a list of diagnostics and applies them. -/
def repair (rules : RuleTable) (mapper : Mapper) (q : TypeOracle) (s : Store)
    (ds : List Diagnostic) : Except MisplacedClash (Store × RepairReport) := do
  let repairs ← planAll mapper q s ds
  return performAll rules q s repairs

/-- What stops the fixing of a source text. -/
inductive FixError where
  | parse (error : ParseError)
  | misplaced (error : MisplacedClash)
deriving DecidableEq, Repr

/-- The error as text. -/
def FixError.message : FixError → String
  | parse error => "parse error: " ++ error.message
  | misplaced error => error.text

/-- A fixed source text. -/
structure Fixed where
  source : String
  report : RepairReport
  /-- What the checker had to say about the text before it was fixed. -/
  diagnostics : List Diagnostic
deriving DecidableEq, Repr

/-- Fixes a source text once; `mapper` finds the clashes in the messages of the checker. -/
def fixWith (mapper : Mapper) (rules : RuleTable) (source : String) : Except FixError Fixed :=
  match parse source with
  | .error e => .error (.parse e)
  | .ok tree =>
    let store := Store.ofProgram tree
    let checked := store.program.check
    match repair rules mapper checked.info.oracle store checked.diagnostics with
    | .error e => .error (.misplaced e)
    | .ok (store, report) => .ok ⟨store.program.render, report, checked.diagnostics⟩

/-- Fixes a source text once. -/
def fix (rules : RuleTable) (source : String) : Except FixError Fixed :=
  fixWith Classifier.standard.classify rules source

/-- Fixes a source text a number of times, each time what the time before made of it. The list ends
early if a text cannot be fixed. -/
def fixRepeatedly (mapper : Mapper) (rules : RuleTable) :
    (times : Nat) → String → List (Except FixError Fixed)
  | 0, _ => []
  | times + 1, source =>
    match fixWith mapper rules source with
    | .error e => [.error e]
    | .ok fixed => .ok fixed :: fixRepeatedly mapper rules times fixed.source

end Recast
