import Recast.Text.Blank
import Std.Data.HashMap

/-!
# Conversion rules

A rule `from -> to` says that a value may be brought from one type to another where the program
leaves open which operand to convert. A rule table gives each rule a priority: rules that were added
earlier have a higher one, and adding a rule again gives it the priority of a new rule.
-/

namespace Recast

/-- A conversion from one type to another, by the names of the types. -/
structure Rule where
  source : String
  target : String
deriving DecidableEq, Repr

/-- The text is not of the form `from -> to`. -/
structure MalformedRule where
  text : String
deriving DecidableEq, Repr

/-- The error as text. -/
def MalformedRule.message (e : MalformedRule) : String :=
  "type conversion rule must be the form 'from -> to': " ++ e.text

namespace Rule

/-- The text before the first arrow and the text after it. -/
def splitArrow? : List Char → Option (List Char × List Char)
  | [] => none
  | '-' :: '>' :: rest => some ([], rest)
  | c :: rest => (splitArrow? rest).map fun (before, after) => (c :: before, after)

/-- Reads a rule: one arrow, and on each side something besides white space. -/
def parse (text : String) : Except MalformedRule Rule :=
  match splitArrow? text.toList with
  | none => .error ⟨text⟩
  | some (before, after) =>
    let source := trimBlanks before
    let target := trimBlanks after
    if source.isEmpty || target.isEmpty || (splitArrow? target).isSome then .error ⟨text⟩
    else .ok ⟨String.ofList source, String.ofList target⟩

/-- The rule as text. -/
def text (r : Rule) : String := r.source ++ " -> " ++ r.target

end Rule

/-- Rules with priorities. -/
structure RuleTable where
  /-- The priority of the next rule to be added. -/
  next : Int
  priorities : Std.HashMap (String × String) Int

namespace RuleTable

/-- The lowest priority; rules that are added after it was given out get it as well. -/
def lowest : Int := -2147483648

/-- The table without rules. -/
def empty : RuleTable := ⟨0, ∅⟩

instance : Inhabited RuleTable := ⟨empty⟩

/-- Adds a rule with a lower priority than all rules so far. -/
def add (t : RuleTable) (source target : String) : RuleTable :=
  ⟨max (t.next - 1) lowest, t.priorities.insert (source, target) t.next⟩

/-- Adds a rule. -/
def addRule (t : RuleTable) (r : Rule) : RuleTable := t.add r.source r.target

/-- Adds rules in order. -/
def addRules (t : RuleTable) (rs : List Rule) : RuleTable := rs.foldl addRule t

/-- The priority of converting from one type to another, if there is a rule for it. -/
def priority? (t : RuleTable) (source target : String) : Option Int :=
  t.priorities[(source, target)]?

/-- Number of rules. -/
def size (t : RuleTable) : Nat := t.priorities.size

/-- Whether there are no rules. -/
def isEmpty (t : RuleTable) : Bool := t.size == 0

/-- The conversions to wider types that keep every whole number in range, narrowest source first. -/
def wideningRules : List Rule :=
  [("int8", ["int16", "int32", "int", "int64", "float32", "float64"]),
    ("int16", ["int32", "int", "int64", "float32", "float64"]),
    ("int32", ["int", "int64", "float32", "float64"]),
    ("int", ["int64", "float32", "float64"]),
    ("int64", ["float32", "float64"]),
    ("float32", ["float64"])].flatMap fun (source, targets) => targets.map (Rule.mk source)

/-- The table of the widening conversions. -/
def widening : RuleTable := empty.addRules wideningRules

end RuleTable

end Recast
