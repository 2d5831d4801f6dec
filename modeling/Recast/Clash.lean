import Recast.Pattern.Parser
import Recast.Pattern.Search

/-!
# Type clashes

A type clash is an error that a conversion can mend. Type checkers report it as text, so a
classifier finds it in a message: it has patterns, each for one category of clash, and the first
pattern that matches and captures both types decides.
-/

namespace Recast

/-- Categories of type clash. -/
inductive ClashCategory where
  | declaration
  | argument
  | assignment
  | operands
  | result
deriving DecidableEq, Repr

namespace ClashCategory

/-- All categories, in the order in which messages are classified. -/
def all : List ClashCategory := [declaration, argument, assignment, operands, result]

/-- The name of a category. -/
def name : ClashCategory → String
  | declaration => "var-decl"
  | argument => "func-arg"
  | assignment => "assign"
  | operands => "mismatched"
  | result => "return"

/-- The category with the given name. -/
def ofName? (text : String) : Option ClashCategory := all.find? (·.name == text)

/-- The groups by which a pattern of the category captures the two types of a clash: the wanted and
the present one, or those of the left and right operand. -/
def groups : ClashCategory → String × String
  | operands => ("left", "right")
  | _ => ("want", "got")

end ClashCategory

/-- A type error that a conversion can mend, with the types as the checker spells them. -/
inductive Clash where
  /-- `var x T = v`, where `v` has another type. -/
  | declaration (declared value : String)
  /-- An argument has another type than its parameter. -/
  | argument (param arg : String)
  /-- `x = v`, where `v` has another type. -/
  | assignment (target source : String)
  /-- The operands of a binary operator have different types. -/
  | operands (left right : String)
  /-- A result has another type than its function declares. -/
  | result (expected actual : String)
deriving DecidableEq, Repr

namespace Clash

/-- The clash of a category between two types, given in the order of the category's groups. -/
def of : ClashCategory → (first second : String) → Clash
  | .declaration => declaration
  | .argument => argument
  | .assignment => assignment
  | .operands => operands
  | .result => result

/-- The category of a clash. -/
def category : Clash → ClashCategory
  | declaration .. => .declaration
  | argument .. => .argument
  | assignment .. => .assignment
  | operands .. => .operands
  | result .. => .result

/-- The two types, in the order of the category's groups. -/
def types : Clash → String × String
  | declaration first second | argument first second | assignment first second
  | operands first second | result first second => (first, second)

/-- The clash in words. -/
def text : Clash → String
  | declaration declared value => value ++ " initializer for " ++ declared ++ " declaration"
  | argument param arg => arg ++ " argument for " ++ param ++ " parameter"
  | assignment target source => source ++ " assigned to " ++ target
  | operands left right => "mismatched operands " ++ left ++ " and " ++ right
  | result expected actual => actual ++ " returned as " ++ expected

end Clash

/-- Finds the type clash that a message reports, if it reports one. -/
abbrev Mapper := String → Option Clash

/-- Patterns for categories of clash, in the order in which they are tried. -/
structure Classifier where
  patterns : List (ClashCategory × Pattern)

namespace Classifier

/-- Reads the patterns of a classifier. -/
def ofTexts? (texts : List (ClashCategory × String)) : Option Classifier := do
  let patterns ← texts.mapM fun entry => (Pattern.parse? entry.2).map (entry.1, ·)
  return ⟨patterns⟩

/-- The clash that one pattern finds in a text. -/
def classifyBy (category : ClashCategory) (pattern : Pattern) (text : List Char) :
    Option Clash := do
  let caps ← pattern.search text
  let first ← Pattern.capture? text caps category.groups.1
  let second ← Pattern.capture? text caps category.groups.2
  return .of category first second

/-- The clash that a message reports. -/
def classify (c : Classifier) : Mapper := fun message =>
  let text := message.toList
  c.patterns.findSome? fun (category, pattern) => classifyBy category pattern text

open Pattern

/-- Matches a text. -/
def word (text : String) : Pattern := literal text.toList

/-- Matches one character or more of a line, as many as possible. -/
def someText : Pattern := plus (char .any) true

/-- Messages about a value of a type that does not fit, up to where it was to be stored. -/
def unfitValue : List Pattern :=
  [word "(",
    alt (all [word "constant ", someText]) (alt (word "variable") (word "value")),
    word " of type ", group "got" someText, word ") as ", group "want" someText,
    word " value in "]

/-- Messages about a value that does not fit where it was to be stored. -/
def unfitIn (destination : Pattern) : Pattern := all (unfitValue ++ [destination])

/-- Messages about operands of two types. -/
def mismatchedTypes : Pattern :=
  all [atStart, word "invalid operation: ",
    optional (all [someText, word " ("]) true,
    word "mismatched types ", group "left" someText, word " and ",
    group "right" (plus (char ⟨true, [(')', ')')]⟩) true),
    optional (char (.single ')')) true, atEnd]

/-- The classifier for the messages of `Program.check` and of checkers with the same wording. -/
def standard : Classifier where
  patterns := [
    (.declaration, unfitIn (all [word "variable declaration", atEnd])),
    (.argument, unfitIn (all [word "argument to ", someText, atEnd])),
    (.assignment, unfitIn (all [word "assignment", atEnd])),
    (.operands, mismatchedTypes),
    (.result, unfitIn (all [word "return statement", atEnd]))]

end Classifier

end Recast
