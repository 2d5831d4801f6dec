/-!
# Binary operators

The arithmetic and comparison operators of the language, their symbols and how tightly they bind.
-/

namespace Recast

/-- Binary operators. -/
inductive BinaryOp where
  | add
  | sub
  | mul
  | div
  | rem
  | eq
  | notEq
  | lt
  | ltEq
  | gt
  | gtEq
deriving DecidableEq, Repr, Inhabited

namespace BinaryOp

/-- All operators, arithmetic before comparison. -/
def all : List BinaryOp := [add, sub, mul, div, rem, eq, notEq, lt, ltEq, gt, gtEq]

/-- How the operator is written in source text. -/
def symbol : BinaryOp → String
  | add => "+"
  | sub => "-"
  | mul => "*"
  | div => "/"
  | rem => "%"
  | eq => "=="
  | notEq => "!="
  | lt => "<"
  | ltEq => "<="
  | gt => ">"
  | gtEq => ">="

/-- The operator's name in tree listings. -/
def title : BinaryOp → String
  | add => "Add"
  | sub => "Sub"
  | mul => "Mul"
  | div => "Div"
  | rem => "Rem"
  | eq => "Eq"
  | notEq => "NotEq"
  | lt => "Lt"
  | ltEq => "LtEq"
  | gt => "Gt"
  | gtEq => "GtEq"

/-- Binding strength: multiplication above addition above comparison. -/
def precedence : BinaryOp → Nat
  | mul | div | rem => 5
  | add | sub => 4
  | eq | notEq | lt | ltEq | gt | gtEq => 3

/-- Comparisons yield a truth value whatever their operands are. -/
def isComparison : BinaryOp → Bool
  | eq | notEq | lt | ltEq | gt | gtEq => true
  | add | sub | mul | div | rem => false

/-- The operator written as `text`. -/
def ofSymbol? (text : String) : Option BinaryOp := all.find? (·.symbol == text)

theorem mem_all (op : BinaryOp) : op ∈ all := by cases op <;> decide

end BinaryOp

end Recast
