import Recast.Tree.Basic

/-!
# Text of expressions and statements

The canonical spelling of a piece of a tree on one line: single spaces around binary operators, a
comma and a space between list items. Parentheses come from parenthesised expressions only, so the
spelling of a tree that the parser made reads back as that tree.
-/

namespace Recast

variable {ε α : Type}

mutual

/-- The text of an expression; a hole has none. -/
def Expr.text : Expr ε α → String
  | .hole _ => ""
  | .literal _ _ lexeme => lexeme
  | .name _ text => text
  | .paren _ inner => "(" ++ inner.text ++ ")"
  | .neg _ operand => "-" ++ operand.text
  | .binary _ op left right => left.text ++ " " ++ op.symbol ++ " " ++ right.text
  | .call _ callee args => Expr.listText (callee.text ++ "(") "" args ++ ")"

/-- Adds the texts of a list of expressions to `written`, with `separator` before the first and a
comma before each of the others. -/
def Expr.listText (written separator : String) : List (Expr ε α) → String
  | [] => written
  | e :: es => Expr.listText (written ++ separator ++ e.text) ", " es

end

/-- The texts of a list of expressions with commas between. -/
def Expr.commaText (es : List (Expr ε α)) : String := Expr.listText "" "" es

/-- Items with commas between. -/
def commaSeparated (items : List String) : String := ", ".intercalate items

/-- The text of a statement; a hole has none. -/
def Stmt.text : Stmt ε α → String
  | .hole _ => ""
  | .var _ names type? values =>
    "var " ++ commaSeparated names
      ++ (match type? with
        | some type => " " ++ type.name
        | none => "")
      ++ (if values.isEmpty then "" else " = " ++ Expr.commaText values)
  | .assign _ targets values => Expr.commaText targets ++ " = " ++ Expr.commaText values
  | .ret _ results => if results.isEmpty then "return" else "return " ++ Expr.commaText results
  | .expr _ e => e.text

/-- The text of a parameter. -/
def Param.text (p : Param String) : String :=
  p.name ++ " " ++ (if p.variadic then "..." else "") ++ p.type.name

/-- The text of a result list after the parameters: nothing, one type, or several in parentheses. -/
def resultsText : List (TypeRef String) → String
  | [] => ""
  | [single] => " " ++ single.name
  | many => " (" ++ commaSeparated (many.map TypeRef.name) ++ ")"

/-- The first line of a function up to the opening brace. -/
def Function.header (f : Function ε α) : String :=
  "func " ++ f.name ++ "(" ++ commaSeparated (f.params.map Param.text) ++ ")"
    ++ resultsText f.results ++ " \x7b"

end Recast
