import Mathlib.Data.List.Basic
import Recast.ParseError

/-!
# The grammar of token sequences

Which sequences of token kinds are a file, given by the rules of the language alone: there are no
trees here and no way to read. A rule that stands for a repetition counts its items.

Newlines and semicolons stand between functions and between statements; the closing brace of a block
also ends a statement. Newlines may stand after a binary operator, after a comma between expressions
and around the arguments of a call, and a comma may follow the last argument. Which operands an
operator takes makes no difference to the sequence, so there is one rule for all binary operators.
-/

namespace Recast

namespace Grammar

/-- What the grammar is about: the kinds of the tokens of a text. -/
abbrev Word := List TokenKind

/-- Any number of newlines. -/
def Newlines (w : Word) : Prop := ∀ kind ∈ w, kind = .newline

/-- What stands between statements and between functions. -/
def Terminator (kind : TokenKind) : Prop := kind = .newline ∨ kind = .semicolon

/-- Any number of terminators. -/
def Terminators (w : Word) : Prop := ∀ kind ∈ w, Terminator kind

/-- `item { "," item }` with a gap after each comma; the number is that of the items. -/
inductive Separated (gap item : Word → Prop) : Nat → Word → Prop
  | one {w : Word} : item w → Separated gap item 1 w
  | cons {n : Nat} {w between ws : Word} :
      item w → gap between → Separated gap item n ws →
        Separated gap item (n + 1) (w ++ .comma :: between ++ ws)

/-- The empty gap. -/
def NoGap (w : Word) : Prop := w = []

/-- `IDENT`; types are written so as well. -/
def Identifier (w : Word) : Prop := w = [.ident]

/-- `IDENT { "," IDENT }` -/
def Identifiers : Nat → Word → Prop := Separated NoGap Identifier

/-! ### Expressions -/

mutual

/-- `primary := INT | FLOAT | IDENT | "(" expr ")"` -/
inductive Primary : Word → Prop
  | literal {kind : LiteralKind} : Primary [.literal kind]
  | ident : Primary [.ident]
  | paren {w : Word} : Expression w → Primary (.leftParen :: w ++ [.rightParen])

/-- `postfix := primary { "(" [ exprs ] ")" }` -/
inductive Postfix : Word → Prop
  | primary {w : Word} : Primary w → Postfix w
  | call {n : Nat} {w newlines args : Word} :
      Postfix w → Newlines newlines → Arguments n args →
        Postfix (w ++ .leftParen :: newlines ++ args ++ [.rightParen])

/-- `unary := "-" unary | postfix` -/
inductive Unary : Word → Prop
  | neg {w : Word} : Unary w → Unary (.op .sub :: w)
  | operand {w : Word} : Postfix w → Unary w

/-- `expr`, operands with binary operators between. -/
inductive Expression : Word → Prop
  | unary {w : Word} : Unary w → Expression w
  | binary {op : BinaryOp} {left newlines right : Word} :
      Expression left → Newlines newlines → Expression right →
        Expression (left ++ .op op :: newlines ++ right)

/-- `[ exprs [ "," ] ]` as the arguments of a call, from the first argument on. -/
inductive Arguments : Nat → Word → Prop
  | none : Arguments 0 []
  | last {w newlines : Word} : Expression w → Newlines newlines → Arguments 1 (w ++ newlines)
  | cons {n : Nat} {w before after args : Word} :
      Expression w → Newlines before → Newlines after → Arguments n args →
        Arguments (n + 1) (w ++ before ++ .comma :: after ++ args)

end

/-- `exprs := expr { "," expr }` -/
def Expressions : Nat → Word → Prop := Separated Newlines Expression

/-! ### Statements and functions -/

section

variable (bare : Bool)

/-- `[ "=" exprs ]` -/
inductive Values : Word → Prop
  | none : Values []
  | some {n : Nat} {w : Word} : Expressions n w → Values (.assign :: w)

/-- `stmt`; `bare` says whether a declaration may have neither a type nor values. -/
inductive Statement : Word → Prop
  | declaration {n : Nat} {names type values : Word} :
      Identifiers n names → (type = [] ∨ Identifier type) → Values values →
        (bare ∨ type ≠ [] ∨ values ≠ []) → Statement (.var :: names ++ type ++ values)
  | done : Statement [.ret]
  | ret {n : Nat} {w : Word} : Expressions n w → Statement (.ret :: w)
  | assignment {m n : Nat} {targets values : Word} :
      Expressions m targets → Expressions n values → Statement (targets ++ .assign :: values)
  | expression {w : Word} : Expression w → Statement w

/-- The statements between the braces of a block. -/
inductive Body : Nat → Word → Prop
  | none {gap : Word} : Terminators gap → Body 0 gap
  | last {gap w : Word} : Terminators gap → Statement bare w → Body 1 (gap ++ w)
  | cons {n : Nat} {gap w rest : Word} {kind : TokenKind} :
      Terminators gap → Statement bare w → Terminator kind → Body n rest →
        Body (n + 1) (gap ++ w ++ kind :: rest)

/-- `param := IDENT [ "..." ] TYPE` -/
inductive Parameter : Word → Prop
  | single : Parameter [.ident, .ident]
  | variadic : Parameter [.ident, .ellipsis, .ident]

/-- `[ param { "," param } ]` -/
inductive Parameters : Word → Prop
  | none : Parameters []
  | some {n : Nat} {w : Word} : Separated NoGap Parameter n w → Parameters w

/-- `[ TYPE | "(" TYPE { "," TYPE } ")" ]` -/
inductive Results : Word → Prop
  | none : Results []
  | one : Results [.ident]
  | many {n : Nat} {w : Word} : Identifiers n w → Results (.leftParen :: w ++ [.rightParen])

/-- `func := "func" IDENT "(" [ param { "," param } ] ")" [ results ] block` -/
inductive Func : Word → Prop
  | mk {n : Nat} {params results body : Word} :
      Parameters params → Results results → Body bare n body →
        Func (.func :: .ident :: .leftParen :: params ++ .rightParen :: results
          ++ .leftBrace :: body ++ [.rightBrace])

/-- `file := { func }` -/
inductive File : Word → Prop
  | none {gap : Word} : Terminators gap → File gap
  | cons {gap w rest : Word} :
      Terminators gap → Func bare w → File rest → File (gap ++ w ++ rest)

/-- A list of more items than a program may have: names or types, expressions, arguments, parameters,
or the statements of a block. -/
inductive LongList : Word → Prop
  | identifiers {n : Nat} {w : Word} : Identifiers n w → maxItems < n → LongList w
  | expressions {n : Nat} {w : Word} : Expressions n w → maxItems < n → LongList w
  | arguments {n : Nat} {w : Word} : Arguments n w → maxItems < n → LongList w
  | parameters {n : Nat} {w : Word} : Separated NoGap Parameter n w → maxItems < n → LongList w
  | block {n : Nat} {w : Word} :
      Body bare n w → maxItems < n → LongList (.leftBrace :: w ++ [.rightBrace])

/-- Some file starts so. -/
def Viable (w : Word) : Prop := ∃ more, File bare (w ++ more)

end

/-! ### Longer words -/

theorem Separated.snoc {gap item : Word → Prop} {n : Nat} {ws between w : Word}
    (h : Separated gap item n ws) (hb : gap between) (hw : item w) :
    Separated gap item (n + 1) (ws ++ .comma :: between ++ w) := by
  induction h with
  | one hx => exact .cons hx hb (.one hw)
  | cons hx hb' _ ih => simpa using Separated.cons hx hb' ih

/-- A minus sign negates the first operand of an expression. -/
theorem Expression.neg {w : Word} : Expression w → Expression (.op .sub :: w)
  | .unary h => .unary (.neg h)
  | .binary hl hn hr => .binary hl.neg hn hr

theorem Unary.call {w newlines args : Word} {n : Nat} (hn : Newlines newlines)
    (ha : Arguments n args) :
    Unary w → Unary (w ++ .leftParen :: newlines ++ args ++ [.rightParen])
  | .neg h => .neg (h.call hn ha)
  | .operand h => .operand (.call h hn ha)

/-- Arguments after an expression are those of its last operand. -/
theorem Expression.call {w newlines args : Word} {n : Nat} (hn : Newlines newlines)
    (ha : Arguments n args) :
    Expression w → Expression (w ++ .leftParen :: newlines ++ args ++ [.rightParen])
  | .unary h => .unary (h.call hn ha)
  | .binary hl hn' hr => by simpa using Expression.binary hl hn' (hr.call hn ha)

/-! ### Lengths -/

theorem Primary.ne_nil {w : Word} (h : Primary w) : w ≠ [] := by
  cases h <;> simp

theorem Postfix.ne_nil {w : Word} (h : Postfix w) : w ≠ [] := by
  cases h with
  | primary h => exact h.ne_nil
  | call => simp

theorem Unary.ne_nil {w : Word} (h : Unary w) : w ≠ [] := by
  cases h with
  | neg => simp
  | operand h => exact h.ne_nil

theorem Expression.ne_nil {w : Word} (h : Expression w) : w ≠ [] := by
  cases h with
  | unary h => exact h.ne_nil
  | binary => simp

theorem Separated.le_length {gap item : Word → Prop} (hne : ∀ {w}, item w → w ≠ []) {n : Nat}
    {w : Word} (h : Separated gap item n w) : n ≤ w.length := by
  induction h with
  | one hw => exact List.length_pos_iff.2 (hne hw)
  | cons _ _ _ ih =>
    simp only [List.length_append, List.length_cons]
    omega

theorem Arguments.le_length : ∀ {n : Nat} {w : Word}, Arguments n w → n ≤ w.length
  | _, _, .none => Nat.le_refl 0
  | _, _, .last hw _ => by
    have := List.length_pos_iff.2 hw.ne_nil
    simp only [List.length_append]
    omega
  | _, _, .cons _ _ _ h => by
    have := h.le_length
    simp only [List.length_append, List.length_cons]
    omega

theorem Expressions.ne_nil {n : Nat} {w : Word} (h : Expressions n w) : w ≠ [] := by
  cases h with
  | one h => exact h.ne_nil
  | cons => simp

theorem Statement.ne_nil {bare : Bool} {w : Word} (h : Statement bare w) : w ≠ [] := by
  cases h with
  | expression h => exact h.ne_nil
  | _ => simp

theorem Body.le_length {bare : Bool} {n : Nat} {w : Word} (h : Body bare n w) : n ≤ w.length := by
  induction h with
  | none => exact Nat.zero_le _
  | last _ hw =>
    have := List.length_pos_iff.2 hw.ne_nil
    simp only [List.length_append]
    omega
  | cons _ _ _ _ ih =>
    simp only [List.length_append, List.length_cons]
    omega

/-- Short words are no long lists. -/
theorem LongList.lt_length {bare : Bool} {w : Word} (h : LongList bare w) :
    maxItems < w.length := by
  cases h with
  | identifiers h hn =>
    exact Nat.lt_of_lt_of_le hn (h.le_length fun h => by cases h; simp)
  | expressions h hn => exact Nat.lt_of_lt_of_le hn (h.le_length Expression.ne_nil)
  | arguments h hn => exact Nat.lt_of_lt_of_le hn h.le_length
  | parameters h hn => exact Nat.lt_of_lt_of_le hn (h.le_length fun h => by cases h <;> simp)
  | block h hn =>
    have := h.le_length
    simp only [List.length_cons, List.length_append]
    omega

end Grammar

end Recast
