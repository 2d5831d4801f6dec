import Recast.Proofs.Types.Remarks

/-!
# Typing rules

The rules that make a program well typed, apart from any way to check them. `HasType` gives types to
expressions; an expression may be well typed and have no type, such as a call of a function without
results, and nothing is asked of types that are not there. `WellTyped` is the judgement for each
sort of tree. Statements are judged in the scope that the statements before them leave.

Nothing is asked of missing parts; a program that was read from a text has none.
-/

namespace Recast

variable {ε α : Type}

/-! ### What names mean -/

namespace Scope

/-- The name denotes a basic type: it is no variable, and it is the name of the type. -/
structure NamesType (S : Scope) (text : String) (target : BasicType) : Prop where
  notLocal : S.locals text = none
  keyword : BasicType.ofKeyword? text = some target

/-- The name denotes a function: it is neither a variable nor a type, and it is declared. -/
structure NamesFunction (S : Scope) (text : String) (signature : Signature) : Prop where
  notLocal : S.locals text = none
  notKeyword : BasicType.ofKeyword? text = none
  declared : S.signatures text = some signature

/-- The name denotes the function that prints: it is `println` and not declared as anything. -/
structure NamesPrintln (S : Scope) (text : String) : Prop where
  notLocal : S.locals text = none
  notDeclared : S.signatures text = none
  text : text = "println"

end Scope

/-! ### Expressions -/

namespace Expr

/-- In a scope the expression has the type. -/
inductive HasType (S : Scope) : Expr ε α → BasicType → Prop
  | int {tag : α} {lexeme : String} : HasType S (.literal tag .int lexeme) .untypedInt
  | float {tag : α} {lexeme : String} : HasType S (.literal tag .float lexeme) .untypedFloat
  | variable {tag : α} {text : String} {type : BasicType} :
      S.locals text = some (some type) → HasType S (.name tag text) type
  | paren {tag : α} {inner : Expr ε α} {type : BasicType} :
      HasType S inner type → HasType S (.paren tag inner) type
  | neg {tag : α} {operand : Expr ε α} {type : BasicType} :
      HasType S operand type → type.isNumeric → HasType S (.neg tag operand) type
  | arithmetic {tag : α} {op : BinaryOp} {left right : Expr ε α} {l r type : BasicType} :
      HasType S left l → HasType S right r → l.unify? r = some type → op.isDefinedOn type →
        op.isComparison = false → HasType S (.binary tag op left right) type
  | comparison {tag : α} {op : BinaryOp} {left right : Expr ε α} {l r type : BasicType} :
      HasType S left l → HasType S right r → l.unify? r = some type → op.isDefinedOn type →
        op.isComparison = true → HasType S (.binary tag op left right) .untypedBool
  | conversion {tag tag' : α} {text : String} {arg : Expr ε α} {type target : BasicType} :
      S.NamesType text target → HasType S arg type → type.convertibleTo target →
        HasType S (.call tag (.name tag' text) [arg]) target
  | call {tag tag' : α} {text : String} {args : List (Expr ε α)} {signature : Signature}
      {type : BasicType} :
      S.NamesFunction text signature → signature.results = [some type] →
        HasType S (.call tag (.name tag' text) args) type

/-- The expression may be stored in a place of the type `target`: if it has a type, that type is
assignable. -/
def Fits (S : Scope) (e : Expr ε α) (target : BasicType) : Prop :=
  ∀ type, e.HasType S type → type.assignableTo target

end Expr

/-- A function can be called with `n` arguments: as many as it has parameters, or, if the last
parameter is variadic, at least as many as the other ones. -/
def Signature.Takes (s : Signature) (n : Nat) : Prop :=
  if s.variadic then s.params.length ≤ n + 1 else n = s.params.length

/-- In a scope the expression is well typed. -/
inductive Expr.WellTyped (S : Scope) : Expr ε α → Prop
  | hole {label : ε} : WellTyped S (.hole label)
  | literal {tag : α} {kind : LiteralKind} {lexeme : String} :
      WellTyped S (.literal tag kind lexeme)
  | variable {tag : α} {text : String} {type? : Option BasicType} :
      S.locals text = some type? → WellTyped S (.name tag text)
  | paren {tag : α} {inner : Expr ε α} : WellTyped S inner → WellTyped S (.paren tag inner)
  | neg {tag : α} {operand : Expr ε α} :
      WellTyped S operand → (∀ type, operand.HasType S type → type.isNumeric) →
        WellTyped S (.neg tag operand)
  | binary {tag : α} {op : BinaryOp} {left right : Expr ε α} :
      WellTyped S left → WellTyped S right →
        (∀ l r, left.HasType S l → right.HasType S r →
          ∃ type, l.unify? r = some type ∧ op.isDefinedOn type) →
          WellTyped S (.binary tag op left right)
  | conversion {tag tag' : α} {text : String} {arg : Expr ε α} {target : BasicType} :
      S.NamesType text target → WellTyped S arg →
        (∀ type, arg.HasType S type → type.convertibleTo target) →
          WellTyped S (.call tag (.name tag' text) [arg])
  | call {tag tag' : α} {text : String} {args : List (Expr ε α)} {signature : Signature} :
      S.NamesFunction text signature → (∀ arg ∈ args, WellTyped S arg) →
        signature.Takes args.length →
          (∀ (i : Nat) (arg : Expr ε α) (target : BasicType), args[i]? = some arg →
            signature.param? i = some (some target) → arg.Fits S target) →
            WellTyped S (.call tag (.name tag' text) args)
  | println {tag tag' : α} {text : String} {args : List (Expr ε α)} :
      S.NamesPrintln text → (∀ arg ∈ args, WellTyped S arg) →
        WellTyped S (.call tag (.name tag' text) args)

/-! ### Statements -/

/-- The expression is a variable, perhaps in parentheses, and this is its type, if that is known. -/
inductive Expr.IsVariable (S : Scope) : Expr ε α → Option BasicType → Prop
  | name {tag : α} {text : String} {type? : Option BasicType} :
      S.locals text = some type? → IsVariable S (.name tag text) type?
  | paren {tag : α} {inner : Expr ε α} {type? : Option BasicType} :
      IsVariable S inner type? → IsVariable S (.paren tag inner) type?

/-- The type of variable number `i` of a declaration: the declared one, or else the default type of
the variable's value. -/
def Scope.GivesType (S : Scope) (type? : Option (TypeRef String)) (values : List (Expr ε α))
    (i : Nat) (type : BasicType) : Prop :=
  match type? with
  | some written => written.type? = some type
  | none => ∃ value t, values[i]? = some value ∧ value.HasType S t ∧ type = t.default

/-- One scope is another one with the variables of a declaration. -/
structure Scope.Declares (S : Scope) (names : List String) (type? : Option (TypeRef String))
    (values : List (Expr ε α)) (S' : Scope) : Prop where
  signatures : S'.signatures = S.signatures
  others : ∀ x, x ∉ names → S'.locals x = S.locals x
  added : ∀ i x, names[i]? = some x →
    ∃ t?, S'.locals x = some t? ∧ ∀ t, t? = some t ↔ S.GivesType type? values i t

/-- In a scope the statement of a function with these results is well typed, and it leaves the last
scope. -/
inductive Stmt.WellTyped (S : Scope) (results : List (Option BasicType)) :
    Stmt ε α → Scope → Prop
  | hole {label : ε} : WellTyped S results (.hole label) S
  | declaration {tag : α} {names : List String} {type? : Option (TypeRef String)}
      {values : List (Expr ε α)} {S' : Scope} :
      (∀ written ∈ type?, written.type?.isSome) → (∀ value ∈ values, value.WellTyped S) →
        (values ≠ [] → values.length = names.length) →
          (∀ written ∈ type?, ∀ target, written.type? = some target →
            ∀ value ∈ values, value.Fits S target) →
            names.Nodup → (∀ x ∈ names, S.locals x = none) → S.Declares names type? values S' →
              WellTyped S results (.var tag names type? values) S'
  | assignment {tag : α} {targets values : List (Expr ε α)} :
      (∀ target ∈ targets, ∃ type?, target.IsVariable S type?) →
        (∀ value ∈ values, value.WellTyped S) → targets.length = values.length →
          (∀ (i : Nat) (target value : Expr ε α) (type : BasicType), targets[i]? = some target →
            values[i]? = some value → target.IsVariable S (some type) → value.Fits S type) →
            WellTyped S results (.assign tag targets values) S
  | ret {tag : α} {values : List (Expr ε α)} :
      (∀ value ∈ values, value.WellTyped S) → values.length = results.length →
        (∀ (i : Nat) (value : Expr ε α) (target : BasicType), values[i]? = some value →
          results[i]? = some (some target) → value.Fits S target) →
          WellTyped S results (.ret tag values) S
  | expr {tag : α} {e : Expr ε α} : e.WellTyped S → e.isCall → WellTyped S results (.expr tag e) S

/-- In a scope the statements are well typed, each one in the scope that the one before leaves. -/
inductive Stmt.BodyWellTyped (results : List (Option BasicType)) : Scope → List (Stmt ε α) → Prop
  | nil {S : Scope} : BodyWellTyped results S []
  | cons {S S' : Scope} {s : Stmt ε α} {rest : List (Stmt ε α)} :
      s.WellTyped S results S' → BodyWellTyped results S' rest →
        BodyWellTyped results S (s :: rest)

/-! ### Programs -/

/-- The scope at the start of a function's body. Of two parameters with one name the later one
counts, and a variadic parameter is a list and has no type. -/
def Function.entry (signatures : String → Option Signature) (f : Function ε α) : Scope where
  locals x := (f.params.reverse.find? (·.name == x)).map fun p =>
    if p.variadic then none else p.type.type?
  signatures := signatures

/-- The signature that a program declares under a name. -/
def Program.signature? (p : Program ε α) (name : String) : Option Signature :=
  (p.functions.find? (·.name == name)).map Function.signature

/-- The program is well typed. -/
structure Program.WellTyped (p : Program ε α) : Prop where
  /-- The types in the heads of functions are basic types. -/
  params : ∀ f ∈ p.functions, ∀ param ∈ f.params, param.type.type?.isSome
  results : ∀ f ∈ p.functions, ∀ result ∈ f.results, result.type?.isSome
  /-- No function is declared twice. -/
  distinct : (p.functions.map Function.name).Nodup
  bodies : ∀ f ∈ p.functions,
    Stmt.BodyWellTyped (f.results.map TypeRef.type?) (f.entry p.signature?) f.body

/-! ### Types are unique -/

namespace Scope

variable {S : Scope} {text : String} {target : BasicType} {signature : Signature}

theorem NamesType.calleeNamed (h : S.NamesType text target) :
    S.calleeNamed text = .conversion target := by
  simp only [Scope.calleeNamed, h.notLocal, h.keyword]

theorem NamesFunction.calleeNamed (h : S.NamesFunction text signature) :
    S.calleeNamed text = .function signature := by
  simp only [Scope.calleeNamed, h.notLocal, h.notKeyword, h.declared]

theorem NamesPrintln.calleeNamed (h : S.NamesPrintln text) : S.calleeNamed text = .println := by
  have hkeyword : BasicType.ofKeyword? "println" = none := by decide
  obtain ⟨hl, hd, rfl⟩ := h
  simp only [Scope.calleeNamed, hl, hkeyword, hd, if_true]

theorem namesType_of_calleeNamed (h : S.calleeNamed text = .conversion target) :
    S.NamesType text target := by
  cases refers_of_calleeNamed h with
  | conversion notLocal keyword => exact ⟨notLocal, keyword⟩

theorem namesFunction_of_calleeNamed (h : S.calleeNamed text = .function signature) :
    S.NamesFunction text signature := by
  cases refers_of_calleeNamed h with
  | function notLocal notKeyword declared => exact ⟨notLocal, notKeyword, declared⟩

theorem namesPrintln_of_calleeNamed (h : S.calleeNamed text = .println) : S.NamesPrintln text := by
  cases refers_of_calleeNamed h with
  | println notLocal notDeclared isPrintln => exact ⟨notLocal, notDeclared, isPrintln⟩

end Scope

namespace Expr

variable {S : Scope} {e : Expr ε α} {type : BasicType}

theorem HasType.typeIn_eq (h : e.HasType S type) : e.typeIn S = some type := by
  induction h with
  | int | float => rfl
  | «variable» hl => rw [typeIn, hl, Option.join_some]
  | paren _ ih => exact ih
  | neg _ hn ih =>
    rw [typeIn, ih]
    simp [hn]
  | arithmetic _ _ hu hd hc ihl ihr =>
    exact BinaryOp.typeOf?_eq_some.2 ⟨_, _, _, ihl, ihr, hu, hd, by simp [hc]⟩
  | comparison _ _ hu hd hc ihl ihr =>
    exact BinaryOp.typeOf?_eq_some.2 ⟨_, _, _, ihl, ihr, hu, hd, by simp [hc]⟩
  | conversion hn _ hc ih =>
    rw [typeIn, Scope.callee, hn.calleeNamed, typesIn_eq, List.map_singleton, ih]
    exact BasicType.converted?_eq_some.2 ⟨_, rfl, hc, rfl⟩
  | call hn hr =>
    rw [typeIn, Scope.callee, hn.calleeNamed]
    simp [Callee.typeOf?, Signature.value?, hr]

end Expr

end Recast
