import Mathlib.Algebra.Ring.Nat
import Recast.Proofs.Printing.RoundTrip
import Recast.Proofs.Types.Growth
import Recast.Proofs.Types.Sites

/-!
# Conversions that may still be made

A bound on the number of conversions that passes of repairs can put into a program, one pass after
the other. A value is converted to the type that its place takes, and the conversion may be converted
once more if the checker has another type in mind; operands are balanced once. Nothing is ever done
about the call of a variable, which is what a conversion is where its type is the name of a variable.
-/

namespace Recast

variable {ε α δ β : Type}

/-! ### The bound -/

/-- The expression is a conversion to a type of a value that has the type already. -/
def Scope.repeats (S : Scope) (type : BasicType) : Expr ε α → Bool
  | .call _ callee [arg] =>
    (match S.callee callee with
      | .conversion target => target == type
      | _ => false) && arg.typeIn S == some type
  | _ => false

/-- How many conversions may be put around a value that stands where a type is wanted. -/
def Scope.pendingAt (S : Scope) (wanted? : Option BasicType) (e : Expr ε α) : Nat :=
  if S.callsVariable e then 0
  else match e.typeIn S, wanted? with
    | some type, some wanted => if type = wanted then (if S.repeats wanted e then 0 else 1) else 2
    | _, _ => 2

/-- How many conversions may be put around values of which the one at index `k` stands where the type
`wanted k` is wanted. -/
def Scope.pendingValues (S : Scope) (wanted : Nat → Option BasicType) : List (Expr ε α) → Nat
  | [] => 0
  | e :: es => S.pendingAt (wanted 0) e + S.pendingValues (fun k => wanted (k + 1)) es

/-- Nothing will be done about the operands. -/
def Scope.settled (S : Scope) (left right : Expr ε α) : Bool :=
  S.callsVariable left || S.callsVariable right || match left.typeIn S, right.typeIn S with
    | some l, some r => (l.unify? r).isSome
    | _, _ => false

/-- The types that are wanted of the arguments of a call. -/
def Signature.wantedAt (signature : Signature) (n k : Nat) : Option BasicType :=
  (signature.targets n)[k]?.join

/-- How many conversions may be put around the children of an expression. -/
def Expr.ownPending (S : Scope) : Expr ε α → Nat
  | .binary _ _ left right => if S.settled left right then 0 else 1
  | .call _ callee args =>
    match S.callee callee with
    | .function signature => S.pendingValues (signature.wantedAt args.length) args
    | _ => 0
  | _ => 0

/-- The types that are wanted of the values of a statement of a function that declares the result
types `own`. -/
def Stmt.wantedAt (S : Scope) (own : List (Option BasicType)) (s : Stmt ε α) (k : Nat) :
    Option BasicType :=
  match s with
  | .var _ _ type? _ => type?.bind TypeRef.type?
  | .assign _ targets _ => targets[k]?.bind (Expr.targetType? S)
  | .ret _ _ => own[k]?.join
  | _ => none

/-- How many conversions may be made in a statement. -/
def Stmt.pending (S : Scope) (own : List (Option BasicType)) (s : Stmt ε α) : Nat :=
  S.pendingValues (s.wantedAt S own) s.values
    + ((s.values.flatMap Expr.parts).map (Expr.ownPending S)).sum

/-- How many conversions may be made in statements that follow each other. -/
def Stmt.bodyPending (S : Scope) (own : List (Option BasicType)) : List (Stmt ε α) → Nat
  | [] => 0
  | s :: rest => s.pending S own + bodyPending (s.scope S) own rest

/-- How many conversions may be made in a function. -/
def Function.pending (signatures : String → Option Signature) (f : Function ε α) : Nat :=
  match signatures f.name with
  | none => 0
  | some signature => Stmt.bodyPending (f.scope signatures signature) f.signature.results f.body

/-- How many conversions may be made in functions. -/
def pendingFunctions (fs : List (Function ε α)) : Nat :=
  (fs.map (Function.pending (signaturesOf fs))).sum

/-- How many conversions may be made in a program. -/
def Program.pending (p : Program ε α) : Nat := pendingFunctions p.functions

theorem Scope.pendingAt_le (S : Scope) (wanted? : Option BasicType) (e : Expr ε α) :
    S.pendingAt wanted? e ≤ 2 := by
  unfold pendingAt
  repeat' split
  all_goals omega

/-! ### Tags do not matter -/

section Retag

variable {S : Scope} {f : α → β}

@[simp] theorem Scope.callee_retag (e : Expr ε α) : S.callee (e.retag f) = S.callee e := by
  cases e <;> rfl

@[simp] theorem Expr.typeIn_retag (e : Expr ε α) : (e.retag f).typeIn S = e.typeIn S := by
  induction e using Expr.inductArgs with
  | hole | name => rfl
  | literal _ kind => cases kind <;> rfl
  | paren _ _ ih => exact ih
  | neg _ _ ih => rw [retag, typeIn, typeIn, ih]
  | binary _ _ _ _ ihl ihr => rw [retag, typeIn, typeIn, ihl, ihr]
  | call _ _ args _ iha =>
    rw [retag, typeIn, typeIn, Scope.callee_retag, retagAll_eq, typesIn_eq, typesIn_eq,
      List.map_map]
    exact congrArg (Callee.typeOf? · _) (List.map_congr_left iha)

@[simp] theorem Expr.targetType?_retag (e : Expr ε α) :
    (e.retag f).targetType? S = e.targetType? S := by
  induction e using Expr.inductArgs with
  | paren _ _ ih => exact ih
  | _ => rfl

@[simp] theorem Scope.callsVariable_retag (e : Expr ε α) :
    S.callsVariable (e.retag f) = S.callsVariable e := by
  cases e with
  | call _ callee _ => cases callee <;> rfl
  | _ => rfl

@[simp] theorem Scope.repeats_retag (type : BasicType) (e : Expr ε α) :
    S.repeats type (e.retag f) = S.repeats type e := by
  cases e with
  | call _ _ args => rcases args with _ | ⟨arg, _ | ⟨arg', args⟩⟩ <;> simp [Expr.retag, repeats]
  | _ => rfl

@[simp] theorem Scope.pendingAt_retag (wanted? : Option BasicType) (e : Expr ε α) :
    S.pendingAt wanted? (e.retag f) = S.pendingAt wanted? e := by
  simp [pendingAt]

@[simp] theorem Scope.pendingValues_retag (wanted : Nat → Option BasicType)
    (es : List (Expr ε α)) :
    S.pendingValues wanted (es.map (Expr.retag f)) = S.pendingValues wanted es := by
  induction es generalizing wanted with
  | nil => rfl
  | cons e es ih => rw [List.map_cons, pendingValues, pendingValues, ih, pendingAt_retag]

@[simp] theorem Expr.ownPending_retag (e : Expr ε α) :
    (e.retag f).ownPending S = e.ownPending S := by
  cases e <;> simp [retag, ownPending, Scope.settled]

end Retag

section Bare

variable {S : Scope} {own : List (Option BasicType)}

@[simp] theorem TypeRef.type?_bare (t : TypeRef String) : t.bare.type? = t.type? := rfl

@[simp] theorem Stmt.values_bare (s : Stmt ε α) : s.bare.values = s.values.map Expr.bare := by
  cases s <;> simp [Stmt.bare, Stmt.values]

@[simp] theorem Stmt.wantedAt_bare (s : Stmt ε α) : s.bare.wantedAt S own = s.wantedAt S own := by
  funext k
  cases s with
  | var _ _ type? _ => cases type? <;> rfl
  | assign _ targets _ => cases h : targets[k]? <;> simp [Stmt.bare, wantedAt, h]
  | _ => rfl

@[simp] theorem Stmt.scope_bare (s : Stmt ε α) : s.bare.scope S = s.scope S := by
  cases s with
  | var _ _ type? _ => cases type? <;> simp [Stmt.bare, scope, Function.comp_def]
  | _ => rfl

@[simp] theorem Stmt.pending_bare (s : Stmt ε α) : s.bare.pending S own = s.pending S own := by
  simp [pending, List.flatMap_map, Expr.parts_retag, List.map_flatMap, Function.comp_def]

theorem Stmt.bodyPending_bare (body : List (Stmt ε α)) : ∀ S : Scope,
    bodyPending S own (body.map Stmt.bare) = bodyPending S own body := by
  induction body with
  | nil => exact fun _ => rfl
  | cons s body ih =>
    intro S
    rw [List.map_cons, bodyPending, bodyPending, ih, pending_bare, scope_bare]

@[simp] theorem Function.signature_bare (f : Function ε α) : f.bare.signature = f.signature := by
  have hlast : (f.params.map Param.bare).getLast?.any Param.variadic
      = f.params.getLast?.any Param.variadic := by
    rw [List.getLast?_map]
    cases f.params.getLast? <;> rfl
  simp only [signature, bare, List.map_map, hlast]
  rfl

theorem signaturesOf_bare (fs : List (Function ε α)) :
    signaturesOf (fs.map Function.bare) = signaturesOf fs := by
  funext name
  rw [signaturesOf, signaturesOf, ← List.map_reverse, List.find?_map, Option.map_map]
  congr 1
  funext f
  exact f.signature_bare

theorem Scope.declareParams_bare (params : List (Param String)) (types : List (Option BasicType)) :
    S.declareParams (params.map Param.bare) types = S.declareParams params types := by
  rw [declareParams, declareParams, List.zip_map_left, List.foldl_map]
  rfl

theorem Function.pending_bare (signatures : String → Option Signature) (f : Function ε α) :
    f.bare.pending signatures = f.pending signatures := by
  have hscope (signature : Signature) : f.bare.scope signatures signature
      = f.scope signatures signature := Scope.declareParams_bare _ _
  unfold pending
  rw [f.signature_bare]
  show (match signatures f.name with | none => _ | some signature => _) = _
  cases signatures f.name with
  | none => rfl
  | some signature =>
    dsimp only
    rw [hscope]
    exact Stmt.bodyPending_bare f.body _

theorem pendingFunctions_bare (fs : List (Function ε α)) :
    pendingFunctions (fs.map Function.bare) = pendingFunctions fs := by
  rw [pendingFunctions, pendingFunctions, signaturesOf_bare, List.map_map]
  congr 1
  exact List.map_congr_left fun f _ => f.pending_bare _

/-- Programs with the same code have the same conversions before them. -/
theorem Program.SameText.pending_eq {p : Program ε α} {q : Program δ β} (h : p.SameText q) :
    p.pending = q.pending := by
  calc
    p.pending = pendingFunctions (p.functions.map Function.bare) :=
      (pendingFunctions_bare p.functions).symm
    _ = pendingFunctions (q.functions.map Function.bare) := by rw [h.functions]
    _ = q.pending := pendingFunctions_bare q.functions

end Bare

end Recast
