import Recast.Proofs.Types.Sites

/-!
# Sized types

Types without a size belong to constants only: variables, parameters and results have types that can
be written.
-/

namespace Recast

namespace BasicType

theorem isUntyped_of_ofKeyword? {text : String} {t : BasicType} (h : ofKeyword? text = some t) :
    t.isUntyped = false := by
  have hwritten : ∀ t ∈ written, t.isUntyped = false := by decide
  exact hwritten t (List.mem_of_find?_eq_some h)

@[simp] theorem isUntyped_default (t : BasicType) : t.default.isUntyped = false := by
  cases t <;> rfl

end BasicType

/-- A type that is known has a size. -/
def SizedType (type? : Option BasicType) : Prop := ∀ t, type? = some t → t.isUntyped = false

theorem TypeRef.sized (t : TypeRef String) : SizedType t.type? :=
  fun _ => BasicType.isUntyped_of_ofKeyword?

theorem SizedType.none : SizedType none := nofun

/-- All known types of a signature have sizes. -/
structure Signature.Sized (signature : Signature) : Prop where
  params : ∀ t? ∈ signature.params, SizedType t?
  results : ∀ t? ∈ signature.results, SizedType t?

theorem Signature.Sized.targets {signature : Signature} (h : signature.Sized) (n : Nat) :
    ∀ t? ∈ signature.targets n, SizedType t? := by
  intro t? ht
  unfold Signature.targets at ht
  split at ht
  · rename_i last _ hlast
    rcases List.mem_append.1 ht with ht | ht
    · exact h.params t? ht
    · rw [List.eq_of_mem_replicate ht]
      exact h.params last (List.mem_of_getLast? hlast)
  · exact h.params t? ht

section

variable {ε α : Type}

theorem Function.sized_signature (f : Function ε α) : f.signature.Sized where
  params := List.forall_mem_map.2 fun p _ => p.type.sized
  results := List.forall_mem_map.2 fun t _ => t.sized

theorem sized_signaturesOf {fs : List (Function ε α)} {name : String} {signature : Signature}
    (h : signaturesOf fs name = some signature) : signature.Sized := by
  obtain ⟨f, -, rfl⟩ := Option.map_eq_some_iff.1 h
  exact f.sized_signature

end

/-- All known types of a scope have sizes. -/
structure Scope.Sized (S : Scope) : Prop where
  locals : ∀ x t?, S.locals x = some t? → SizedType t?
  signatures : ∀ x signature, S.signatures x = some signature → signature.Sized

namespace Scope.Sized

variable {ε α : Type} {S : Scope}

theorem declare (h : S.Sized) (name : String) {type? : Option BasicType} (ht : SizedType type?) :
    (S.declare name type?).Sized where
  locals x t? hx := by
    rw [Scope.declare] at hx
    dsimp only at hx
    split at hx
    · cases hx
      exact ht
    · exact h.locals x t? hx
  signatures := h.signatures

theorem declareAll {declared? : Option (Option BasicType)}
    (hd : ∀ t? ∈ declared?, SizedType t?) (names : List String) :
    ∀ {S : Scope} (types : List (Option BasicType)), S.Sized →
      (S.declareAll declared? names types).Sized := by
  induction names with
  | nil => exact fun _ h => h
  | cons name names ih =>
    intro S types h
    refine ih _ (h.declare name fun t ht => ?_)
    cases declared? with
    | some type? => exact hd type? rfl t ht
    | none =>
      obtain ⟨u, -, rfl⟩ := Option.map_eq_some_iff.1 ht
      exact u.isUntyped_default

theorem declareParams {types : List (Option BasicType)} (ht : ∀ t? ∈ types, SizedType t?)
    (params : List (Param String)) (h : S.Sized) : (S.declareParams params types).Sized := by
  induction params generalizing S types with
  | nil => exact h
  | cons param params ih =>
    cases types with
    | nil => exact h
    | cons type? types =>
      refine ih (fun t? h => ht t? (List.mem_cons_of_mem _ h)) (h.declare _ ?_)
      split
      · exact .none
      · exact ht type? List.mem_cons_self

theorem scope (h : S.Sized) (s : Stmt ε α) : (s.scope S).Sized := by
  cases s with
  | var _ names type? values =>
    refine declareAll (fun t? ht => ?_) names _ h
    obtain ⟨t, -, rfl⟩ := Option.map_eq_some_iff.1 ht
    exact t.sized
  | _ => exact h

theorem foldl (body : List (Stmt ε α)) : ∀ {S : Scope}, S.Sized →
    (body.foldl Stmt.scope S).Sized := by
  induction body with
  | nil => exact fun h => h
  | cons s body ih => exact fun h => ih (h.scope s)

/-- The scope at a statement of a program. -/
theorem scopeAt {p : PlacedProgram} {f : PlacedFunction} {signature : Signature}
    (hs : signature.Sized) (before : List PlacedStmt) :
    (p.scopeAt f signature before).Sized := by
  refine foldl before (declareParams hs.params f.params ⟨nofun, fun x signature hx => ?_⟩)
  exact sized_signaturesOf hx

end Scope.Sized

/-- The target of an assignment has a type with a size. -/
theorem Scope.Sized.targetType? {ε α : Type} {S : Scope} (h : S.Sized) {e : Expr ε α} :
    SizedType (e.targetType? S) := by
  induction e using Expr.inductArgs with
  | name tag text => exact fun t ht => h.locals text (some t) (Option.join_eq_some_iff.1 ht) t rfl
  | paren _ _ ih => exact ih
  | _ => exact .none

/-- The signature of what is called has types with sizes. -/
theorem Scope.Sized.callee {ε α : Type} {S : Scope} (h : S.Sized) {e : Expr ε α}
    {signature : Signature} (hc : S.callee e = .function signature) : signature.Sized := by
  cases e with
  | name tag text =>
    simp only [Scope.callee, Scope.calleeNamed] at hc
    split at hc
    · cases hc
    · split at hc
      · cases hc
      · split at hc
        · rename_i hsig
          cases hc
          exact h.signatures text _ hsig
        · split at hc <;> cases hc
  | _ => cases hc

end Recast
