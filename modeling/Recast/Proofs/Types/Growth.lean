import Mathlib.Data.List.Forall2
import Recast.Proofs.Types.Remarks

/-!
# Scopes that know more types

One scope grows into another one when both have the same names and the second one knows every type
that the first one knows. Names with no type may get one.
-/

namespace Recast

/-- A type that is known stays known. -/
def TypeGrows (type? type?' : Option BasicType) : Prop := ∀ t, type? = some t → type?' = some t

theorem TypeGrows.refl (type? : Option BasicType) : TypeGrows type? type? := fun _ h => h

theorem TypeGrows.map {type? type?' : Option BasicType} (h : TypeGrows type? type?')
    (f : BasicType → BasicType) : TypeGrows (type?.map f) (type?'.map f) := by
  intro t ht
  obtain ⟨u, hu, rfl⟩ := Option.map_eq_some_iff.1 ht
  rw [h u hu]
  rfl

/-- The second scope has the names of the first one and knows at least as much about them. -/
structure Scope.Grows (S S' : Scope) : Prop where
  signatures : S'.signatures = S.signatures
  declared : ∀ x, (S'.locals x).isSome = (S.locals x).isSome
  typed : ∀ x, TypeGrows (S.locals x).join (S'.locals x).join

namespace Scope.Grows

variable {ε α : Type} {S S' : Scope}

theorem refl (S : Scope) : S.Grows S := ⟨rfl, fun _ => rfl, fun _ => .refl _⟩

theorem declare (h : S.Grows S') (name : String) {type? type?' : Option BasicType}
    (ht : TypeGrows type? type?') : (S.declare name type?).Grows (S'.declare name type?') where
  signatures := h.signatures
  declared x := by
    simp only [Scope.declare]
    split
    · rfl
    · exact h.declared x
  typed x := by
    simp only [Scope.declare]
    split
    · exact ht
    · exact h.typed x

theorem declareAll (h : S.Grows S') {declared? : Option (Option BasicType)} (names : List String)
    {types types' : List (Option BasicType)}
    (ht : declared? = none → List.Forall₂ TypeGrows types types') :
    (S.declareAll declared? names types).Grows (S'.declareAll declared? names types') := by
  induction names generalizing S S' types types' with
  | nil => exact h
  | cons name names ih =>
    cases declared? with
    | some type? => exact ih (h.declare name (.refl _)) nofun
    | none =>
      cases ht rfl with
      | nil => exact ih (h.declare name (.refl _)) fun _ => .nil
      | cons hfirst hrest => exact ih (h.declare name (hfirst.map BasicType.default)) fun _ => hrest

/-- A callee that is no variable stays what it is. -/
theorem calleeNamed_eq (h : S.Grows S') {text : String} (hx : S.locals text = none) :
    S'.calleeNamed text = S.calleeNamed text := by
  have hx' : S'.locals text = none := by
    have := h.declared text
    rw [hx] at this
    exact Option.isNone_iff_eq_none.1 (by simpa using this)
  rw [calleeNamed, calleeNamed, hx, hx', h.signatures]

theorem isSome_locals (h : S.Grows S') {text : String} (hx : (S.locals text).isSome) :
    (S'.locals text).isSome := by
  rw [h.declared]
  exact hx

end Scope.Grows

/-! ### Variables that are called -/

/-- The expression is a call of a variable. -/
def Scope.callsVariable {ε α : Type} (S : Scope) : Expr ε α → Bool
  | .call _ (.name _ text) _ => (S.locals text).isSome
  | _ => false

theorem Scope.calleeNamed_of_isSome {S : Scope} {text : String} (h : (S.locals text).isSome) :
    ∃ type?, S.calleeNamed text = .variable type? := by
  obtain ⟨type?, hx⟩ := Option.isSome_iff_exists.1 h
  exact ⟨type?, by rw [calleeNamed, hx]⟩

/-- A call of a variable has no type. -/
theorem Scope.typeIn_of_callsVariable {ε α : Type} {S : Scope} {e : Expr ε α}
    (h : S.callsVariable e = true) : e.typeIn S = none := by
  unfold callsVariable at h
  split at h
  · rename_i tag tag' text args
    obtain ⟨type?, hc⟩ := calleeNamed_of_isSome h
    rw [Expr.typeIn, callee, hc]
    rfl
  · cases h

end Recast
