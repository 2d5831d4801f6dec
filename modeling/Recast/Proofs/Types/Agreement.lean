import Recast.Proofs.Types.Bodies
import Recast.Proofs.Types.Sites

/-!
# Queries agree with the check

After the check the type of an expression is worked out from what was recorded about the names in
it. At the place where the expression stands that is its type in the scope of the statement.
-/

namespace Recast

variable {ε : Type}

/-- What was recorded about the names in an expression is what they mean in a scope. -/
structure TypeInfo.Knows (info : TypeInfo) (S : Scope) (e : Expr ε Placed) : Prop where
  names : ∀ n ∈ e.names, info.bindings[n.1.id]? = S.locals n.2
  signatures : ∀ x, info.signatures[x]? = S.signatures x

namespace TypeInfo.Knows

variable {info : TypeInfo} {S : Scope} {e : Expr ε Placed}

theorem child {child : Expr ε Placed} (h : info.Knows S e) (hc : child ∈ e.children) : info.Knows S child where
  names n hn := h.names n (by
    rw [Expr.names_eq]
    exact List.mem_append_right _ (List.mem_flatMap.2 ⟨child, hc, hn⟩))
  signatures := h.signatures

theorem part {part : Expr ε Placed} (h : info.Knows S e) (hp : part ∈ e.parts) :
    info.Knows S part :=
  Expr.forall_parts (fun _ h _ hc => h.child hc) h hp

theorem name {tag : Placed} {text : String} (h : info.Knows S (.name tag text : Expr ε Placed)) :
    info.bindings[tag.id]? = S.locals text :=
  h.names (tag, text) (Expr.mem_names.2 (Expr.self_mem_parts _))

theorem calleeNamed_eq {tag : Placed} {text : String}
    (h : info.Knows S (.name tag text : Expr ε Placed)) :
    info.calleeNamed tag.id text = S.calleeNamed text :=
  TypeInfo.calleeNamed_eq_of h.name (h.signatures text)

theorem callee_eq (h : info.Knows S e) : info.callee e = S.callee e := by
  cases e with
  | name => exact h.calleeNamed_eq
  | _ => rfl

end TypeInfo.Knows

/-- The type of a call, by its callee and the types of its arguments. -/
theorem TypeInfo.typeOf_call (info : TypeInfo) (tag : Placed) (callee : Expr ε Placed)
    (args : List (Expr ε Placed)) : info.typeOf (.call tag callee args)
      = (info.callee callee).typeOf? (args.map info.typeOf) := by
  rcases args with _ | ⟨a, _ | ⟨b, args⟩⟩
  · rw [typeOf]
    · cases info.callee callee <;> rfl
    · simp
  · rw [typeOf]
    cases info.callee callee with
    | conversion target =>
      simp only [Callee.typeOf?, BasicType.converted?, List.map_cons, List.map_nil]
      cases info.typeOf a <;> rfl
    | _ => rfl
  · rw [typeOf]
    · cases info.callee callee <;> simp [Callee.typeOf?, BasicType.converted?]
    · simp

/-- The type of an expression after the check is its type in the scope that the check knew. -/
theorem TypeInfo.Knows.typeOf_eq {info : TypeInfo} {S : Scope} {e : Expr ε Placed}
    (h : info.Knows S e) : info.typeOf e = e.typeIn S := by
  induction e using Expr.inductArgs with
  | hole => rfl
  | literal _ kind => cases kind <;> rfl
  | name =>
    rw [TypeInfo.typeOf, Expr.typeIn, h.name]
  | paren _ _ ih => exact ih (h.child (by simp [Expr.children]))
  | neg _ _ ih => rw [TypeInfo.typeOf, Expr.typeIn, ih (h.child (by simp [Expr.children]))]
  | binary _ _ _ _ ihl ihr =>
    rw [TypeInfo.typeOf, Expr.typeIn, ihl (h.child (by simp [Expr.children])),
      ihr (h.child (by simp [Expr.children]))]
    rfl
  | call tag callee args _ iha =>
    have hargs : args.map info.typeOf = args.map (Expr.typeIn S) :=
      List.map_congr_left fun arg ha => iha arg ha (h.child (by simp [Expr.children, ha]))
    rw [info.typeOf_call, Expr.typeIn, (h.child (by simp [Expr.children])).callee_eq, hargs,
      Expr.typesIn_eq]

/-! ### Scopes at statements -/

section Scopes

variable {S : Scope} {p : PlacedProgram} {f : PlacedFunction} {before after : List PlacedStmt}
  {s : PlacedStmt} {signature : Signature}

@[simp] theorem Scope.signatures_declare (name : String) (type? : Option BasicType) :
    (S.declare name type?).signatures = S.signatures := rfl

@[simp] theorem Scope.signatures_declareAll (declared? : Option (Option BasicType))
    (names : List String) : ∀ (S : Scope) (types : List (Option BasicType)),
      (S.declareAll declared? names types).signatures = S.signatures := by
  induction names with
  | nil => exact fun _ _ => rfl
  | cons name names ih =>
    intro S types
    rw [declareAll, ih]
    rfl

@[simp] theorem Stmt.signatures_scope {α : Type} (S : Scope) (s : Stmt ε α) :
    (s.scope S).signatures = S.signatures := by
  cases s <;> simp [scope]

@[simp] theorem Scope.signatures_foldl {α : Type} (body : List (Stmt ε α)) : ∀ S : Scope,
    (body.foldl Stmt.scope S).signatures = S.signatures := by
  induction body with
  | nil => exact fun _ => rfl
  | cons s body ih =>
    intro S
    rw [List.foldl_cons, ih, Stmt.signatures_scope]

@[simp] theorem Scope.signatures_declareParams (params : List (Param String))
    (types : List (Option BasicType)) : (S.declareParams params types).signatures = S.signatures := by
  unfold declareParams
  induction params.zip types generalizing S with
  | nil => rfl
  | cons x xs ih =>
    rw [List.foldl_cons, ih]
    rfl

@[simp] theorem Program.signatures_scopeAt :
    (p.scopeAt f signature before).signatures = signaturesOf p.functions := by
  simp [scopeAt, Function.scope]

theorem Checker.records_subset_bodyRecords (before : List PlacedStmt) {s : PlacedStmt}
    {after : List PlacedStmt} : ∀ S : Scope, ∀ r ∈ records (before.foldl Stmt.scope S) s.names,
      r ∈ bodyRecords S (before ++ s :: after) := by
  induction before with
  | nil => exact fun S r hr => List.mem_append_left _ hr
  | cons s' before ih => exact fun S r hr => List.mem_append_right _ (ih _ r hr)

theorem Program.At.records (h : p.At f before s after signature) :
    ∀ r ∈ Checker.records (p.scopeAt f signature before) s.names, r ∈ p.records := by
  intro r hr
  refine List.mem_flatMap.2 ⟨f, h.function, ?_⟩
  rw [Checker.functionRecords, h.signature]
  dsimp only
  rw [h.body]
  exact Checker.records_subset_bodyRecords before _ r hr

/-- The check of a program records what the names that it looked at mean. -/
theorem Checked.Describes.binding {c : Checked} (hc : c.Describes p)
    (h : p.At f before s after signature) {n : Placed × String} (hn : n ∈ s.names) :
    c.info.bindings[n.1.id]? = (p.scopeAt f signature before).locals n.2 :=
  hc.bound (n.1.id, _) (h.records _
    (List.mem_map_of_mem (f := fun n => (n.1.id, (p.scopeAt f signature before).locals n.2)) hn))

/-- The check of a program knows the scope at each expression that it looked at. -/
theorem Checked.Describes.knows {c : Checked} (hc : c.Describes p)
    (h : p.At f before s after signature) {e : PlacedExpr} (he : ∀ n ∈ e.names, n ∈ s.names) :
    c.info.Knows (p.scopeAt f signature before) e where
  names n hn := hc.binding h (he n hn)
  signatures x := by rw [hc.signatures, Program.signatures_scopeAt]

theorem Stmt.names_of_value {e : PlacedExpr} (he : e ∈ s.values) : ∀ n ∈ e.names, n ∈ s.names := by
  intro n hn
  have hm {es : List PlacedExpr} (h : e ∈ es) : n ∈ es.flatMap Expr.names :=
    List.mem_flatMap.2 ⟨e, h, hn⟩
  cases s with
  | hole => cases he
  | assign => exact List.mem_append_right _ (hm he)
  | var | ret | expr => exact hm he

/-- The type of a value is known after the check. -/
theorem Checked.Describes.typeOf_eq {c : Checked} (hc : c.Describes p)
    (h : p.At f before s after signature) {e part : PlacedExpr} (he : e ∈ s.values)
    (hp : part ∈ e.parts) : c.info.typeOf part = part.typeIn (p.scopeAt f signature before) :=
  ((hc.knows h (Stmt.names_of_value he)).part hp).typeOf_eq

end Scopes

end Recast
