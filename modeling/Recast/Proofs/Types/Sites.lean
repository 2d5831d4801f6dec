import Recast.Proofs.Tree.Basic
import Recast.Proofs.Types.Remarks

/-!
# Where remarks come from

A remark of a program is about one node of it, an expression or a statement, and is made in the scope
that holds at the statement.
-/

namespace Recast

/-! ### Expressions -/

/-- What is said about an expression itself, not about its parts. -/
def Expr.ownRemarks (S : Scope) : PlacedExpr → List Remark
  | .hole _ | .literal .. | .paren .. => []
  | .name tag text => S.nameRemarks tag text
  | .neg tag operand => S.negationRemarks tag operand
  | .binary tag op left right => S.operandRemarks tag op left right
  | .call tag callee args =>
    match S.callee callee with
    | .variable type? =>
      [.other ⟨.notFunction callee.text (type?.map (S.quote callee)), tag.span⟩]
    | .conversion target => S.conversionRemarks tag target args
    | .function signature => S.callRemarks tag callee.text signature args
    | .println => []
    | .undefined => [.other ⟨.undefined callee.text, callee.span⟩]
    | .compound => [.other ⟨.notFunction callee.text none, tag.span⟩]

/-- The parts that the checker comes to when it checks an expression, in order. The name of what is
called is looked up and not checked. -/
def Expr.checkedParts {ε α : Type} : Expr ε α → List (Expr ε α)
  | .hole _ | .literal .. | .name .. => []
  | .paren _ inner => [inner]
  | .neg _ operand => [operand]
  | .binary _ _ left right => [left, right]
  | .call _ (.name ..) args => args
  | .call _ callee args => callee :: args

theorem Expr.checkedParts_sublist {ε α : Type} (e : Expr ε α) :
    e.checkedParts.Sublist e.children := by
  cases e with
  | call _ callee args => cases callee <;> first | exact .refl _ | exact List.sublist_cons_self _ _
  | _ => exact .refl _

/-- What is said about an expression is said about the parts that are checked, and about itself. -/
theorem Expr.remarks_eq {S : Scope} (e : PlacedExpr) :
    e.remarks S = e.checkedParts.flatMap (remarks S) ++ e.ownRemarks S := by
  cases e with
  | hole | literal | name => rfl
  | paren | neg | binary => simp [remarks, ownRemarks, checkedParts]
  | call tag callee args =>
    cases callee with
    | name _ text =>
      rw [remarks, ownRemarks, checkedParts, Scope.callee]
      cases hc : S.calleeNamed text with
      | compound => exact absurd hc (S.calleeNamed_ne_compound text)
      | _ => simp
    | _ => simp [remarks, ownRemarks, checkedParts, Scope.callee]

/-- What is said about an expression is said about one of its parts. -/
theorem Expr.mem_remarks {S : Scope} {r : Remark} {e : PlacedExpr} (h : r ∈ e.remarks S) :
    ∃ part ∈ e.parts, r ∈ part.ownRemarks S := by
  induction e using Expr.inductChildren with
  | step e ih =>
    rw [remarks_eq] at h
    rcases List.mem_append.1 h with h | h
    · obtain ⟨child, hc, h⟩ := List.mem_flatMap.1 h
      have hchild := e.checkedParts_sublist.subset hc
      obtain ⟨part, hp, hr⟩ := ih child hchild h
      exact ⟨part, mem_parts_of_child hchild hp, hr⟩
    · exact ⟨e, e.self_mem_parts, h⟩

/-! ### Values that have to fit -/

theorem Scope.mem_fitRemarks {S : Scope} {r : Remark} {value : PlacedExpr}
    {target? : Option BasicType} {fit : Fit} (h : r ∈ S.fitRemarks value target? fit) :
    ∃ type target, value.typeIn S = some type ∧ target? = some target ∧
      type.assignableTo target = false ∧
        r = .unfit fit value (S.modeOf value type) type target := by
  unfold fitRemarks at h
  split at h
  · rename_i type target ht
    split at h
    · cases h
    · rename_i ha
      exact ⟨type, target, ht, rfl, by simpa using ha, List.mem_singleton.1 h⟩
  · cases h

theorem Scope.mem_fitsRemarks {S : Scope} {r : Remark} {fit : Nat → Option BasicType → Fit}
    {values : List PlacedExpr} : ∀ {i : Nat} {targets : List (Option BasicType)},
      r ∈ S.fitsRemarks fit i values targets → ∃ k value target?, values[k]? = some value ∧
        targets[k]? = some target? ∧ r ∈ S.fitRemarks value target? (fit (i + k) target?) := by
  induction values with
  | nil =>
    intro i targets h
    rw [fitsRemarks] at h
    · cases h
    · nofun
  | cons value values ih =>
    intro i targets h
    cases targets with
    | nil => cases h
    | cons target? targets =>
      rw [fitsRemarks] at h
      rcases List.mem_append.1 h with h | h
      · exact ⟨0, value, target?, rfl, rfl, h⟩
      · obtain ⟨k, value', target?', hv, ht, hr⟩ := ih h
        exact ⟨k + 1, value', target?', hv, ht, by rwa [Nat.add_right_comm] at hr⟩

/-! ### Statements -/

/-- The expressions of a statement that have values. -/
def Stmt.values {ε α : Type} : Stmt ε α → List (Expr ε α)
  | .hole _ => []
  | .var _ _ _ values | .assign _ _ values | .ret _ values => values
  | .expr _ e => [e]

theorem Stmt.values_subset {ε α : Type} (s : Stmt ε α) : ∀ e ∈ s.values, e ∈ s.children := by
  cases s with
  | assign => exact fun e he => List.mem_append_right _ he
  | _ => exact fun e he => he

theorem Stmt.values_retag {ε α β : Type} (f : α → β) (s : Stmt ε α) :
    (s.retag f).values = s.values.map (Expr.retag f) := by
  cases s <;> simp [Stmt.retag, Stmt.values]

/-- What is said about a statement itself, not about its values. -/
def Stmt.ownRemarks (S : Scope) (results own : List (Option BasicType)) :
    PlacedStmt → List Remark
  | .hole _ => []
  | .var tag names type? values =>
    type?.toList.flatMap TypeRef.remarks
      ++ ((if !values.isEmpty && values.length != names.length then
          [.other ⟨.countMismatch names.length values.length, tag.span⟩]
        else (type?.map TypeRef.type?).toList.flatMap fun target? =>
          S.fitsRemarks (fun i target? => ⟨.varValue tag.id i, .declaration, target?, none⟩) 0
            values (values.map fun _ => target?))
      ++ S.declareRemarks tag.span (type?.map TypeRef.type?) names (values.map (Expr.typeIn S)))
  | .assign tag targets values =>
    targets.flatMap (Expr.targetRemarks S)
      ++ (if targets.length = values.length then
          S.fitsRemarks (fun i target? =>
            ⟨.assignValue tag.id i, .assignment, target?, targets[i]?.map Expr.ref⟩) 0 values
            (targets.map (Expr.targetType? S))
        else [.other ⟨.countMismatch targets.length values.length, tag.span⟩])
  | .ret tag values =>
    if values.length = results.length then
      S.fitsRemarks (fun i _ => ⟨.returnValue tag.id i, .result, own[i]?.join, none⟩) 0 values
        results
    else [.other ⟨.resultCount (values.map (Expr.typeIn S)) results, tag.span⟩]
  | .expr _ e =>
    if e.isCall then [] else [.other ⟨.unused e.text ((e.typeIn S).map (S.quote e)), e.span⟩]

/-- What is said about a statement is said about the statement itself or about one of its values. -/
theorem Stmt.mem_remarks {S : Scope} {results own : List (Option BasicType)} {r : Remark}
    {s : PlacedStmt} (h : r ∈ s.remarks S results own) :
    r ∈ s.ownRemarks S results own ∨ ∃ e ∈ s.values, r ∈ e.remarks S := by
  cases s with
  | hole => cases h
  | var =>
    rcases List.mem_append.1 h with h | h
    · exact .inl (List.mem_append_left _ h)
    · rcases List.mem_append.1 h with h | h
      · exact .inr (List.mem_flatMap.1 h)
      · exact .inl (List.mem_append_right _ h)
  | assign =>
    rcases List.mem_append.1 h with h | h
    · rcases List.mem_append.1 h with h | h
      · exact .inl (List.mem_append_left _ h)
      · exact .inr (List.mem_flatMap.1 h)
    · exact .inl (List.mem_append_right _ h)
  | ret =>
    rcases List.mem_append.1 h with h | h
    · exact .inr (List.mem_flatMap.1 h)
    · exact .inl h
  | expr =>
    rcases List.mem_append.1 h with h | h
    · exact .inr ⟨_, List.mem_singleton_self _, h⟩
    · exact .inl h

/-- What is said about a body is said about one of its statements in the scope that the statements
before it leave. -/
theorem Stmt.mem_bodyRemarks {results own : List (Option BasicType)} {r : Remark}
    {body : List PlacedStmt} : ∀ {S : Scope}, r ∈ bodyRemarks S results own body →
      ∃ before s after, body = before ++ s :: after ∧
        r ∈ s.remarks (before.foldl Stmt.scope S) results own := by
  induction body with
  | nil => exact fun h => nomatch h
  | cons s rest ih =>
    intro S h
    rcases List.mem_append.1 h with h | h
    · exact ⟨[], s, rest, rfl, h⟩
    · obtain ⟨before, s', after, rfl, hr⟩ := ih h
      exact ⟨s :: before, s', after, rfl, hr⟩

/-! ### Clashes -/

/-- Anything but a value that does not fit and operands that do not go together. -/
def Remark.IsOther : Remark → Prop
  | .other _ => True
  | _ => False

section Clashes

variable {S : Scope} {results own : List (Option BasicType)}

theorem Scope.isOther_nameRemarks {tag : Placed} {name : String} :
    ∀ r ∈ S.nameRemarks tag name, r.IsOther := by
  unfold nameRemarks
  split
  · exact fun _ h => nomatch h
  · exact List.forall_mem_singleton.2 trivial

theorem Scope.isOther_conversionRemarks {tag : Placed} {target : BasicType}
    {args : List PlacedExpr} : ∀ r ∈ S.conversionRemarks tag target args, r.IsOther := by
  unfold conversionRemarks
  split
  · split
    · split
      · exact fun _ h => nomatch h
      · exact List.forall_mem_singleton.2 trivial
    · exact fun _ h => nomatch h
  · exact List.forall_mem_singleton.2 trivial
  · exact List.forall_mem_singleton.2 trivial

theorem Scope.isOther_negationRemarks {tag : Placed} {operand : PlacedExpr} :
    ∀ r ∈ S.negationRemarks tag operand, r.IsOther := by
  unfold negationRemarks
  split
  · split
    · exact fun _ h => nomatch h
    · exact List.forall_mem_singleton.2 trivial
  · exact fun _ h => nomatch h

theorem isOther_argumentCountRemarks {tag : Placed} {function : String} {signature : Signature}
    {args : List PlacedExpr} :
    ∀ r ∈ Scope.argumentCountRemarks tag function signature args, r.IsOther := by
  unfold Scope.argumentCountRemarks
  split
  · exact List.forall_mem_singleton.2 trivial
  · split
    · exact fun _ h => nomatch h
    · exact List.forall_mem_map.2 fun _ _ => trivial

theorem TypeRef.isOther_remarks {t : TypeRef String} : ∀ r ∈ t.remarks, r.IsOther := by
  unfold remarks
  split
  · exact fun _ h => nomatch h
  · exact List.forall_mem_singleton.2 trivial

theorem Expr.isOther_targetRemarks {e : PlacedExpr} : ∀ r ∈ e.targetRemarks S, r.IsOther := by
  induction e using Expr.inductArgs with
  | name => exact Scope.isOther_nameRemarks
  | paren _ _ ih => exact ih
  | _ => exact List.forall_mem_singleton.2 trivial

theorem Scope.isOther_declareRemarks {span : Span} {declared? : Option (Option BasicType)}
    {names : List String} : ∀ {S : Scope} {types : List (Option BasicType)},
      ∀ r ∈ S.declareRemarks span declared? names types, r.IsOther := by
  induction names with
  | nil => exact fun _ h => nomatch h
  | cons name names ih =>
    intro S types
    refine List.forall_mem_append.2 ⟨?_, ih⟩
    split
    · exact List.forall_mem_singleton.2 trivial
    · exact fun _ h => nomatch h

/-- Two operands of known types that do not go together. A fraction that would have to be an integer
is reported as something else. -/
structure Scope.Mismatch (S : Scope) (left right : PlacedExpr) (l r : BasicType) : Prop where
  typedLeft : left.typeIn S = some l
  typedRight : right.typeIn S = some r
  apart : l.unify? r = none
  wholeLeft : l = .untypedFloat → r.isInteger = false
  wholeRight : r = .untypedFloat → l.isInteger = false

/-- A value of a known type at a place that takes values of another one. -/
structure Scope.Misfit (S : Scope) (value : PlacedExpr) (mode : Mode) (type target : BasicType) :
    Prop where
  typed : value.typeIn S = some type
  apart : type.assignableTo target = false
  mode : mode = S.modeOf value type

/-- An expression has a place for a value of the given type. -/
inductive Expr.Takes (S : Scope) : PlacedExpr → PlacedExpr → BasicType → Fit → Prop where
  | argument {tag : Placed} {callee value : PlacedExpr} {args : List PlacedExpr}
      {signature : Signature} {k : Nat} {target : BasicType}
      (function : S.callee callee = .function signature) (present : args[k]? = some value)
      (taken : (signature.targets args.length)[k]? = some (some target)) :
      Takes S (.call tag callee args) value target
        ⟨.callArg tag.id k, .argument callee.text, some target, none⟩

/-- A statement has a place for a value of the given type. -/
inductive Stmt.Takes (S : Scope) (results own : List (Option BasicType)) :
    PlacedStmt → PlacedExpr → BasicType → Fit → Prop where
  | declaration {tag : Placed} {names : List String} {written : TypeRef String}
      {values : List PlacedExpr} {value : PlacedExpr} {k : Nat} {target : BasicType}
      (present : values[k]? = some value) (taken : written.type? = some target) :
      Takes S results own (.var tag names (some written) values) value target
        ⟨.varValue tag.id k, .declaration, some target, none⟩
  | assignment {tag : Placed} {targets values : List PlacedExpr} {value goal : PlacedExpr} {k : Nat}
      {target : BasicType} (present : values[k]? = some value) (assigned : targets[k]? = some goal)
      (taken : goal.targetType? S = some target) :
      Takes S results own (.assign tag targets values) value target
        ⟨.assignValue tag.id k, .assignment, some target, some goal.ref⟩
  | result {tag : Placed} {values : List PlacedExpr} {value : PlacedExpr} {k : Nat}
      {target : BasicType} (present : values[k]? = some value)
      (taken : results[k]? = some (some target)) :
      Takes S results own (.ret tag values) value target
        ⟨.returnValue tag.id k, .result, own[k]?.join, none⟩

/-- What is said about an expression itself, if it is not something else. -/
inductive Expr.Clashes (S : Scope) (e : PlacedExpr) : Remark → Prop where
  | operands {tag : Placed} {op : BinaryOp} {left right : PlacedExpr} {l r : BasicType}
      (binary : e = .binary tag op left right) (mismatch : S.Mismatch left right l r) :
      Clashes S e (.operands tag op left right l r)
  | unfit {fit : Fit} {value : PlacedExpr} {mode : Mode} {type target : BasicType}
      (takes : e.Takes S value target fit) (misfit : S.Misfit value mode type target) :
      Clashes S e (.unfit fit value mode type target)

/-- What is said about a statement itself, if it is not something else. -/
inductive Stmt.Clashes (S : Scope) (results own : List (Option BasicType)) (s : PlacedStmt) :
    Remark → Prop where
  | unfit {fit : Fit} {value : PlacedExpr} {mode : Mode} {type target : BasicType}
      (takes : s.Takes S results own value target fit)
      (misfit : S.Misfit value mode type target) :
      Clashes S results own s (.unfit fit value mode type target)

/-- A remark about values that have to fit. -/
theorem Scope.unfit_of_mem_fitsRemarks {fit : Nat → Option BasicType → Fit} {r : Remark}
    {values : List PlacedExpr} {targets : List (Option BasicType)}
    (h : r ∈ S.fitsRemarks fit 0 values targets) : ∃ k value mode type target,
      values[k]? = some value ∧ targets[k]? = some (some target) ∧
        S.Misfit value mode type target ∧ r = .unfit (fit k (some target)) value mode type target := by
  obtain ⟨k, value, target?, hv, ht, hr⟩ := mem_fitsRemarks h
  obtain ⟨type, target, htype, rfl, hapart, rfl⟩ := mem_fitRemarks hr
  rw [Nat.zero_add]
  exact ⟨k, value, _, type, target, hv, ht, ⟨htype, hapart, rfl⟩, rfl⟩

theorem Expr.clashes_or_isOther {e : PlacedExpr} {r : Remark} (h : r ∈ e.ownRemarks S) :
    e.Clashes S r ∨ r.IsOther := by
  cases e with
  | hole | literal | paren => cases h
  | name => exact .inr (Scope.isOther_nameRemarks r h)
  | neg => exact .inr (Scope.isOther_negationRemarks r h)
  | binary tag op left right =>
    rw [ownRemarks, Scope.operandRemarks] at h
    split at h
    · rename_i l r' hl hr
      split at h
      · split at h
        · cases h
        · exact .inr (List.mem_singleton.1 h ▸ trivial)
      · rename_i hu
        split at h
        · exact .inr (List.mem_singleton.1 h ▸ trivial)
        · rename_i hwl
          split at h
          · exact .inr (List.mem_singleton.1 h ▸ trivial)
          · rename_i hwr
            refine .inl (List.mem_singleton.1 h ▸ .operands rfl ⟨hl, hr, hu, ?_, ?_⟩)
            · simpa using hwl
            · simpa using hwr
    · cases h
  | call tag callee args =>
    rw [ownRemarks] at h
    split at h
    · exact .inr (List.mem_singleton.1 h ▸ trivial)
    · exact .inr (Scope.isOther_conversionRemarks r h)
    · rename_i signature hc
      rcases List.mem_append.1 h with h | h
      · exact .inr (isOther_argumentCountRemarks r h)
      · obtain ⟨k, value, mode, type, target, hv, ht, hm, rfl⟩ := Scope.unfit_of_mem_fitsRemarks h
        exact .inl (.unfit (.argument hc hv ht) hm)
    · cases h
    · exact .inr (List.mem_singleton.1 h ▸ trivial)
    · exact .inr (List.mem_singleton.1 h ▸ trivial)

theorem Stmt.clashes_or_isOther {s : PlacedStmt} {r : Remark}
    (h : r ∈ s.ownRemarks S results own) : s.Clashes S results own r ∨ r.IsOther := by
  cases s with
  | hole => cases h
  | var tag names type? values =>
    rcases List.mem_append.1 h with h | h
    · obtain ⟨t, -, h⟩ := List.mem_flatMap.1 h
      exact .inr (TypeRef.isOther_remarks r h)
    · rcases List.mem_append.1 h with h | h
      · split at h
        · exact .inr (List.mem_singleton.1 h ▸ trivial)
        · obtain ⟨target?, hd, h⟩ := List.mem_flatMap.1 h
          obtain ⟨written, rfl, rfl⟩ := Option.map_eq_some_iff.1 (Option.mem_toList.1 hd)
          obtain ⟨k, value, mode, type, target, hv, ht, hm, rfl⟩ :=
            Scope.unfit_of_mem_fitsRemarks h
          rw [List.getElem?_map, hv] at ht
          exact .inl (.unfit (.declaration hv (Option.some.inj ht)) hm)
      · exact .inr (Scope.isOther_declareRemarks r h)
  | assign tag targets values =>
    rcases List.mem_append.1 h with h | h
    · obtain ⟨e, -, h⟩ := List.mem_flatMap.1 h
      exact .inr (Expr.isOther_targetRemarks r h)
    · split at h
      · obtain ⟨k, value, mode, type, target, hv, ht, hm, rfl⟩ := Scope.unfit_of_mem_fitsRemarks h
        rw [List.getElem?_map] at ht
        obtain ⟨goal, hg, ht⟩ := Option.map_eq_some_iff.1 ht
        rw [hg]
        exact .inl (.unfit (.assignment hv hg ht) hm)
      · exact .inr (List.mem_singleton.1 h ▸ trivial)
  | ret tag values =>
    rw [ownRemarks] at h
    split at h
    · obtain ⟨k, value, mode, type, target, hv, ht, hm, rfl⟩ := Scope.unfit_of_mem_fitsRemarks h
      exact .inl (.unfit (.result hv ht) hm)
    · exact .inr (List.mem_singleton.1 h ▸ trivial)
  | expr tag e =>
    rw [ownRemarks] at h
    split at h
    · cases h
    · exact .inr (List.mem_singleton.1 h ▸ trivial)

end Clashes

/-! ### Programs -/

/-- A statement of a program, and what the checker knows when it comes to it. -/
structure Program.At (p : PlacedProgram) (f : PlacedFunction) (before : List PlacedStmt)
    (s : PlacedStmt) (after : List PlacedStmt) (signature : Signature) : Prop where
  function : f ∈ p.functions
  signature : signaturesOf p.functions f.name = some signature
  body : f.body = before ++ s :: after

/-- The scope at a statement of a program that comes after the statements `before`. -/
def Program.scopeAt (p : PlacedProgram) (f : PlacedFunction) (signature : Signature)
    (before : List PlacedStmt) : Scope :=
  before.foldl Stmt.scope (f.scope (signaturesOf p.functions) signature)

/-- What is said about declarations is said about one of the functions. -/
theorem mem_declarationRemarks {r : Remark} {fs : List PlacedFunction} :
    ∀ {earlier : List PlacedFunction}, r ∈ declarationRemarks earlier fs →
      ∃ f ∈ fs, ∃ earlier, r ∈ f.declarationRemarks earlier := by
  induction fs with
  | nil => exact fun h => nomatch h
  | cons f fs ih =>
    intro earlier h
    rcases List.mem_append.1 h with h | h
    · exact ⟨f, List.mem_cons_self, earlier, h⟩
    · obtain ⟨g, hg, earlier', h⟩ := ih h
      exact ⟨g, List.mem_cons_of_mem _ hg, earlier', h⟩

/-- What is said about a program is said about the declaration of a function or about a statement of
its body. -/
theorem Program.mem_remarks {p : PlacedProgram} {r : Remark} (h : r ∈ p.remarks) :
    (∃ f ∈ p.functions, ∃ earlier, r ∈ f.declarationRemarks earlier) ∨
      ∃ f before s after signature, p.At f before s after signature ∧
        r ∈ s.remarks (p.scopeAt f signature before) signature.results f.signature.results := by
  rcases List.mem_append.1 h with h | h
  · exact .inl (mem_declarationRemarks h)
  · obtain ⟨f, hf, h⟩ := List.mem_flatMap.1 h
    unfold Function.remarks at h
    split at h
    · cases h
    · rename_i signature hs
      obtain ⟨before, s, after, hb, h⟩ := Stmt.mem_bodyRemarks h
      exact .inr ⟨f, before, s, after, signature, ⟨hf, hs, hb⟩, h⟩

theorem Function.isOther_declarationRemarks {f : PlacedFunction} {earlier : List PlacedFunction} :
    ∀ r ∈ f.declarationRemarks earlier, r.IsOther := by
  refine List.forall_mem_append.2 ⟨List.forall_mem_append.2 ⟨fun r hr => ?_, fun r hr => ?_⟩, ?_⟩
  · obtain ⟨p, -, hr⟩ := List.mem_flatMap.1 hr
    exact TypeRef.isOther_remarks r hr
  · obtain ⟨t, -, hr⟩ := List.mem_flatMap.1 hr
    exact TypeRef.isOther_remarks r hr
  · split
    · exact List.forall_mem_singleton.2 trivial
    · exact fun _ h => nomatch h

/-- A clash in a program stands at a statement, or at a part of a value of a statement. -/
theorem Program.clash_site {p : PlacedProgram} {r : Remark} (h : r ∈ p.remarks) (hr : ¬ r.IsOther) :
    ∃ f before s after signature, p.At f before s after signature ∧
      (s.Clashes (p.scopeAt f signature before) signature.results f.signature.results r ∨
        ∃ root ∈ s.values, ∃ part ∈ root.parts,
          part.Clashes (p.scopeAt f signature before) r) := by
  rcases Program.mem_remarks h with
    ⟨f, -, earlier, h⟩ | ⟨f, before, s, after, signature, hat, h⟩
  · exact absurd (Function.isOther_declarationRemarks r h) hr
  · refine ⟨f, before, s, after, signature, hat, ?_⟩
    rcases Stmt.mem_remarks h with h | ⟨root, hroot, h⟩
    · exact .inl ((Stmt.clashes_or_isOther h).resolve_right hr)
    · obtain ⟨part, hp, h⟩ := Expr.mem_remarks h
      exact .inr ⟨root, hroot, part, hp, (Expr.clashes_or_isOther h).resolve_right hr⟩

/-- Operands that do not go together are those of a part of a value of a statement. -/
theorem Program.operands_site {p : PlacedProgram} {tag : Placed} {op : BinaryOp}
    {left right : PlacedExpr} {l r : BasicType} (h : .operands tag op left right l r ∈ p.remarks) :
    ∃ f before s after signature, p.At f before s after signature ∧
      (p.scopeAt f signature before).Mismatch left right l r ∧
        ∃ root ∈ s.values, .binary tag op left right ∈ root.parts := by
  obtain ⟨f, before, s, after, signature, hat, hsite⟩ := clash_site h id
  refine ⟨f, before, s, after, signature, hat, ?_⟩
  rcases hsite with hstmt | ⟨root, hroot, part, hp, hpart⟩
  · cases hstmt
  · cases hpart with
    | operands binary mismatch => exact ⟨mismatch, root, hroot, binary ▸ hp⟩

/-- A value that does not fit is at a place of a statement, or of a part of a value of one. -/
theorem Program.unfit_site {p : PlacedProgram} {fit : Fit} {value : PlacedExpr} {mode : Mode}
    {type target : BasicType} (h : .unfit fit value mode type target ∈ p.remarks) :
    ∃ f before s after signature, p.At f before s after signature ∧
      (p.scopeAt f signature before).Misfit value mode type target ∧
        (s.Takes (p.scopeAt f signature before) signature.results f.signature.results value target
            fit ∨
          ∃ root ∈ s.values, ∃ part ∈ root.parts,
            part.Takes (p.scopeAt f signature before) value target fit) := by
  obtain ⟨f, before, s, after, signature, hat, hsite⟩ := clash_site h id
  refine ⟨f, before, s, after, signature, hat, ?_⟩
  rcases hsite with ⟨takes, misfit⟩ | ⟨root, hroot, part, hp, hpart⟩
  · exact ⟨misfit, .inl takes⟩
  · cases hpart with
    | unfit takes misfit => exact ⟨misfit, .inr ⟨root, hroot, part, hp, takes⟩⟩

end Recast
