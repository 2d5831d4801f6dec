import Recast.Proofs.Repair.Locate
import Recast.Proofs.Repair.Pending
import Recast.Proofs.Types.Judgement

/-!
# The checker decides the typing rules

A program without remarks is well typed, and a well typed program has no remarks. For each thing that
the checker looks at there is one lemma that says which rule is kept when nothing is said about it.
The rules do not look at ids and places, so a program that was read from a text is well typed exactly
if the program in its store is.
-/

namespace Recast

variable {ε α β : Type} {S : Scope}

/-! ### Types of expressions -/

namespace Expr

theorem hasType_of_typeIn {e : Expr ε α} {type : BasicType} (h : e.typeIn S = some type) :
    e.HasType S type := by
  induction e generalizing type with
  | hole => cases h
  | literal tag kind lexeme =>
    cases kind with
    | int =>
      obtain rfl : BasicType.untypedInt = type := Option.some.inj h
      exact .int
    | float =>
      obtain rfl : BasicType.untypedFloat = type := Option.some.inj h
      exact .float
  | name tag text => exact .variable (Option.join_eq_some_iff.1 h)
  | paren tag inner ih => exact .paren (ih h)
  | neg tag operand ih =>
    obtain ⟨ht, hn⟩ := Option.filter_eq_some_iff.1 h
    exact .neg (ih ht) hn
  | binary tag op left right ihl ihr =>
    rw [typeIn] at h
    obtain ⟨l, r, common, hl, hr, hu, hd, rfl⟩ := BinaryOp.typeOf?_eq_some.1 h
    cases hc : op.isComparison with
    | false => exact .arithmetic (ihl hl) (ihr hr) hu hd hc
    | true => exact .comparison (ihl hl) (ihr hr) hu hd hc
  | call tag callee args _ iha =>
    rw [typeIn, typesIn_eq] at h
    cases callee with
    | name tag' text =>
      rw [Scope.callee] at h
      cases hcallee : S.calleeNamed text with
      | conversion target =>
        rw [hcallee, Callee.typeOf?] at h
        obtain ⟨t, htypes, hc, rfl⟩ := BasicType.converted?_eq_some.1 h
        obtain ⟨arg, rfl, ht⟩ := List.map_eq_singleton_iff.1 htypes
        exact .conversion (Scope.namesType_of_calleeNamed hcallee) (iha arg List.mem_cons_self ht) hc
      | function signature =>
        rw [hcallee, Callee.typeOf?, Signature.value?] at h
        refine .call (Scope.namesFunction_of_calleeNamed hcallee) ?_
        split at h
        · rename_i hresults
          rw [hresults, h]
        · cases h
      | _ =>
        rw [hcallee] at h
        cases h
    | _ => cases h

/-- The types that the rules give to an expression are the one that the checker works out. -/
theorem hasType_iff {e : Expr ε α} {type : BasicType} :
    e.HasType S type ↔ e.typeIn S = some type := ⟨HasType.typeIn_eq, hasType_of_typeIn⟩

end Expr

/-! ### Remarks on expressions -/

namespace Scope

theorem nameRemarks_eq_nil {tag : Placed} {text : String} :
    S.nameRemarks tag text = [] ↔ ∃ type?, S.locals text = some type? := by
  rw [nameRemarks, ← Option.isSome_iff_exists]
  cases (S.locals text).isSome <;> simp

theorem negationRemarks_eq_nil {tag : Placed} {operand : PlacedExpr} :
    S.negationRemarks tag operand = [] ↔
      ∀ type, operand.HasType S type → type.isNumeric := by
  simp only [Expr.hasType_iff, negationRemarks]
  cases operand.typeIn S <;> simp

theorem operandRemarks_eq_nil {tag : Placed} {op : BinaryOp} {left right : PlacedExpr} :
    S.operandRemarks tag op left right = [] ↔
      ∀ l r, left.HasType S l → right.HasType S r →
        ∃ type, l.unify? r = some type ∧ op.isDefinedOn type := by
  simp only [Expr.hasType_iff, operandRemarks]
  cases left.typeIn S with
  | none => simp
  | some l =>
    cases right.typeIn S with
    | none => simp
    | some r =>
      have hpair : (∀ l' r', some l = some l' → some r = some r' →
          ∃ type, l'.unify? r' = some type ∧ op.isDefinedOn type) ↔
            ∃ type, l.unify? r = some type ∧ op.isDefinedOn type :=
        ⟨fun h => h l r rfl rfl, by rintro h _ _ ⟨⟩ ⟨⟩; exact h⟩
      rw [hpair]
      dsimp only
      cases l.unify? r with
      | none =>
        simp only [reduceCtorEq, false_and, exists_false, iff_false]
        split
        · exact List.cons_ne_nil _ _
        · split <;> exact List.cons_ne_nil _ _
      | some common => cases h : op.isDefinedOn common <;> simp [h]

theorem fitRemarks_eq_nil {value : PlacedExpr} {target? : Option BasicType} {fit : Fit} :
    S.fitRemarks value target? fit = [] ↔
      ∀ target, target? = some target → value.Fits S target := by
  simp only [Expr.Fits, Expr.hasType_iff, fitRemarks]
  cases value.typeIn S <;> cases target? <;> simp

theorem fitsRemarks_eq_nil {fit : Nat → Option BasicType → Fit} {values : List PlacedExpr} :
    ∀ {i : Nat} {targets : List (Option BasicType)}, S.fitsRemarks fit i values targets = [] ↔
      ∀ (k : Nat) (value : PlacedExpr) (target : BasicType), values[k]? = some value →
        targets[k]? = some (some target) → value.Fits S target := by
  induction values with
  | nil => simp [fitsRemarks]
  | cons value values ih =>
    intro i targets
    cases targets with
    | nil => simp [fitsRemarks]
    | cons target? targets =>
      rw [fitsRemarks, List.append_eq_nil_iff, fitRemarks_eq_nil, ih]
      constructor
      · rintro ⟨h, htail⟩ k v t hv ht
        cases k with
        | zero =>
          obtain rfl : value = v := by simpa using hv
          exact h t (by simpa using ht)
        | succ k => exact htail k v t (by simpa using hv) (by simpa using ht)
      · intro h
        exact ⟨fun t ht => h 0 value t rfl (by rw [ht]; rfl),
          fun k v t hv ht => h (k + 1) v t (by simpa using hv) (by simpa using ht)⟩

theorem conversionRemarks_eq_nil {tag : Placed} {target : BasicType} {args : List PlacedExpr} :
    S.conversionRemarks tag target args = [] ↔
      ∃ arg, args = [arg] ∧ ∀ type, arg.HasType S type → type.convertibleTo target := by
  simp only [Expr.hasType_iff]
  rcases args with _ | ⟨arg, _ | ⟨arg', args⟩⟩
  · simp [conversionRemarks]
  · rw [conversionRemarks]
    cases h : arg.typeIn S <;> simp [h]
  · simp [conversionRemarks]

theorem argumentCountRemarks_eq_nil {tag : Placed} {function : String} {signature : Signature}
    {args : List PlacedExpr} :
    argumentCountRemarks tag function signature args = [] ↔ signature.Takes args.length := by
  rw [argumentCountRemarks, Signature.Takes, Signature.requiredArgs]
  cases signature.variadic with
  | true =>
    simp only [if_true, ite_eq_right_iff, List.cons_ne_nil, imp_false, not_lt]
    omega
  | false =>
    simp only [Bool.false_eq_true, if_false]
    split
    · simp only [List.cons_ne_nil, false_iff]
      omega
    · rw [List.map_eq_nil_iff, Option.toList_eq_nil_iff, List.getElem?_eq_none_iff]
      omega

theorem callRemarks_eq_nil {tag : Placed} {function : String} {signature : Signature}
    {args : List PlacedExpr} :
    S.callRemarks tag function signature args = [] ↔ signature.Takes args.length ∧
      ∀ (i : Nat) (arg : PlacedExpr) (target : BasicType), args[i]? = some arg →
        signature.param? i = some (some target) → arg.Fits S target := by
  rw [callRemarks, List.append_eq_nil_iff, argumentCountRemarks_eq_nil, fitsRemarks_eq_nil]
  refine and_congr_right fun _ => forall₄_congr fun i arg target harg => ?_
  rw [Signature.getElem?_targets (List.getElem?_eq_some_iff.1 harg).1]

end Scope

/-! ### Expressions -/

/-- The rules for a call, by what the callee means. -/
def Callee.Accepts (S : Scope) (args : List (Expr ε α)) : Callee → Prop
  | conversion target =>
    ∃ arg, args = [arg] ∧ ∀ type, arg.HasType S type → type.convertibleTo target
  | function signature => signature.Takes args.length ∧
    ∀ (i : Nat) (arg : Expr ε α) (target : BasicType), args[i]? = some arg →
      signature.param? i = some (some target) → arg.Fits S target
  | println => True
  | _ => False

namespace Expr

theorem wellTyped_name {tag : α} {text : String} :
    (Expr.name tag text : Expr ε α).WellTyped S ↔ ∃ type?, S.locals text = some type? :=
  ⟨fun | .variable h => ⟨_, h⟩, fun ⟨_, h⟩ => .variable h⟩

theorem wellTyped_paren {tag : α} {inner : Expr ε α} :
    (Expr.paren tag inner).WellTyped S ↔ inner.WellTyped S :=
  ⟨fun | .paren h => h, .paren⟩

theorem wellTyped_neg {tag : α} {operand : Expr ε α} :
    (Expr.neg tag operand).WellTyped S ↔
      operand.WellTyped S ∧ ∀ type, operand.HasType S type → type.isNumeric :=
  ⟨fun | .neg h hn => ⟨h, hn⟩, fun ⟨h, hn⟩ => .neg h hn⟩

theorem wellTyped_binary {tag : α} {op : BinaryOp} {left right : Expr ε α} :
    (Expr.binary tag op left right).WellTyped S ↔
      (left.WellTyped S ∧ right.WellTyped S) ∧ ∀ l r, left.HasType S l → right.HasType S r →
        ∃ type, l.unify? r = some type ∧ op.isDefinedOn type :=
  ⟨fun | .binary hl hr h => ⟨⟨hl, hr⟩, h⟩, fun ⟨⟨hl, hr⟩, h⟩ => .binary hl hr h⟩

theorem wellTyped_call {tag : α} {callee : Expr ε α} {args : List (Expr ε α)} :
    (Expr.call tag callee args).WellTyped S ↔
      (∀ arg ∈ args, arg.WellTyped S) ∧ (S.callee callee).Accepts S args := by
  constructor
  · rintro (_ | _ | _ | _ | _ | _ | ⟨hn, harg, hc⟩ | ⟨hn, hargs, ht, hf⟩ | ⟨hn, hargs⟩)
    · rw [Scope.callee, hn.calleeNamed]
      exact ⟨by simpa using harg, _, rfl, hc⟩
    · rw [Scope.callee, hn.calleeNamed]
      exact ⟨hargs, ht, hf⟩
    · rw [Scope.callee, hn.calleeNamed]
      exact ⟨hargs, trivial⟩
  · rintro ⟨hargs, h⟩
    cases callee with
    | name tag' text =>
      rw [Scope.callee] at h
      cases hcallee : S.calleeNamed text with
      | conversion target =>
        rw [hcallee] at h
        obtain ⟨arg, rfl, hc⟩ := h
        exact .conversion (Scope.namesType_of_calleeNamed hcallee)
          (hargs arg List.mem_cons_self) hc
      | function signature =>
        rw [hcallee] at h
        exact .call (Scope.namesFunction_of_calleeNamed hcallee) hargs h.1 h.2
      | println => exact .println (Scope.namesPrintln_of_calleeNamed hcallee) hargs
      | _ =>
        rw [hcallee] at h
        exact h.elim
    | _ => exact h.elim

/-- Nothing is said about an expression exactly if it is well typed. -/
theorem remarks_eq_nil_iff {e : PlacedExpr} : e.remarks S = [] ↔ e.WellTyped S := by
  induction e using Expr.inductArgs with
  | hole => exact iff_of_true rfl .hole
  | literal => exact iff_of_true rfl .literal
  | name tag text => rw [remarks, Scope.nameRemarks_eq_nil, wellTyped_name]
  | paren tag inner ih => rw [remarks, ih, wellTyped_paren]
  | neg tag operand ih =>
    rw [remarks, List.append_eq_nil_iff, ih, Scope.negationRemarks_eq_nil, wellTyped_neg]
  | binary tag op left right ihl ihr =>
    rw [remarks, List.append_eq_nil_iff, List.append_eq_nil_iff, ihl, ihr,
      Scope.operandRemarks_eq_nil, wellTyped_binary]
  | call tag callee args _ iha =>
    have hargs : args.flatMap (remarks S) = [] ↔ ∀ arg ∈ args, arg.WellTyped S := by
      rw [List.flatMap_eq_nil_iff]
      exact forall₂_congr iha
    rw [remarks, wellTyped_call, remarksAll_eq]
    cases S.callee callee with
    | conversion target =>
      rw [List.append_eq_nil_iff, hargs, Scope.conversionRemarks_eq_nil, Callee.Accepts]
    | function signature =>
      rw [List.append_eq_nil_iff, hargs, Scope.callRemarks_eq_nil, Callee.Accepts]
    | println => rw [hargs, Callee.Accepts, and_true]
    | _ => simp [Callee.Accepts]

/-! ### Targets of assignments -/

theorem IsVariable.targetType?_eq {e : Expr ε α} {type? : Option BasicType}
    (h : e.IsVariable S type?) : e.targetType? S = type? := by
  induction h with
  | name h => rw [targetType?, h, Option.join_some]
  | paren _ ih => exact ih

theorem targetRemarks_eq_nil {e : PlacedExpr} :
    e.targetRemarks S = [] ↔ ∃ type?, e.IsVariable S type? := by
  induction e using Expr.inductArgs with
  | name tag text =>
    rw [targetRemarks, Scope.nameRemarks_eq_nil]
    exact ⟨fun ⟨_, h⟩ => ⟨_, .name h⟩, fun ⟨_, .name h⟩ => ⟨_, h⟩⟩
  | paren tag inner ih =>
    rw [targetRemarks, ih]
    exact ⟨fun ⟨_, h⟩ => ⟨_, .paren h⟩, fun ⟨_, .paren h⟩ => ⟨_, h⟩⟩
  | _ => exact iff_of_false (List.cons_ne_nil _ _) (by rintro ⟨_, ⟨⟩⟩)

end Expr

/-! ### Declarations -/

namespace Scope

theorem locals_declareAll_of_notMem {declared? : Option (Option BasicType)} {x : String}
    (names : List String) : ∀ {S : Scope} {types : List (Option BasicType)}, x ∉ names →
      (S.declareAll declared? names types).locals x = S.locals x := by
  induction names with
  | nil => exact fun _ => rfl
  | cons name names ih =>
    intro S types h
    rw [List.mem_cons, not_or] at h
    rw [declareAll, ih h.2, declare]
    simp [h.1]

theorem locals_declareAll_getElem? {declared? : Option (Option BasicType)} {x : String}
    (names : List String) : ∀ {S : Scope} {types : List (Option BasicType)} {i : Nat},
      names.Nodup → names[i]? = some x → (S.declareAll declared? names types).locals x
        = some (declared?.getD (types[i]?.join.map BasicType.default)) := by
  induction names with
  | nil => nofun
  | cons name names ih =>
    intro S types i hnodup hx
    rw [List.nodup_cons] at hnodup
    rw [declareAll]
    cases i with
    | zero =>
      obtain rfl : name = x := by simpa using hx
      rw [locals_declareAll_of_notMem names hnodup.1]
      simp [declare, List.head?_eq_getElem?]
    | succ i =>
      rw [ih hnodup.2 (by simpa using hx)]
      simp [List.getElem?_tail]

theorem isSome_locals_declare {name x : String} {type? : Option BasicType} :
    (S.declare name type?).locals x = none ↔ x ≠ name ∧ S.locals x = none := by
  rw [declare]
  by_cases h : x = name <;> simp [h]

theorem declareRemarks_eq_nil {span : Span} {declared? : Option (Option BasicType)}
    {names : List String} : ∀ {S : Scope} {types : List (Option BasicType)},
      S.declareRemarks span declared? names types = [] ↔
        names.Nodup ∧ ∀ x ∈ names, S.locals x = none := by
  induction names with
  | nil => simp [declareRemarks]
  | cons name names ih =>
    intro S types
    rw [declareRemarks, List.append_eq_nil_iff, ih, List.nodup_cons]
    simp only [isSome_locals_declare, ite_eq_right_iff, List.cons_ne_nil, imp_false,
      Bool.not_eq_true, Option.isSome_eq_false_iff, Option.isNone_iff_eq_none, List.mem_cons,
      forall_eq_or_imp]
    constructor
    · rintro ⟨hname, hnodup, hnames⟩
      exact ⟨⟨fun hmem => (hnames name hmem).1 rfl, hnodup⟩, hname, fun x hx => (hnames x hx).2⟩
    · rintro ⟨⟨hmem, hnodup⟩, hname, hnames⟩
      exact ⟨hname, hnodup, fun x hx => ⟨fun e => hmem (e ▸ hx), hnames x hx⟩⟩

/-- The type that a declaration gives to a variable, worked out. -/
theorem givesType_iff {type? : Option (TypeRef String)} {values : List (Expr ε α)} {i : Nat}
    {type : BasicType} : S.GivesType type? values i type ↔
      (type?.map TypeRef.type?).getD ((values.map (Expr.typeIn S))[i]?.join.map BasicType.default)
        = some type := by
  cases type? with
  | some written => exact Iff.rfl
  | none =>
    rw [GivesType, Option.map_none, Option.getD_none, List.getElem?_map]
    cases values[i]? with
    | none => simp
    | some value =>
      rw [Option.map_some, Option.join_some, Option.map_eq_some_iff]
      constructor
      · rintro ⟨_, t, ⟨⟩, ht, rfl⟩
        exact ⟨t, Expr.hasType_iff.1 ht, rfl⟩
      · rintro ⟨t, ht, rfl⟩
        exact ⟨value, t, rfl, Expr.hasType_iff.2 ht, rfl⟩

theorem declares_declareAll {names : List String} (h : names.Nodup)
    (type? : Option (TypeRef String)) (values : List (Expr ε α)) :
    S.Declares names type? values
      (S.declareAll (type?.map TypeRef.type?) names (values.map (Expr.typeIn S))) where
  signatures := signatures_declareAll ..
  others _ hx := locals_declareAll_of_notMem names hx
  added _ _ hx := ⟨_, locals_declareAll_getElem? names h hx, fun _ => givesType_iff.symm⟩

/-- A declaration leaves one scope only. -/
theorem Declares.unique {names : List String} {type? : Option (TypeRef String)}
    {values : List (Expr ε α)} {S₁ S₂ : Scope} (h₁ : S.Declares names type? values S₁)
    (h₂ : S.Declares names type? values S₂) : S₁ = S₂ := by
  have hlocals : S₁.locals = S₂.locals := by
    funext x
    by_cases hx : x ∈ names
    · obtain ⟨i, hi⟩ := List.mem_iff_getElem?.1 hx
      obtain ⟨t₁, hx₁, ht₁⟩ := h₁.added i x hi
      obtain ⟨t₂, hx₂, ht₂⟩ := h₂.added i x hi
      rw [hx₁, hx₂, Option.ext fun t => (ht₁ t).trans (ht₂ t).symm]
    · rw [h₁.others x hx, h₂.others x hx]
  cases S₁
  cases S₂
  exact Scope.mk.injEq .. ▸ ⟨hlocals, h₁.signatures.trans h₂.signatures.symm⟩

theorem declares_iff {names : List String} (h : names.Nodup) {type? : Option (TypeRef String)}
    {values : List (Expr ε α)} {S' : Scope} : S.Declares names type? values S' ↔
      S' = S.declareAll (type?.map TypeRef.type?) names (values.map (Expr.typeIn S)) :=
  ⟨fun h' => h'.unique (declares_declareAll h type? values),
    fun e => e ▸ declares_declareAll h type? values⟩

end Scope

/-! ### Statements -/

theorem TypeRef.remarks_eq_nil {t : TypeRef String} : t.remarks = [] ↔ t.type?.isSome := by
  rw [remarks]
  cases t.type?.isSome <;> simp

namespace Stmt

variable {results own : List (Option BasicType)} {S' : Scope}

theorem wellTyped_var {tag : α} {names : List String} {type? : Option (TypeRef String)}
    {values : List (Expr ε α)} :
    (Stmt.var tag names type? values).WellTyped S results S' ↔
      (∀ written ∈ type?, written.type?.isSome) ∧ (∀ value ∈ values, value.WellTyped S) ∧
        (values ≠ [] → values.length = names.length) ∧
        (∀ written ∈ type?, ∀ target, written.type? = some target →
          ∀ value ∈ values, value.Fits S target) ∧
        names.Nodup ∧ (∀ x ∈ names, S.locals x = none) ∧
        S' = (Stmt.var tag names type? values).scope S := by
  constructor
  · rintro (_ | ⟨ht, hv, hc, hf, hn, hx, hd⟩)
    exact ⟨ht, hv, hc, hf, hn, hx, (Scope.declares_iff hn).1 hd⟩
  · rintro ⟨ht, hv, hc, hf, hn, hx, hd⟩
    exact .declaration ht hv hc hf hn hx ((Scope.declares_iff hn).2 hd)

theorem wellTyped_assign {tag : α} {targets values : List (Expr ε α)} :
    (Stmt.assign tag targets values).WellTyped S results S' ↔
      ((∀ target ∈ targets, ∃ type?, target.IsVariable S type?) ∧
        (∀ value ∈ values, value.WellTyped S) ∧ targets.length = values.length ∧
        (∀ (i : Nat) (target value : Expr ε α) (type : BasicType), targets[i]? = some target →
          values[i]? = some value → target.IsVariable S (some type) → value.Fits S type)) ∧
        S' = S := by
  constructor
  · rintro (_ | _ | ⟨ht, hv, hc, hf⟩)
    exact ⟨⟨ht, hv, hc, hf⟩, rfl⟩
  · rintro ⟨⟨ht, hv, hc, hf⟩, rfl⟩
    exact .assignment ht hv hc hf

theorem wellTyped_ret {tag : α} {values : List (Expr ε α)} :
    (Stmt.ret tag values).WellTyped S results S' ↔
      ((∀ value ∈ values, value.WellTyped S) ∧ values.length = results.length ∧
        (∀ (i : Nat) (value : Expr ε α) (target : BasicType), values[i]? = some value →
          results[i]? = some (some target) → value.Fits S target)) ∧ S' = S := by
  constructor
  · rintro (_ | _ | _ | ⟨hv, hc, hf⟩)
    exact ⟨⟨hv, hc, hf⟩, rfl⟩
  · rintro ⟨⟨hv, hc, hf⟩, rfl⟩
    exact .ret hv hc hf

theorem wellTyped_expr {tag : α} {e : Expr ε α} :
    (Stmt.expr tag e).WellTyped S results S' ↔ (e.WellTyped S ∧ e.isCall) ∧ S' = S := by
  constructor
  · rintro (_ | _ | _ | _ | ⟨he, hc⟩)
    exact ⟨⟨he, hc⟩, rfl⟩
  · rintro ⟨⟨he, hc⟩, rfl⟩
    exact .expr he hc

theorem flatMap_remarks_eq_nil {values : List PlacedExpr} :
    values.flatMap (Expr.remarks S) = [] ↔ ∀ value ∈ values, value.WellTyped S := by
  rw [List.flatMap_eq_nil_iff]
  exact forall₂_congr fun _ _ => Expr.remarks_eq_nil_iff

/-- The values of a declaration fit if nothing is said about them. -/
theorem declarationFits_eq_nil {values : List PlacedExpr} {type? : Option (TypeRef String)}
    {fit : Nat → Option BasicType → Fit} :
    ((type?.map TypeRef.type?).toList.flatMap fun target? =>
        S.fitsRemarks fit 0 values (values.map fun _ => target?)) = [] ↔
      ∀ written ∈ type?, ∀ target, written.type? = some target →
        ∀ value ∈ values, value.Fits S target := by
  cases type? with
  | none => simp
  | some written =>
    simp only [Option.map_some, Option.toList_some, List.flatMap_cons, List.flatMap_nil,
      List.append_nil, Scope.fitsRemarks_eq_nil, Option.mem_some_iff, forall_eq',
      List.getElem?_map, Option.map_eq_some_iff]
    constructor
    · intro h target ht value hv
      obtain ⟨k, hk⟩ := List.mem_iff_getElem?.1 hv
      exact h k value target hk ⟨value, hk, ht⟩
    · rintro h k value target hk ⟨-, -, ht⟩
      exact h target ht value (List.mem_iff_getElem?.2 ⟨k, hk⟩)

/-- Values fit the targets of an assignment if nothing is said about them. -/
theorem assignmentFits_eq_nil {targets values : List PlacedExpr}
    {fit : Nat → Option BasicType → Fit}
    (h : ∀ target ∈ targets, ∃ type?, target.IsVariable S type?) :
    S.fitsRemarks fit 0 values (targets.map (Expr.targetType? S)) = [] ↔
      ∀ (i : Nat) (target value : PlacedExpr) (type : BasicType), targets[i]? = some target →
        values[i]? = some value → target.IsVariable S (some type) → value.Fits S type := by
  simp only [Scope.fitsRemarks_eq_nil, List.getElem?_map, Option.map_eq_some_iff]
  constructor
  · intro hf i target value type ht hv hvar
    exact hf i value type hv ⟨target, ht, hvar.targetType?_eq⟩
  · rintro hf i value type hv ⟨target, ht, he⟩
    obtain ⟨type?, hvar⟩ := h target (List.mem_iff_getElem?.2 ⟨i, ht⟩)
    exact hf i target value type ht hv ((hvar.targetType?_eq.symm.trans he) ▸ hvar)

/-- A statement is well typed exactly if nothing is said about it, and it leaves its scope. -/
theorem wellTyped_iff {s : PlacedStmt} :
    s.WellTyped S results S' ↔ s.remarks S results own = [] ∧ S' = s.scope S := by
  cases s with
  | hole label => exact ⟨fun | .hole => ⟨rfl, rfl⟩, fun ⟨_, h⟩ => h ▸ .hole⟩
  | var tag names type? values =>
    have hwritten : type?.toList.flatMap TypeRef.remarks = [] ↔
        ∀ written ∈ type?, written.type?.isSome := by
      cases type? <;> simp [TypeRef.remarks_eq_nil]
    have hcount : (!values.isEmpty && values.length != names.length) = false ↔
        (values ≠ [] → values.length = names.length) := by
      cases values <;> simp
    rw [wellTyped_var, remarks, Scope.declarationRemarks, List.append_eq_nil_iff,
      List.append_eq_nil_iff, List.append_eq_nil_iff, hwritten, flatMap_remarks_eq_nil,
      Scope.declareRemarks_eq_nil, ← hcount]
    cases !values.isEmpty && values.length != names.length with
    | true => simp
    | false =>
      rw [if_neg Bool.false_ne_true, declarationFits_eq_nil]
      simp only [true_and, and_assoc]
  | assign tag targets values =>
    have htargets : targets.flatMap (Expr.targetRemarks S) = [] ↔
        ∀ target ∈ targets, ∃ type?, target.IsVariable S type? := by
      rw [List.flatMap_eq_nil_iff]
      exact forall₂_congr fun _ _ => Expr.targetRemarks_eq_nil
    rw [wellTyped_assign, remarks, List.append_assoc, List.append_eq_nil_iff,
      List.append_eq_nil_iff, htargets, flatMap_remarks_eq_nil]
    refine and_congr_left' (and_congr_right fun ht => and_congr_right fun _ => ?_)
    by_cases hc : targets.length = values.length
    · rw [if_pos hc, assignmentFits_eq_nil ht, and_iff_right hc]
    · simp [hc]
  | ret tag values =>
    rw [wellTyped_ret, remarks, List.append_eq_nil_iff, flatMap_remarks_eq_nil]
    refine and_congr_left' (and_congr_right fun _ => ?_)
    by_cases hc : values.length = results.length
    · rw [if_pos hc, Scope.fitsRemarks_eq_nil, and_iff_right hc]
    · simp [hc]
  | expr tag e =>
    rw [wellTyped_expr, remarks, List.append_eq_nil_iff, Expr.remarks_eq_nil_iff]
    cases hc : e.isCall <;> simp [scope]

/-- A body is well typed exactly if nothing is said about its statements. -/
theorem bodyWellTyped_iff {body : List PlacedStmt} : ∀ {S : Scope},
    BodyWellTyped results S body ↔ bodyRemarks S results own body = [] := by
  induction body with
  | nil => exact iff_of_true .nil rfl
  | cons s body ih =>
    intro S
    rw [bodyRemarks, List.append_eq_nil_iff, ← ih]
    constructor
    · rintro (_ | ⟨hs, hbody⟩)
      obtain ⟨hnil, rfl⟩ := wellTyped_iff.1 hs
      exact ⟨hnil, hbody⟩
    · rintro ⟨hnil, hbody⟩
      exact .cons (wellTyped_iff.2 ⟨hnil, rfl⟩) hbody

end Stmt

/-! ### Functions and programs -/

/-- Declared in order, the last parameter of a name counts. -/
theorem Scope.locals_declareParams (params : List (Param String)) (x : String) : ∀ S : Scope,
    (S.declareParams params (params.map fun p => p.type.type?)).locals x =
      ((params.reverse.find? (·.name == x)).map fun p =>
        if p.variadic then none else p.type.type?).or (S.locals x) := by
  induction params with
  | nil => exact fun _ => rfl
  | cons p params ih =>
    intro S
    rw [List.map_cons, declareParams, List.zip_cons_cons, List.foldl_cons]
    refine (ih _).trans ?_
    rw [List.reverse_cons, List.find?_append, Option.map_or, Option.or_assoc]
    congr 1
    by_cases h : p.name = x
    · simp [declare, h]
    · simp [declare, h, Ne.symm h]

theorem Function.scope_signature (signatures : String → Option Signature) (f : Function ε α) :
    f.scope signatures f.signature = f.entry signatures := by
  have hlocals : (f.scope signatures f.signature).locals = (f.entry signatures).locals :=
    funext fun x => (Scope.locals_declareParams f.params x _).trans (Option.or_none ..)
  have hsignatures : (f.scope signatures f.signature).signatures = signatures :=
    Scope.signatures_declareParams ..
  calc
    f.scope signatures f.signature
      = ⟨(f.scope signatures f.signature).locals, (f.scope signatures f.signature).signatures⟩ := rfl
    _ = f.entry signatures := by rw [hlocals, hsignatures]; rfl

/-- What is said about the declarations of functions, if nothing, is that their types are written
and their names distinct. -/
theorem declarationRemarks_eq_nil {fs : List PlacedFunction} : ∀ {earlier : List PlacedFunction},
    declarationRemarks earlier fs = [] ↔
      ((∀ f ∈ fs, ∀ param ∈ f.params, param.type.type?.isSome) ∧
        ∀ f ∈ fs, ∀ result ∈ f.results, result.type?.isSome) ∧
      (fs.map Function.name).Nodup ∧ ∀ f ∈ fs, ∀ e ∈ earlier, e.name ≠ f.name := by
  induction fs with
  | nil => simp [declarationRemarks]
  | cons f fs ih =>
    intro earlier
    have hparams : f.params.flatMap (fun p => p.type.remarks) = [] ↔
        ∀ param ∈ f.params, param.type.type?.isSome := by
      simp only [List.flatMap_eq_nil_iff, TypeRef.remarks_eq_nil]
    have hresults : f.results.flatMap TypeRef.remarks = [] ↔
        ∀ result ∈ f.results, result.type?.isSome := by
      simp only [List.flatMap_eq_nil_iff, TypeRef.remarks_eq_nil]
    have hname : (if earlier.any (·.name == f.name) then
        [Remark.other ⟨.redeclared f.name, f.span⟩] else []) = [] ↔
          ∀ e ∈ earlier, e.name ≠ f.name := by
      simp
    rw [declarationRemarks, List.append_eq_nil_iff, ih, Function.declarationRemarks,
      List.append_eq_nil_iff, List.append_eq_nil_iff, hparams, hresults, hname]
    simp only [List.mem_cons, forall_eq_or_imp, List.map_cons, List.nodup_cons, List.mem_map,
      List.mem_append, List.not_mem_nil, or_false, not_exists, not_and]
    constructor
    · rintro ⟨⟨⟨hp, hr⟩, hn⟩, ⟨hps, hrs⟩, hd, he⟩
      exact ⟨⟨⟨hp, hps⟩, hr, hrs⟩, ⟨fun g hg e => he g hg f (.inr rfl) e.symm, hd⟩, hn,
        fun g hg e he' => he g hg e (.inl he')⟩
    · rintro ⟨⟨⟨hp, hps⟩, hr, hrs⟩, ⟨hf, hd⟩, hn, he⟩
      refine ⟨⟨⟨hp, hr⟩, hn⟩, ⟨hps, hrs⟩, hd, ?_⟩
      rintro g hg e (he' | rfl)
      · exact he g hg e he'
      · exact fun h => hf g hg h.symm

/-- Where no function is declared twice, the later declaration of a name is the first one. -/
theorem signaturesOf_eq_signature? {p : PlacedProgram} (h : (p.functions.map Function.name).Nodup) :
    signaturesOf p.functions = p.signature? := by
  funext name
  rw [Program.signature?]
  cases hf : p.functions.find? (·.name == name) with
  | none =>
    have hnone : p.functions.reverse.find? (·.name == name) = none := by
      simpa using hf
    rw [signaturesOf, hnone]
  | some f =>
    obtain rfl : f.name = name := by simpa using List.find?_some hf
    exact signaturesOf_of_mem h (List.mem_of_find?_eq_some hf)

/-- A program is well typed exactly if nothing is said about it. -/
theorem Program.remarks_eq_nil_iff {p : PlacedProgram} : p.remarks = [] ↔ p.WellTyped := by
  rw [remarks, List.append_eq_nil_iff, declarationRemarks_eq_nil, List.flatMap_eq_nil_iff]
  constructor
  · rintro ⟨⟨⟨hp, hr⟩, hd, -⟩, hbodies⟩
    refine ⟨hp, hr, hd, fun f hf => ?_⟩
    have hbody := hbodies f hf
    rw [Function.remarks, signaturesOf_of_mem hd hf] at hbody
    dsimp only at hbody
    rw [Function.scope_signature, signaturesOf_eq_signature? hd] at hbody
    exact Stmt.bodyWellTyped_iff.2 hbody
  · rintro ⟨hp, hr, hd, hbodies⟩
    refine ⟨⟨⟨hp, hr⟩, hd, fun _ _ _ h => absurd h List.not_mem_nil⟩, fun f hf => ?_⟩
    rw [Function.remarks, signaturesOf_of_mem hd hf]
    dsimp only
    rw [Function.scope_signature, signaturesOf_eq_signature? hd]
    exact Stmt.bodyWellTyped_iff.1 (hbodies f hf)

/-! ### Ids and places do not matter -/

namespace Expr

variable {f : α → β}

@[simp] theorem hasType_retag {e : Expr ε α} {type : BasicType} :
    (e.retag f).HasType S type ↔ e.HasType S type := by
  rw [hasType_iff, hasType_iff, typeIn_retag]

@[simp] theorem fits_retag {e : Expr ε α} {target : BasicType} :
    (e.retag f).Fits S target ↔ e.Fits S target :=
  forall_congr' fun _ => imp_congr_left hasType_retag

theorem accepts_retag {args : List (Expr ε α)} (callee : Callee) :
    callee.Accepts S (args.map (retag f)) ↔ callee.Accepts S args := by
  cases callee with
  | conversion target =>
    rcases args with _ | ⟨arg, _ | ⟨arg', args⟩⟩ <;> simp [Callee.Accepts]
  | function signature =>
    rw [Callee.Accepts, Callee.Accepts, List.length_map]
    refine and_congr_right fun _ => forall_congr' fun i => ?_
    rw [List.getElem?_map]
    cases args[i]? with
    | none => simp
    | some arg =>
      simp only [Option.map_some, Option.some.injEq]
      exact ⟨by rintro h _ target rfl ht; exact fits_retag.1 (h _ target rfl ht),
        by rintro h _ target rfl ht; exact fits_retag.2 (h _ target rfl ht)⟩
  | _ => exact Iff.rfl

@[simp] theorem wellTyped_retag {e : Expr ε α} : (e.retag f).WellTyped S ↔ e.WellTyped S := by
  induction e using Expr.inductArgs with
  | hole => exact iff_of_true .hole .hole
  | literal => exact iff_of_true .literal .literal
  | name tag text => rw [retag, wellTyped_name, wellTyped_name]
  | paren tag inner ih => rw [retag, wellTyped_paren, wellTyped_paren, ih]
  | neg tag operand ih =>
    simp only [retag, wellTyped_neg, ih, hasType_retag]
  | binary tag op left right ihl ihr =>
    simp only [retag, wellTyped_binary, ihl, ihr, hasType_retag]
  | call tag callee args _ iha =>
    rw [retag, retagAll_eq, wellTyped_call, wellTyped_call, Scope.callee_retag, accepts_retag,
      List.forall_mem_map]
    exact and_congr_left' (forall₂_congr iha)

@[simp] theorem isVariable_retag {e : Expr ε α} {type? : Option BasicType} :
    (e.retag f).IsVariable S type? ↔ e.IsVariable S type? := by
  induction e using Expr.inductArgs with
  | name => exact ⟨fun | .name h => .name h, fun | .name h => .name h⟩
  | paren _ _ ih => exact ⟨fun | .paren h => .paren (ih.1 h), fun | .paren h => .paren (ih.2 h)⟩
  | _ => exact iff_of_false nofun nofun

end Expr

theorem Stmt.wellTyped_bare {s : Stmt ε α} {results : List (Option BasicType)} {S' : Scope} :
    s.bare.WellTyped S results S' ↔ s.WellTyped S results S' := by
  cases s with
  | hole => exact ⟨fun | .hole => .hole, fun | .hole => .hole⟩
  | var tag names type? values =>
    have hscope := Stmt.scope_bare (S := S) (.var tag names type? values)
    rw [bare] at hscope ⊢
    rw [wellTyped_var, wellTyped_var, hscope]
    cases type? <;> simp
  | assign tag targets values =>
    rw [bare, wellTyped_assign, wellTyped_assign]
    refine and_congr_left' (and_congr (by simp) (and_congr (by simp) (and_congr (by simp) ?_)))
    refine forall_congr' fun i => ?_
    rw [List.getElem?_map, List.getElem?_map]
    cases targets[i]? with
    | none => simp
    | some target =>
      cases values[i]? with
      | none => simp
      | some value =>
        simp only [Option.map_some, Option.some.injEq]
        exact ⟨by rintro h _ _ type rfl rfl ht; simpa using h _ _ type rfl rfl (by simpa using ht),
          by rintro h _ _ type rfl rfl ht; simpa using h _ _ type rfl rfl (by simpa using ht)⟩
  | ret tag values =>
    rw [bare, wellTyped_ret, wellTyped_ret]
    refine and_congr_left' (and_congr (by simp) (and_congr (by simp) ?_))
    refine forall_congr' fun i => ?_
    rw [List.getElem?_map]
    cases values[i]? with
    | none => simp
    | some value =>
      simp only [Option.map_some, Option.some.injEq]
      exact ⟨by rintro h _ target rfl ht; exact Expr.fits_retag.1 (h _ target rfl ht),
        by rintro h _ target rfl ht; exact Expr.fits_retag.2 (h _ target rfl ht)⟩
  | expr tag e =>
    rw [bare, wellTyped_expr, wellTyped_expr, Expr.wellTyped_retag]
    cases e <;> rfl

theorem Stmt.bodyWellTyped_bare {results : List (Option BasicType)} {body : List (Stmt ε α)} :
    ∀ {S : Scope}, BodyWellTyped results S (body.map Stmt.bare) ↔ BodyWellTyped results S body := by
  induction body with
  | nil => exact iff_of_true .nil .nil
  | cons s body ih =>
    intro S
    constructor
    · rintro (_ | ⟨hs, hbody⟩)
      exact .cons (wellTyped_bare.1 hs) (ih.1 hbody)
    · rintro (_ | ⟨hs, hbody⟩)
      exact .cons (wellTyped_bare.2 hs) (ih.2 hbody)

theorem Function.entry_bare (signatures : String → Option Signature) (f : Function ε α) :
    f.bare.entry signatures = f.entry signatures := by
  rw [← scope_signature, ← scope_signature, signature_bare]
  exact Scope.declareParams_bare ..

/-- The rules for a program, asked of its functions without tags and of any trivia. -/
theorem Program.wellTyped_iff_bare {p : Program ε α} (trivia : Trivia String) :
    p.WellTyped ↔ (Program.mk (p.functions.map Function.bare) trivia).WellTyped := by
  have hsignature : (Program.mk (p.functions.map Function.bare) trivia).signature?
      = p.signature? := by
    funext name
    rw [signature?, signature?, List.find?_map, Option.map_map]
    congr 1
    exact funext Function.signature_bare
  have hnames : (p.functions.map Function.bare).map Function.name
      = p.functions.map Function.name := by
    rw [List.map_map]
    rfl
  have hresults (f : Function ε α) :
      f.bare.results.map TypeRef.type? = f.results.map TypeRef.type? := by
    rw [Function.bare, List.map_map]
    rfl
  constructor
  · rintro ⟨hp, hr, hd, hbodies⟩
    refine ⟨List.forall_mem_map.2 fun f hf => List.forall_mem_map.2 (hp f hf),
      List.forall_mem_map.2 fun f hf => List.forall_mem_map.2 (hr f hf), hnames ▸ hd,
      List.forall_mem_map.2 fun f hf => ?_⟩
    rw [hsignature, Function.entry_bare, hresults]
    exact Stmt.bodyWellTyped_bare.2 (hbodies f hf)
  · rintro ⟨hp, hr, hd, hbodies⟩
    refine ⟨fun f hf => List.forall_mem_map.1 (List.forall_mem_map.1 hp f hf),
      fun f hf => List.forall_mem_map.1 (List.forall_mem_map.1 hr f hf), hnames ▸ hd,
      fun f hf => ?_⟩
    have hbody := List.forall_mem_map.1 hbodies f hf
    rw [hsignature, Function.entry_bare, hresults] at hbody
    exact Stmt.bodyWellTyped_bare.1 hbody

/-- The rules hold of a program exactly if they hold of one with the same code. -/
theorem Program.SameText.wellTyped_iff {δ : Type} {p : Program ε α} {q : Program δ β}
    (h : p.SameText q) : p.WellTyped ↔ q.WellTyped := by
  rw [p.wellTyped_iff_bare p.trivia, q.wellTyped_iff_bare p.trivia, h.functions]

/-- The checker finds nothing in a program exactly if the program is well typed. -/
theorem check_diagnostics_eq_nil_iff (tree : SourceProgram) :
    (Store.ofProgram tree).program.check.diagnostics = [] ↔ tree.WellTyped := by
  have hs := stored_program tree
  rw [Checked.diagnostics, hs.represents.check_describes.findings, List.map_eq_nil_iff,
    List.map_eq_nil_iff, Program.remarks_eq_nil_iff, hs.sameText.wellTyped_iff]

end Recast
