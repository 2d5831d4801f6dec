import Recast.Proofs.Tree.Basic
import Recast.Proofs.Types.Remarks

/-!
# The checker computes types and remarks

Run in a state that knows a scope, the checker yields the types and reports the remarks of that
scope, and records of each name what the scope says about it. For that, the names that it meets have
ids of their own and nothing is recorded about them yet.
-/

namespace Recast

variable {ε α β : Type}

/-- The name that an expression is, with its tag. -/
def Expr.name? : Expr ε α → Option (α × String)
  | .name tag text => some (tag, text)
  | _ => none

/-- The names in an expression, in source order. -/
def Expr.names (e : Expr ε α) : List (α × String) := e.parts.filterMap Expr.name?

theorem Expr.mem_names {e : Expr ε α} {tag : α} {text : String} :
    (tag, text) ∈ e.names ↔ Expr.name tag text ∈ e.parts := by
  unfold names
  rw [List.mem_filterMap]
  constructor
  · rintro ⟨part, hp, h⟩
    cases part <;> cases h
    exact hp
  · exact fun h => ⟨_, h, rfl⟩

theorem Expr.names_eq (e : Expr ε α) :
    e.names = e.name?.toList ++ e.children.flatMap Expr.names := by
  unfold names
  rw [parts_eq, List.filterMap_cons, List.filterMap_flatMap]
  cases e.name? <;> rfl

@[simp] theorem Expr.names_name (tag : α) (text : String) :
    (Expr.name tag text : Expr ε α).names = [(tag, text)] := rfl

@[simp] theorem Expr.names_paren (tag : α) (inner : Expr ε α) :
    (Expr.paren tag inner).names = inner.names := by
  simp [Expr.names_eq (.paren tag inner), Expr.name?, Expr.children]

@[simp] theorem Expr.names_neg (tag : α) (operand : Expr ε α) :
    (Expr.neg tag operand).names = operand.names := by
  simp [Expr.names_eq (.neg tag operand), Expr.name?, Expr.children]

@[simp] theorem Expr.names_binary (tag : α) (op : BinaryOp) (left right : Expr ε α) :
    (Expr.binary tag op left right).names = left.names ++ right.names := by
  simp [Expr.names_eq (.binary tag op left right), Expr.name?, Expr.children]

@[simp] theorem Expr.names_call (tag : α) (callee : Expr ε α) (args : List (Expr ε α)) :
    (Expr.call tag callee args).names = callee.names ++ args.flatMap Expr.names := by
  simp [Expr.names_eq (.call tag callee args), Expr.name?, Expr.children]

theorem TypeInfo.calleeNamed_eq_of {info : TypeInfo} {S : Scope} {id : ExprId} {text : String}
    (hn : info.bindings[id]? = S.locals text)
    (hs : info.signatures[text]? = S.signatures text) :
    info.calleeNamed id text = S.calleeNamed text := by
  unfold TypeInfo.calleeNamed Scope.calleeNamed
  exact hn ▸ hs ▸ rfl

namespace Checker

/-- The state knows what names mean in a scope. -/
structure Knows (S : Scope) (st : State) : Prop where
  locals : ∀ x, st.locals[x]? = S.locals x
  signatures : ∀ x, st.info.signatures[x]? = S.signatures x

/-- The names have different ids, about which nothing is recorded. -/
structure Fresh (names : List (Placed × String)) (st : State) : Prop where
  distinct : (names.map fun n => n.1.id).Nodup
  unbound : ∀ n ∈ names, st.info.bindings[n.1.id]? = none

/-- What changes between two states when the checker walks over names and makes remarks. -/
structure Walk (S : Scope) (names : List (Placed × String)) (remarks : List Remark)
    (st st' : State) : Prop where
  locals : st'.locals = st.locals
  signatures : st'.info.signatures = st.info.signatures
  findings : st'.findings.toList = st.findings.toList ++ remarks.map Remark.finding
  bound : ∀ n ∈ names, st'.info.bindings[n.1.id]? = S.locals n.2
  kept : ∀ id, (∀ n ∈ names, n.1.id ≠ id) → st'.info.bindings[id]? = st.info.bindings[id]?

/-- In all states that know the scope, the step yields a value, walks over the names and makes the
remarks. -/
def Does (S : Scope) (x : Check β) (b : β) (names : List (Placed × String))
    (remarks : List Remark) : Prop :=
  ∀ st, Knows S st → Fresh names st → ∃ st', x st = (b, st') ∧ Walk S names remarks st st'

variable {S : Scope} {names more : List (Placed × String)} {rs qs : List Remark} {st st' st₂ : State}

theorem Walk.refl : Walk S [] [] st st := ⟨rfl, rfl, by simp, nofun, fun _ _ => rfl⟩

theorem Walk.knows (h : Walk S names rs st st') (hk : Knows S st) : Knows S st' :=
  ⟨fun x => h.locals ▸ hk.locals x, fun x => h.signatures ▸ hk.signatures x⟩

theorem Fresh.append (h : Fresh (names ++ more) st) : Fresh names st ∧ Fresh more st ∧
    ∀ n ∈ names, ∀ m ∈ more, n.1.id ≠ m.1.id := by
  obtain ⟨hd, hu⟩ := h
  rw [List.map_append, List.nodup_append] at hd
  obtain ⟨hd₁, hd₂, hne⟩ := hd
  exact ⟨⟨hd₁, fun n hn => hu n (List.mem_append_left _ hn)⟩,
    ⟨hd₂, fun n hn => hu n (List.mem_append_right _ hn)⟩, fun n hn m hm =>
      hne _ (List.mem_map_of_mem hn) _ (List.mem_map_of_mem hm)⟩

/-- A walk over names records nothing about other ones. -/
theorem Walk.fresh (h : Walk S names rs st st') (hf : Fresh more st)
    (hne : ∀ n ∈ names, ∀ m ∈ more, n.1.id ≠ m.1.id) : Fresh more st' :=
  ⟨hf.distinct, fun m hm => (h.kept _ fun n hn => hne n hn m hm).trans (hf.unbound m hm)⟩

theorem Walk.append (h : Walk S names rs st st') (h' : Walk S more qs st' st₂)
    (hne : ∀ n ∈ names, ∀ m ∈ more, n.1.id ≠ m.1.id) :
    Walk S (names ++ more) (rs ++ qs) st st₂ where
  locals := h'.locals.trans h.locals
  signatures := h'.signatures.trans h.signatures
  findings := by rw [h'.findings, h.findings, List.map_append, List.append_assoc]
  bound n hn := by
    rcases List.mem_append.1 hn with hn | hn
    · rw [h'.kept _ fun m hm e => hne n hn m hm e.symm]
      exact h.bound n hn
    · exact h'.bound n hn
  kept id hid := by
    rw [h'.kept id fun n hn => hid n (List.mem_append_right _ hn)]
    exact h.kept id fun n hn => hid n (List.mem_append_left _ hn)

/-! ### Steps -/

theorem Does.pure (b : β) : Does S (Pure.pure b) b [] [] :=
  fun st _ _ => ⟨st, rfl, .refl⟩

theorem Does.bind {γ : Type} {x : Check β} {f : β → Check γ} {b : β} {c : γ}
    (h : Does S x b names rs) (h' : Does S (f b) c more qs) :
    Does S (x >>= f) c (names ++ more) (rs ++ qs) := by
  intro st hk hf
  obtain ⟨hf₁, hf₂, hne⟩ := hf.append
  obtain ⟨st₁, hx, hw⟩ := h st hk hf₁
  obtain ⟨st₂, hc, hw'⟩ := h' st₁ (hw.knows hk) (hw.fresh hf₂ hne)
  refine ⟨st₂, ?_, hw.append hw' hne⟩
  show (match x st with | (b, st') => f b st') = _
  rw [hx]
  exact hc

/-- A step that ends with something that neither walks nor remarks. -/
theorem Does.bind_nil {γ : Type} {x : Check β} {f : β → Check γ} {b : β} {c : γ}
    (h : Does S x b names rs) (h' : Does S (f b) c [] []) : Does S (x >>= f) c names rs := by
  simpa using h.bind h'

/-- A step that starts with something that neither walks nor remarks. -/
theorem Does.nil_bind {γ : Type} {x : Check β} {f : β → Check γ} {b : β} {c : γ}
    (h : Does S x b [] []) (h' : Does S (f b) c names rs) : Does S (x >>= f) c names rs := by
  simpa using h.bind h'

/-- A step that looks at the state. -/
theorem Does.get {f : State → Check β} {b : β}
    (h : ∀ st, Knows S st → Does S (f st) b names rs) : Does S (MonadState.get >>= f) b names rs :=
  fun st hk hf => h st hk st hk hf

theorem Does.report (r : Remark) {span : Span} {complaint : Complaint}
    (h : r.finding = ⟨complaint, span⟩) : Does S (report span complaint) () [] [r] :=
  fun st _ _ => ⟨{ st with findings := st.findings.push ⟨complaint, span⟩ }, rfl, rfl, rfl,
    by simp [h], nofun, fun _ _ => rfl⟩

theorem does_report (span : Span) (complaint : Complaint) :
    Does S (Checker.report span complaint) () [] [.other ⟨complaint, span⟩] :=
  .report (.other ⟨complaint, span⟩) rfl

/-- A step that reports something and yields no type. -/
theorem Does.fails (r : Remark) {span : Span} {complaint : Complaint}
    (h : r.finding = ⟨complaint, span⟩) :
    Does S (do Checker.report span complaint; return (none : Option β)) none [] [r] :=
  (Does.report r h).bind_nil (.pure none)

theorem does_local? (name : String) : Does S (local? name) (S.locals name) [] [] :=
  .get fun _ hk => hk.locals name ▸ .pure _

theorem Knows.contains (h : Knows S st) (x : String) :
    st.locals.contains x = (S.locals x).isSome := by
  rw [Std.HashMap.contains_eq_isSome_getElem?, h.locals]

theorem does_quote (e : PlacedExpr) (type : BasicType) :
    Does S (quote e type) (S.quote e type) [] [] := by
  refine .get fun st hk => ?_
  have : modeOf st.locals e type = S.modeOf e type := by
    unfold modeOf Scope.modeOf
    rw [funext hk.contains]
  rw [this]
  exact .pure _

theorem does_quote? (e : PlacedExpr) (type? : Option BasicType) :
    Does S (quote? e type?) (type?.map (S.quote e)) [] [] := by
  cases type? with
  | none => exact .pure _
  | some type => exact (does_quote e type).nil_bind (.pure _)

theorem does_recordVariable (tag : Placed) {name : String} {type? : Option BasicType}
    (h : S.locals name = some type?) : Does S (recordVariable tag.id type?) () [(tag, name)] [] := by
  refine fun st _ _ => ⟨{ st with info := { st.info with
    bindings := st.info.bindings.insert tag.id type? } }, rfl, rfl, rfl, by simp, ?_, ?_⟩
  · rintro n hn
    obtain rfl := List.mem_singleton.1 hn
    simp [h]
  · intro id hid
    have : tag.id ≠ id := hid (tag, name) List.mem_cons_self
    simp [Std.HashMap.getElem?_insert, this]

/-- Nothing is recorded about a name that is not a variable. -/
theorem Does.unbound {x : Check β} {b : β} (tag : Placed) {name : String}
    (h : S.locals name = none) (hx : Does S x b [] rs) : Does S x b [(tag, name)] rs := by
  intro st hk hf
  obtain ⟨st', hx, hw⟩ := hx st hk ⟨by simp, nofun⟩
  refine ⟨st', hx, hw.locals, hw.signatures, hw.findings, ?_, fun id _ => hw.kept id nofun⟩
  rintro n hn
  obtain rfl := List.mem_singleton.1 hn
  rw [hw.kept _ nofun, h]
  exact hf.unbound _ List.mem_cons_self

/-! ### Expressions -/

theorem does_checkName (tag : Placed) (name : String) :
    Does S (checkName tag name) (S.locals name).join [(tag, name)] (S.nameRemarks tag name) := by
  refine (does_local? name).nil_bind ?_
  cases h : S.locals name with
  | some type? =>
    simp only [Scope.nameRemarks, h, Option.isSome_some, if_true]
    exact (does_recordVariable tag h).bind_nil (.pure _)
  | none =>
    refine .unbound tag h (.get fun st hk => ?_)
    simp only [Scope.nameRemarks, h, Option.isSome_none, Bool.false_eq_true, if_false]
    rw [Std.HashMap.contains_eq_isSome_getElem?, hk.signatures]
    exact .fails (.other _) rfl

theorem does_checkFit {value : PlacedExpr} {target? : Option BasicType} {fit : Fit}
    {destination : Destination} (hd : fit.destination = destination) :
    Does S (checkFit value (value.typeIn S) target? destination) () []
      (S.fitRemarks value target? fit) := by
  unfold checkFit Scope.fitRemarks
  cases ht : value.typeIn S with
  | none => exact .pure _
  | some type =>
    cases target? with
    | none => exact .pure _
    | some target =>
      by_cases h : type.assignableTo target
      · simp only [h, Bool.not_true, Bool.false_eq_true, if_false, if_true]
        exact .pure _
      · simp only [h, Bool.not_false, if_true, Bool.false_eq_true, if_false]
        exact (does_quote value type).nil_bind
          (.report (.unfit fit value (S.modeOf value type) type target) (by rw [← hd]; rfl))

theorem does_checkFits {destination : Destination} (fit : Nat → Option BasicType → Fit)
    (hd : ∀ i target?, (fit i target?).destination = destination) :
    ∀ (values : List PlacedExpr) (targets : List (Option BasicType)) (i : Nat),
      Does S (checkFits destination values (values.map (Expr.typeIn S)) targets) () []
        (S.fitsRemarks fit i values targets)
  | [], _, _ => .pure _
  | _ :: _, [], _ => .pure _
  | _ :: values, target? :: targets, i =>
    (does_checkFit (hd i target?)).bind (does_checkFits fit hd values targets (i + 1))

theorem does_checkNegation (tag : Placed) {operand : PlacedExpr} {type : BasicType}
    (h : operand.typeIn S = some type) :
    Does S (checkNegation tag operand type) ((Expr.neg tag operand).typeIn S) []
      (S.negationRemarks tag operand) := by
  unfold checkNegation Scope.negationRemarks
  rw [Expr.typeIn, h]
  by_cases hn : type.isNumeric
  · simp only [hn, if_true, Option.filter]
    exact .pure _
  · simp only [hn, Bool.false_eq_true, if_false, Option.filter]
    exact (does_quote operand type).nil_bind (.fails (.other _) rfl)

theorem does_checkOperands (tag : Placed) (op : BinaryOp) {left right : PlacedExpr}
    {l r : BasicType} (hl : left.typeIn S = some l) (hr : right.typeIn S = some r) :
    Does S (checkOperands tag op left right l r) ((Expr.binary tag op left right).typeIn S) []
      (S.operandRemarks tag op left right) := by
  rw [Expr.typeIn, hl, hr]
  unfold checkOperands Scope.operandRemarks BinaryOp.typeOf? BinaryOp.result?
  rw [hl, hr]
  cases hu : l.unify? r with
  | some operand =>
    by_cases hop : op.isDefinedOn operand
    · simp only [hu, hop, if_true]
      exact .pure _
    · simp only [hu, hop, Bool.false_eq_true, if_false]
      exact (does_quote left l).nil_bind (.fails (.other _) rfl)
  | none =>
    simp only [hu]
    split
    · exact .fails (.other _) rfl
    · split
      · exact .fails (.other _) rfl
      · exact .fails (.operands tag op left right l r) rfl

theorem does_bindCallee (callee : PlacedExpr) :
    Does S (bindCallee callee) () callee.name?.toList [] := by
  cases callee with
  | name tag text =>
    refine (does_local? text).nil_bind ?_
    cases hl : S.locals text with
    | some type? => exact does_recordVariable tag hl
    | none => exact .unbound tag hl (.pure _)
  | _ => exact .pure _

/-- The callee of a call is looked up after it was bound if it is a variable. -/
theorem does_callee {callee : PlacedExpr} {f : State → Check β} {b : β}
    (h : ∀ st, st.info.callee callee = S.callee callee → Does S (f st) b names rs) :
    Does S (do bindCallee callee; f (← get)) b (callee.name?.toList ++ names) rs := by
  cases callee with
  | name tag text =>
    intro st hk hf
    obtain ⟨hf₁, hf₂, hne⟩ := hf.append
    obtain ⟨st₁, hb, hw⟩ := does_bindCallee (.name tag text : PlacedExpr) st hk hf₁
    have hcallee : st₁.info.callee (.name tag text : PlacedExpr)
        = S.callee (.name tag text : PlacedExpr) :=
      TypeInfo.calleeNamed_eq_of (hw.bound _ List.mem_cons_self) ((hw.knows hk).signatures text)
    obtain ⟨st₂, hx, hw'⟩ := h st₁ hcallee st₁ (hw.knows hk) (hw.fresh hf₂ hne)
    refine ⟨st₂, ?_, by simpa [Expr.name?] using hw.append hw' hne⟩
    show (match bindCallee (.name tag text : PlacedExpr) st with
      | (_, st₁) => f st₁ st₁) = _
    rw [hb]
    exact hx
  | _ => exact fun st hk hf => h st rfl st hk hf

theorem does_checkConversion (tag : Placed) (target : BasicType) (args : List PlacedExpr) :
    Does S (checkConversion tag target args (args.map (Expr.typeIn S)))
      (target.converted? (args.map (Expr.typeIn S))) [] (S.conversionRemarks tag target args) := by
  rcases args with _ | ⟨arg, _ | ⟨arg', args⟩⟩
  · exact .fails (.other _) rfl
  · unfold checkConversion BasicType.converted? Scope.conversionRemarks
    cases h : arg.typeIn S with
    | none =>
      simp only [List.map_cons, h]
      exact .pure _
    | some type =>
      simp only [List.map_cons, List.map_nil, h]
      by_cases hc : type.convertibleTo target
      · simp only [hc, if_true]
        exact .pure _
      · simp only [hc, Bool.false_eq_true, if_false]
        exact (does_quote arg type).nil_bind (.fails (.other _) rfl)
  · have hnone : target.converted? ((arg :: arg' :: args).map (Expr.typeIn S)) = none := by
      unfold BasicType.converted?
      split <;> simp_all
    rw [hnone]
    unfold checkConversion
    exact .fails (.other ⟨.extraOperand target, tag.span⟩) rfl

theorem does_checkCall (tag : Placed) (callee : PlacedExpr) (signature : Signature)
    (args : List PlacedExpr) :
    Does S (checkCall tag callee signature args (args.map (Expr.typeIn S))) signature.value? []
      (S.callRemarks tag callee.text signature args) := by
  have hfits : Does S (do
      checkFits (.argument callee.text) args (args.map (Expr.typeIn S))
        (signature.targets args.length)
      return signature.value?) signature.value? [] _ :=
    (does_checkFits (fun i target? =>
      ⟨.callArg tag.id i, .argument callee.text, target?, none⟩) (fun _ _ => rfl) args
      (signature.targets args.length) 0).bind_nil (.pure _)
  unfold checkCall Scope.callRemarks Scope.argumentCountRemarks
  dsimp only
  split
  · exact (does_report _ _).bind hfits
  · by_cases hv : signature.variadic
    · simp only [hv, Bool.not_true, Bool.false_eq_true, if_false, if_true]
      exact hfits
    · simp only [hv, Bool.not_false, if_true, Bool.false_eq_true, if_false]
      cases args[signature.params.length]? with
      | some extra => exact (does_report _ _).bind hfits
      | none => exact hfits

theorem does_checkExprs {es : List PlacedExpr} (h : ∀ e ∈ es,
      Does S (checkExpr e) (e.typeIn S) e.names (e.remarks S)) :
    ∀ found, Does S (checkExprs found es) (found.reverse ++ es.map (Expr.typeIn S))
      (es.flatMap Expr.names) (es.flatMap (Expr.remarks S)) := by
  induction es with
  | nil =>
    intro found
    rw [checkExprs]
    simpa using Does.pure found.reverse
  | cons e es ih =>
    intro found
    rw [checkExprs]
    have hrest := ih (fun e he => h e (List.mem_cons_of_mem _ he)) (e.typeIn S :: found)
    rw [List.reverse_cons, List.append_assoc] at hrest
    exact (h e List.mem_cons_self).bind hrest

/-- Checking an expression yields its type and makes its remarks. -/
theorem does_checkExpr (e : PlacedExpr) :
    Does S (checkExpr e) (e.typeIn S) e.names (e.remarks S) := by
  induction e using Expr.inductArgs with
  | hole => exact .pure _
  | literal _ kind _ => cases kind <;> exact .pure _
  | name tag text => exact does_checkName tag text
  | paren tag inner ih =>
    rw [Expr.names_paren, checkExpr, Expr.typeIn, Expr.remarks]
    exact ih
  | neg tag operand ih =>
    rw [Expr.names_neg, ← List.append_nil operand.names, checkExpr, Expr.remarks]
    refine ih.bind ?_
    cases h : operand.typeIn S with
    | some type => exact does_checkNegation tag h
    | none =>
      rw [Expr.typeIn, Scope.negationRemarks, h]
      exact .pure _
  | binary tag op left right ihl ihr =>
    rw [Expr.names_binary, ← List.append_nil right.names, checkExpr, Expr.remarks,
      List.append_assoc]
    refine ihl.bind (ihr.bind ?_)
    cases hl : left.typeIn S with
    | none =>
      rw [Expr.typeIn, Scope.operandRemarks, hl]
      exact .pure _
    | some l =>
      cases hr : right.typeIn S with
      | none =>
        rw [Expr.typeIn, Scope.operandRemarks, hl, hr]
        exact .pure _
      | some r => exact does_checkOperands tag op hl hr
  | call tag callee args ihc iha =>
    have hargs := does_checkExprs iha []
    rw [List.reverse_nil, List.nil_append] at hargs
    rw [Expr.names_call, checkExpr, Expr.typeIn, Expr.remarks, Expr.remarksAll_eq, Expr.typesIn_eq]
    by_cases hcompound : S.callee callee = .compound
    · have hnone : callee.name? = none := by
        cases callee with
        | name tag text => exact absurd hcompound (S.calleeNamed_ne_compound text)
        | _ => rfl
      have hall : callee.names ++ args.flatMap Expr.names
          = callee.name?.toList ++ (callee.names ++ (args.flatMap Expr.names ++ [])) := by
        simp [hnone]
      rw [hall]
      refine does_callee fun st hst => ?_
      rw [hst, hcompound, List.append_assoc]
      exact ihc.bind (hargs.bind (.fails (.other _) rfl))
    · have hname : callee.names = callee.name?.toList := by
        cases callee with
        | name => rfl
        | _ => exact absurd rfl hcompound
      rw [hname]
      refine does_callee fun st hst => ?_
      have hthen {f : List (Option BasicType) → Check (Option BasicType)} {b : Option BasicType}
          {rs : List Remark} (h : Does S (f (args.map (Expr.typeIn S))) b [] rs) :
          Does S (checkExprs [] args >>= f) b (args.flatMap Expr.names)
            (args.flatMap (Expr.remarks S) ++ rs) := by
        rw [← List.append_nil (args.flatMap Expr.names)]
        exact hargs.bind h
      rw [hst]
      cases hc : S.callee callee with
      | «variable» type? =>
        have hlast : Does S (do
            let quoted? ← quote? callee type?
            report tag.span (.notFunction callee.text quoted?)
            return none) (none : Option BasicType) [] [.other _] :=
          (does_quote? callee type?).nil_bind (.fails (.other _) rfl)
        exact hthen hlast
      | conversion target => exact hthen (does_checkConversion tag target args)
      | function signature => exact hthen (does_checkCall tag callee signature args)
      | println => exact hargs.bind_nil (.pure none)
      | undefined => exact hthen (.fails (.other _) rfl)
      | compound => exact absurd hc hcompound

end Checker

end Recast
