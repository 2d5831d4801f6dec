import Recast.Proofs.Types.Purity

/-!
# The checker computes the remarks of programs

From expressions to statements, function bodies and programs: the findings of `Program.check` are
those of the remarks, and what it leaves behind tells the type of every expression that it looked
at.
-/

namespace Recast

variable {ε α β : Type}

/-- The name that an assignment to an expression would change, with its tag. -/
def Expr.targetName? : Expr ε α → Option (α × String)
  | .name tag text => some (tag, text)
  | .paren _ inner => inner.targetName?
  | _ => none

/-- The names in a statement that the checker looks at: all but those in targets that are no
variables. -/
def Stmt.names : Stmt ε α → List (α × String)
  | .assign _ targets values => (targets.flatMap fun e => e.targetName?.toList) ++ values.flatMap Expr.names
  | s => s.children.flatMap Expr.names

namespace Checker

variable {S : Scope} {names : List (Placed × String)} {rs qs : List Remark} {st st' st₂ : State}

/-! ### Lists of steps -/

theorem does_mapM {γ : Type} {f : γ → Check β} {g : γ → β} {ns : γ → List (Placed × String)}
    {r : γ → List Remark} {xs : List γ} (h : ∀ x ∈ xs, Does S (f x) (g x) (ns x) (r x)) :
    Does S (xs.mapM f) (xs.map g) (xs.flatMap ns) (xs.flatMap r) := by
  induction xs with
  | nil => exact .pure _
  | cons x xs ih =>
    rw [List.mapM_cons]
    exact (h x List.mem_cons_self).bind
      ((ih fun x hx => h x (List.mem_cons_of_mem _ hx)).bind_nil (.pure _))

theorem Does.map {γ : Type} {x : Check β} {b : β} (h : Does S x b names rs) (f : β → γ) :
    Does S (f <$> x) (f b) names rs := by
  intro st hk hf
  obtain ⟨st', hx, hw⟩ := h st hk hf
  refine ⟨st', ?_, hw⟩
  show (f (x st).1, (x st).2) = _
  rw [hx]

theorem does_resolve (t : TypeRef String) : Does S (resolve t) t.type? [] t.remarks := by
  unfold resolve TypeRef.remarks TypeRef.type?
  cases h : BasicType.ofKeyword? t.name with
  | some type => exact .pure _
  | none => exact .fails (.other _) rfl

theorem does_resolveAll (ts : List (TypeRef String)) :
    Does S (resolveAll ts) (ts.map TypeRef.type?) [] (ts.flatMap TypeRef.remarks) := by
  have h : Does S (resolveAll ts) _ _ _ := does_mapM fun t _ => does_resolve t
  have hnil : ts.flatMap (fun _ => ([] : List (Placed × String))) = [] :=
    List.flatMap_eq_nil_iff.2 fun _ _ => rfl
  rwa [hnil] at h

theorem does_checkTarget (e : PlacedExpr) :
    Does S (checkTarget e) (e.targetType? S) e.targetName?.toList (e.targetRemarks S) := by
  induction e using Expr.inductArgs with
  | name tag text => exact does_checkName tag text
  | paren _ _ ih => exact ih
  | _ => exact .fails (.other _) rfl

/-! ### Scopes that grow -/

/-- What the scope says about names, by their ids. -/
def records (S : Scope) (names : List (Placed × String)) :
    List (ExprId × Option (Option BasicType)) :=
  names.map fun n => (n.1.id, S.locals n.2)

/-- What changes between two states besides the local variables. -/
structure Course (recorded : List (ExprId × Option (Option BasicType))) (remarks : List Remark)
    (st st' : State) : Prop where
  signatures : st'.info.signatures = st.info.signatures
  findings : st'.findings.toList = st.findings.toList ++ remarks.map Remark.finding
  bound : ∀ r ∈ recorded, st'.info.bindings[r.1]? = r.2
  kept : ∀ id, (∀ r ∈ recorded, r.1 ≠ id) → st'.info.bindings[id]? = st.info.bindings[id]?

theorem Walk.course (h : Walk S names rs st st') : Course (records S names) rs st st' where
  signatures := h.signatures
  findings := h.findings
  bound := List.forall_mem_map.2 h.bound
  kept id hid := h.kept id fun _ hn => hid _ (List.mem_map_of_mem hn)

theorem Course.refl : Course [] [] st st := ⟨rfl, by simp, nofun, fun _ _ => rfl⟩

theorem Course.append {recorded more : List (ExprId × Option (Option BasicType))}
    (h : Course recorded rs st st') (h' : Course more qs st' st₂)
    (hne : ∀ r ∈ recorded, ∀ m ∈ more, r.1 ≠ m.1) :
    Course (recorded ++ more) (rs ++ qs) st st₂ where
  signatures := h'.signatures.trans h.signatures
  findings := by rw [h'.findings, h.findings, List.map_append, List.append_assoc]
  bound r hr := by
    rcases List.mem_append.1 hr with hr | hr
    · rw [h'.kept _ fun m hm e => hne r hr m hm e.symm]
      exact h.bound r hr
    · exact h'.bound r hr
  kept id hid := by
    rw [h'.kept id fun r hr => hid r (List.mem_append_right _ hr)]
    exact h.kept id fun r hr => hid r (List.mem_append_left _ hr)

/-- In all states that know the scope `S`, the step walks over the names, makes the remarks and
comes to a state that knows the scope `S'`. -/
def Moves (S S' : Scope) (x : Check Unit) (names : List (Placed × String)) (remarks : List Remark) :
    Prop :=
  ∀ st, Knows S st → Fresh names st →
    ∃ st', x st = ((), st') ∧ Knows S' st' ∧ Course (records S names) remarks st st'

theorem Does.moves {x : Check Unit} (h : Does S x () names rs) : Moves S S x names rs := by
  intro st hk hf
  obtain ⟨st', hx, hw⟩ := h st hk hf
  exact ⟨st', hx, hw.knows hk, hw.course⟩

theorem Does.bind_moves {S' : Scope} {x : Check β} {f : β → Check Unit} {b : β}
    {more : List (Placed × String)} (h : Does S x b names rs) (h' : Moves S S' (f b) more qs) :
    Moves S S' (x >>= f) (names ++ more) (rs ++ qs) := by
  intro st hk hf
  obtain ⟨hf₁, hf₂, hne⟩ := hf.append
  obtain ⟨st₁, hx, hw⟩ := h st hk hf₁
  obtain ⟨st₂, hc, hk', hw'⟩ := h' st₁ (hw.knows hk) (hw.fresh hf₂ hne)
  refine ⟨st₂, ?_, hk', ?_⟩
  · show (match x st with | (b, st') => f b st') = _
    rw [hx]
    exact hc
  · have := hw.course.append hw'
      (List.forall_mem_map.2 fun n hn => List.forall_mem_map.2 fun m hm => hne n hn m hm)
    simpa [records] using this

theorem bind_apply {γ : Type} (x : Check β) (f : β → Check γ) (st : State) :
    (x >>= f) st = f (x st).1 (x st).2 := rfl

theorem moves_declareAll (span : Span) (declared? : Option (Option BasicType)) :
    ∀ (names : List String) (types : List (Option BasicType)) (S : Scope),
      Moves S (S.declareAll declared? names types) (declareAll span declared? names types) []
        (S.declareRemarks span declared? names types)
  | [], _, _ => (Does.pure ()).moves
  | name :: names, types, S => by
    intro st hk _
    let type? := declared?.getD (types.head?.join.map BasicType.default)
    let st₁ : State := { st with locals := st.locals.insert name type? }
    have hk₁ : Knows (S.declare name type?) st₁ := by
      refine ⟨fun x => ?_, hk.signatures⟩
      simp only [st₁, Std.HashMap.getElem?_insert, Scope.declare, hk.locals]
      by_cases hx : name = x
      · simp [hx]
      · simp [hx, Ne.symm hx]
    let found : Check Unit :=
      if (S.locals name).isSome then report span (.redeclared name) else Pure.pure ()
    have hfound : Does (S.declare name type?) found () []
        (if (S.locals name).isSome then [.other ⟨.redeclared name, span⟩] else []) := by
      unfold found
      split
      · exact does_report _ _
      · exact .pure _
    have hstep : declareAll span declared? (name :: names) types st
        = (found >>= fun _ => declareAll span declared? names types.tail) st₁ := by
      have hd : declareLocal name type? st = (!(S.locals name).isSome, st₁) := by
        rw [← hk.contains]
        rfl
      rw [declareAll, bind_apply, hd, bind_apply]
      unfold found
      cases (S.locals name).isSome <;> rfl
    have hrest := moves_declareAll span declared? names types.tail (S.declare name type?)
    obtain ⟨st₂, hx, hk₂, hw⟩ := (hfound.bind_moves (f := fun _ => _) hrest) st₁ hk₁
      ⟨by simp, nofun⟩
    exact ⟨st₂, hstep.trans hx, hk₂, hw.signatures, hw.findings, nofun, fun id _ => hw.kept id nofun⟩

/-! ### Statements -/

theorem does_values (values : List PlacedExpr) :
    Does S (checkExprs [] values) (values.map (Expr.typeIn S)) (values.flatMap Expr.names)
      (values.flatMap (Expr.remarks S)) :=
  does_checkExprs (fun e _ => does_checkExpr e) []

theorem does_checkDeclared? (type? : Option (TypeRef String)) :
    Does S (checkDeclared? type?) (type?.map TypeRef.type?) []
      (type?.toList.flatMap TypeRef.remarks) := by
  cases type? with
  | none => exact .pure _
  | some t =>
    have h : Does S (checkDeclared? (some t)) (some t.type?) [] t.remarks :=
      (does_resolve t).map some
    simpa using h

theorem moves_checkDeclaration (tag : Placed) (names : List String)
    (declared? : Option (Option BasicType)) (values : List PlacedExpr) :
    Moves S (S.declareAll declared? names (values.map (Expr.typeIn S)))
      (checkDeclaration tag names declared? values) (values.flatMap Expr.names)
      (S.declarationRemarks tag names declared? values) := by
  have hdeclare := moves_declareAll tag.span declared? names (values.map (Expr.typeIn S)) S
  unfold checkDeclaration Scope.declarationRemarks
  rw [← List.append_nil (values.flatMap Expr.names)]
  refine (does_values values).bind_moves (f := fun _ => _) ?_
  dsimp only
  split
  · exact (does_report _ _).bind_moves (f := fun _ => _) hdeclare
  · cases declared? with
    | none => exact hdeclare
    | some target? =>
      have hfits : Does S _ () [] _ :=
        does_checkFits (fun i target? => ⟨.varValue tag.id i, .declaration, target?, none⟩)
          (fun _ _ => rfl) values (values.map fun _ => target?) 0
      simpa using hfits.bind_moves (f := fun _ => _) hdeclare

theorem moves_checkStmt (results own : List (Option BasicType)) (s : PlacedStmt) :
    Moves S (s.scope S) (checkStmt results s) s.names (s.remarks S results own) := by
  cases s with
  | hole => exact (Does.pure ()).moves
  | var tag names type? values =>
    exact (does_checkDeclared? type?).bind_moves (f := fun _ => _)
      (moves_checkDeclaration tag names (type?.map TypeRef.type?) values)
  | assign tag targets values =>
    have htargets : Does S (targets.mapM checkTarget) (targets.map (Expr.targetType? S))
        (targets.flatMap fun e => e.targetName?.toList)
        (targets.flatMap (Expr.targetRemarks S)) :=
      does_mapM fun e _ => does_checkTarget e
    unfold checkStmt
    rw [Stmt.remarks, List.append_assoc]
    refine htargets.bind_moves (f := fun _ => _) ?_
    rw [← List.append_nil (values.flatMap Expr.names)]
    refine (does_values values).bind_moves (f := fun _ => _) ?_
    split
    · exact (does_checkFits (fun i target? =>
        ⟨.assignValue tag.id i, .assignment, target?, targets[i]?.map Expr.ref⟩)
        (fun _ _ => rfl) values _ 0).moves
    · exact (does_report _ _).moves
  | ret tag values =>
    unfold checkStmt
    rw [Stmt.remarks]
    have hnames : (Stmt.ret tag values : PlacedStmt).names
        = values.flatMap Expr.names ++ [] := (List.append_nil _).symm
    rw [hnames]
    refine (does_values values).bind_moves (f := fun _ => _) ?_
    split
    · exact (does_checkFits (fun i _ =>
        ⟨.returnValue tag.id i, .result, own[i]?.join, none⟩) (fun _ _ => rfl) values results 0).moves
    · exact (does_report _ _).moves
  | expr tag e =>
    unfold checkStmt
    rw [Stmt.remarks]
    have hnames : (Stmt.expr tag e : PlacedStmt).names = e.names ++ [] := by
      simp [Stmt.names, Stmt.children]
    rw [hnames]
    refine (does_checkExpr e).bind_moves (f := fun _ => _) ?_
    by_cases hc : e.isCall
    · simp only [hc, Bool.not_true, Bool.false_eq_true, if_false, if_true]
      exact (Does.pure ()).moves
    · simp only [hc, Bool.not_false, if_true, Bool.false_eq_true, if_false]
      exact ((does_quote? e (e.typeIn S)).nil_bind (does_report _ _)).moves

/-! ### Bodies -/

/-- What the checker records about the names in statements that follow each other. -/
def bodyRecords (S : Scope) : List PlacedStmt → List (ExprId × Option (Option BasicType))
  | [] => []
  | s :: rest => records S s.names ++ bodyRecords (s.scope S) rest

theorem ids_records (S : Scope) (names : List (Placed × String)) :
    (records S names).map Prod.fst = names.map fun n => n.1.id := by
  simp [records]

theorem ids_bodyRecords (body : List PlacedStmt) : ∀ S : Scope,
    (bodyRecords S body).map Prod.fst = (body.flatMap Stmt.names).map fun n => n.1.id := by
  induction body with
  | nil => exact fun _ => rfl
  | cons s body ih => intro S; rw [bodyRecords, List.map_append, ih, ids_records]; simp

theorem forM_apply {γ : Type} (f : γ → Check Unit) (x : γ) (xs : List γ) (st : State) :
    (x :: xs).forM f st = xs.forM f (f x st).2 := rfl

theorem Course.fresh {recorded : List (ExprId × Option (Option BasicType))}
    (h : Course recorded rs st st') (hf : Fresh names st)
    (hne : ∀ r ∈ recorded, ∀ n ∈ names, r.1 ≠ n.1.id) : Fresh names st' :=
  ⟨hf.distinct, fun n hn => (h.kept _ fun r hr => hne r hr n hn).trans (hf.unbound n hn)⟩

/-- Checking a body makes its remarks. -/
theorem course_body (results own : List (Option BasicType)) (body : List PlacedStmt) :
    ∀ {S : Scope} {st : State}, Knows S st → Fresh (body.flatMap Stmt.names) st →
      ∃ st', body.forM (checkStmt results) st = ((), st') ∧
        Course (bodyRecords S body) (Stmt.bodyRemarks S results own body) st st' := by
  induction body with
  | nil => exact fun _ _ => ⟨_, rfl, .refl⟩
  | cons s body ih =>
    intro S st hk hf
    rw [List.flatMap_cons] at hf
    obtain ⟨hf₁, hf₂, hne⟩ := hf.append
    obtain ⟨st₁, hx, hk₁, hw⟩ := moves_checkStmt results own s st hk hf₁
    obtain ⟨st₂, hy, hw'⟩ := ih hk₁ (hw.fresh hf₂ (List.forall_mem_map.2 hne))
    refine ⟨st₂, by rw [forM_apply, hx]; exact hy, hw.append hw' ?_⟩
    refine List.forall_mem_map.2 fun n hn r hr e => ?_
    have hr' : r.1 ∈ (bodyRecords (s.scope S) body).map Prod.fst := List.mem_map_of_mem hr
    rw [ids_bodyRecords] at hr'
    obtain ⟨m, hm, e'⟩ := List.mem_map.1 hr'
    exact hne n hn m hm (e.trans e'.symm)

/-! ### Functions -/

/-- What the checker records about the names in a function. -/
def functionRecords (signatures : String → Option Signature) (f : PlacedFunction) :
    List (ExprId × Option (Option BasicType)) :=
  match signatures f.name with
  | none => []
  | some signature => bodyRecords (f.scope signatures signature) f.body

theorem ids_functionRecords {signatures : String → Option Signature} {f : PlacedFunction}
    {r : ExprId × Option (Option BasicType)} (h : r ∈ functionRecords signatures f) :
    ∃ n ∈ f.body.flatMap Stmt.names, n.1.id = r.1 := by
  unfold functionRecords at h
  split at h
  · cases h
  · have hm := List.mem_map_of_mem (f := Prod.fst) h
    rw [ids_bodyRecords] at hm
    exact List.mem_map.1 hm

theorem knows_declareParams (params : List (Param String)) (types : List (Option BasicType))
    {signatures : String → Option Signature} {st : State}
    (h : ∀ x, st.info.signatures[x]? = signatures x) :
    Knows ((Scope.mk (fun _ => none) signatures).declareParams params types)
      { st with locals := parameterLocals params types } := by
  unfold Scope.declareParams parameterLocals
  have hstart : Knows ⟨fun _ => none, signatures⟩ { st with locals := ∅ } := ⟨by simp, h⟩
  generalize Scope.mk (fun _ => none) signatures = S at hstart ⊢
  generalize (∅ : Std.HashMap String (Option BasicType)) = locals at hstart ⊢
  induction params.zip types generalizing S locals with
  | nil => exact hstart
  | cons entry entries ih =>
    refine ih _ _ ⟨fun x => ?_, hstart.signatures⟩
    have := hstart.locals x
    dsimp only at this
    simp only [Std.HashMap.getElem?_insert, Scope.declare, this]
    by_cases hx : entry.1.name = x
    · simp [hx]
    · simp [hx, Ne.symm hx]

theorem course_checkFunction {signatures : String → Option Signature} (f : PlacedFunction)
    {st : State} (h : ∀ x, st.info.signatures[x]? = signatures x)
    (hf : Fresh (f.body.flatMap Stmt.names) st) :
    ∃ st', checkFunction f st = ((), st') ∧
      Course (functionRecords signatures f) (f.remarks signatures) st st' := by
  have hstep : checkFunction f st = match signatures f.name with
    | none => ((), st)
    | some signature => f.body.forM (checkStmt signature.results)
        { st with locals := parameterLocals f.params signature.params } := by
    unfold checkFunction
    rw [← h]
    show (match st.info.signatures[f.name]? with | none => _ | some _ => _ : Check Unit) st = _
    cases st.info.signatures[f.name]? <;> rfl
  rw [hstep, functionRecords, Function.remarks]
  cases signatures f.name with
  | none => exact ⟨st, rfl, .refl⟩
  | some signature =>
    obtain ⟨st', hx, hw⟩ := course_body signature.results f.signature.results f.body
      (knows_declareParams f.params signature.params h) ⟨hf.distinct, hf.unbound⟩
    exact ⟨st', hx, hw.signatures, hw.findings, hw.bound, hw.kept⟩

/-! ### Declarations -/

theorem signaturesOf_append (earlier : List PlacedFunction) (f : PlacedFunction) (x : String) :
    signaturesOf (earlier ++ [f]) x = if f.name = x then some f.signature else
      signaturesOf earlier x := by
  unfold signaturesOf
  rw [List.reverse_append, List.reverse_singleton, List.singleton_append, List.find?_cons]
  by_cases h : f.name = x
  · simp [h]
  · simp [h, beq_eq_false_iff_ne.2 h]

theorem isSome_signaturesOf (fs : List PlacedFunction) (x : String) :
    (signaturesOf fs x).isSome = fs.any (·.name == x) := by
  rw [signaturesOf, Option.isSome_map, List.isSome_find?, List.any_reverse]

theorem course_declareFunction {earlier : List PlacedFunction} (f : PlacedFunction) {st : State}
    (h : ∀ x, st.info.signatures[x]? = signaturesOf earlier x) :
    ∃ st', declareFunction f st = ((), st') ∧
      (∀ id : ExprId, st'.info.bindings[id]? = st.info.bindings[id]?) ∧
      (∀ x, st'.info.signatures[x]? = signaturesOf (earlier ++ [f]) x) ∧
      st'.findings.toList = st.findings.toList
        ++ (f.declarationRemarks earlier).map Remark.finding := by
  let S : Scope := ⟨fun x => st.locals[x]?, fun x => st.info.signatures[x]?⟩
  have hk : Knows S st := ⟨fun _ => rfl, fun _ => rfl⟩
  obtain ⟨st₁, hx, hw⟩ := does_resolveAll (S := S) (f.params.map Param.type) st hk ⟨by simp, nofun⟩
  obtain ⟨st₂, hy, hw'⟩ := does_resolveAll (S := S) f.results st₁ (hw.knows hk) ⟨by simp, nofun⟩
  have hsigs : ∀ x, st₂.info.signatures[x]? = signaturesOf earlier x := fun x => by
    rw [hw'.signatures, hw.signatures, h]
  have hfindings : st₂.findings.toList = st.findings.toList
      ++ (f.params.flatMap (fun p => p.type.remarks)
        ++ f.results.flatMap TypeRef.remarks).map Remark.finding := by
    rw [hw'.findings, hw.findings, List.flatMap_map]
    simp
  let st₃ : State := { st₂ with info := { st₂.info with
    signatures := st₂.info.signatures.insert f.name f.signature } }
  have hstep : declareFunction f st
      = (if (signaturesOf earlier f.name).isSome then report f.span (.redeclared f.name)
        else Pure.pure ()) st₃ := by
    have hcontains : st₂.info.signatures.contains f.name
        = (signaturesOf earlier f.name).isSome := by
      rw [Std.HashMap.contains_eq_isSome_getElem?, hsigs]
    unfold declareFunction
    rw [bind_apply, hx, bind_apply]
    dsimp only
    rw [hy, ← hcontains, List.map_map, ← Bool.not_not (st₂.info.signatures.contains f.name)]
    rfl
  have hsigs₃ : ∀ x, st₃.info.signatures[x]? = signaturesOf (earlier ++ [f]) x := by
    intro x
    rw [signaturesOf_append, ← hsigs]
    simp [st₃, Std.HashMap.getElem?_insert]
  have hbindings : ∀ id : ExprId, st₃.info.bindings[id]? = st.info.bindings[id]? := fun id =>
    (hw'.kept id nofun).trans (hw.kept id nofun)
  rw [hstep, Function.declarationRemarks, ← isSome_signaturesOf, List.map_append,
    ← List.append_assoc, ← hfindings]
  split
  · exact ⟨{ st₃ with findings := st₃.findings.push ⟨.redeclared f.name, f.span⟩ }, rfl, hbindings,
      hsigs₃, by simp [st₃, Remark.finding]⟩
  · exact ⟨st₃, rfl, hbindings, hsigs₃, by simp [st₃]⟩

/-! ### Programs -/

theorem course_declarations (fs : List PlacedFunction) :
    ∀ {earlier : List PlacedFunction} {st : State},
      (∀ x, st.info.signatures[x]? = signaturesOf earlier x) →
        ∃ st', fs.forM declareFunction st = ((), st') ∧
          (∀ id : ExprId, st'.info.bindings[id]? = st.info.bindings[id]?) ∧
          (∀ x, st'.info.signatures[x]? = signaturesOf (earlier ++ fs) x) ∧
          st'.findings.toList = st.findings.toList
            ++ (declarationRemarks earlier fs).map Remark.finding := by
  induction fs with
  | nil => exact fun h => ⟨_, rfl, fun _ => rfl, by simpa using h, by simp [declarationRemarks]⟩
  | cons f fs ih =>
    intro earlier st h
    obtain ⟨st₁, hx, hb, hs, hr⟩ := course_declareFunction f h
    obtain ⟨st₂, hy, hb', hs', hr'⟩ := ih hs
    refine ⟨st₂, by rw [forM_apply, hx]; exact hy, fun id => (hb' id).trans (hb id), ?_, ?_⟩
    · simpa using hs'
    · rw [hr', hr, declarationRemarks, List.map_append, List.append_assoc]

theorem course_functions {signatures : String → Option Signature} (fs : List PlacedFunction) :
    ∀ {st : State}, (∀ x, st.info.signatures[x]? = signatures x) →
      Fresh (fs.flatMap fun f => f.body.flatMap Stmt.names) st →
        ∃ st', fs.forM checkFunction st = ((), st') ∧
          Course (fs.flatMap (functionRecords signatures))
            (fs.flatMap (Function.remarks signatures)) st st' := by
  induction fs with
  | nil => exact fun _ _ => ⟨_, rfl, .refl⟩
  | cons f fs ih =>
    intro st h hf
    rw [List.flatMap_cons] at hf
    obtain ⟨hf₁, hf₂, hne⟩ := hf.append
    obtain ⟨st₁, hx, hw⟩ := course_checkFunction f h hf₁
    have hne' : ∀ r ∈ functionRecords signatures f, ∀ m ∈ fs.flatMap fun f =>
        f.body.flatMap Stmt.names, r.1 ≠ m.1.id := by
      intro r hr m hm
      obtain ⟨n, hn, e⟩ := ids_functionRecords hr
      exact e ▸ hne n hn m hm
    obtain ⟨st₂, hy, hw'⟩ := ih (fun x => by rw [hw.signatures, h]) (hw.fresh hf₂ hne')
    refine ⟨st₂, by rw [forM_apply, hx]; exact hy, hw.append hw' fun r hr m hm => ?_⟩
    obtain ⟨g, hg, hm⟩ := List.mem_flatMap.1 hm
    obtain ⟨n, hn, e⟩ := ids_functionRecords hm
    exact e ▸ hne' r hr n (List.mem_flatMap.2 ⟨g, hg, hn⟩)

end Checker

/-- The names in a program that the checker looks at. -/
def Program.names (p : Program ε α) : List (α × String) :=
  p.functions.flatMap fun f => f.body.flatMap Stmt.names

/-- What the checker records about the names in a program. -/
def Program.records (p : PlacedProgram) : List (ExprId × Option (Option BasicType)) :=
  p.functions.flatMap (Checker.functionRecords (signaturesOf p.functions))

theorem Program.ids_records {p : PlacedProgram} {r : ExprId × Option (Option BasicType)}
    (h : r ∈ p.records) : ∃ n ∈ p.names, n.1.id = r.1 := by
  obtain ⟨f, hf, hr⟩ := List.mem_flatMap.1 h
  obtain ⟨n, hn, hid⟩ := Checker.ids_functionRecords hr
  exact ⟨n, List.mem_flatMap.2 ⟨f, hf, hn⟩, hid⟩

/-- What is known about the outcome of a check. -/
structure Checked.Describes (c : Checked) (p : PlacedProgram) : Prop where
  findings : c.findings = p.remarks.map Remark.finding
  signatures : ∀ x, c.info.signatures[x]? = signaturesOf p.functions x
  bound : ∀ r ∈ p.records, c.info.bindings[r.1]? = r.2
  unbound : ∀ id, (∀ r ∈ p.records, r.1 ≠ id) → c.info.bindings[id]? = none

/-- Checking a program makes its remarks, if the names in it have ids of their own. -/
theorem Program.check_describes (p : PlacedProgram)
    (distinct : (p.names.map fun n => n.1.id).Nodup) : p.check.Describes p := by
  have hstart : ∀ x, Checker.start.info.signatures[x]? = signaturesOf ([] : List PlacedFunction) x :=
    fun x => Std.HashMap.getElem?_empty
  obtain ⟨st₁, hx, hb, hs, hr⟩ := Checker.course_declarations p.functions hstart
  have hempty : ∀ id : ExprId, st₁.info.bindings[id]? = none := fun id =>
    (hb id).trans Std.HashMap.getElem?_empty
  obtain ⟨st₂, hy, hw⟩ := Checker.course_functions p.functions hs ⟨distinct, fun n _ => hempty _⟩
  have hcheck : p.check = ⟨st₂.findings.toList, st₂.info⟩ := by
    have : (Checker.checkProgram p) Checker.start = ((), st₂) := by
      unfold Checker.checkProgram
      rw [Checker.bind_apply, hx]
      exact hy
    simp only [Program.check, StateT.run, this]
  rw [hcheck]
  refine ⟨?_, fun x => by rw [hw.signatures, hs]; rfl, hw.bound, fun id hid => ?_⟩
  · rw [hw.findings, hr, Program.remarks, List.map_append]
    rfl
  · rw [hw.kept id hid, hempty]

end Recast
