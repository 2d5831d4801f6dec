import Recast.Proofs.Store.Parsed
import Recast.Proofs.Types.Agreement

/-!
# What every run of the checker yields

The checker runs on an expression in the middle of its walk, when some variables are declared and
little is recorded. `Program.Runs` has all these runs with the states in which they start. What a
run yields is what the queries say after the whole check: the names of an expression get their
records when the checker comes to them, and nothing that comes later touches these.
-/

namespace Recast

namespace Checker

/-- The state after a step has been taken for each item. -/
def afterAll {β γ : Type} (f : γ → Check β) (xs : List γ) (st : State) : State :=
  xs.foldl (fun st x => (f x st).2) st

/-- The state in which the callee of a call is looked up. -/
def bound (callee : PlacedExpr) (st : State) : State := (bindCallee callee st).2

/-- Checking an expression in a state comes to check a second one in a second state. The callee of a
call is checked itself only if it is not a name. -/
inductive Runs : PlacedExpr → State → PlacedExpr → State → Prop where
  | here (e : PlacedExpr) (st : State) : Runs e st e st
  | paren {tag : Placed} {inner e : PlacedExpr} {st st' : State} (run : Runs inner st e st') :
      Runs (.paren tag inner) st e st'
  | neg {tag : Placed} {operand e : PlacedExpr} {st st' : State} (run : Runs operand st e st') :
      Runs (.neg tag operand) st e st'
  | left {tag : Placed} {op : BinaryOp} {left right e : PlacedExpr} {st st' : State}
      (run : Runs left st e st') : Runs (.binary tag op left right) st e st'
  | right {tag : Placed} {op : BinaryOp} {left right e : PlacedExpr} {st st' : State}
      (run : Runs right (checkExpr left st).2 e st') : Runs (.binary tag op left right) st e st'
  | callee {tag : Placed} {callee e : PlacedExpr} {args : List PlacedExpr} {st st' : State}
      (compound : (bound callee st).info.callee callee = .compound)
      (run : Runs callee (bound callee st) e st') : Runs (.call tag callee args) st e st'
  | compoundArg {tag : Placed} {callee arg e : PlacedExpr} {before after : List PlacedExpr}
      {st st' : State} (compound : (bound callee st).info.callee callee = .compound)
      (run : Runs arg (afterAll checkExpr before (checkExpr callee (bound callee st)).2) e st') :
      Runs (.call tag callee (before ++ arg :: after)) st e st'
  | arg {tag : Placed} {callee arg e : PlacedExpr} {before after : List PlacedExpr}
      {st st' : State} (known : (bound callee st).info.callee callee ≠ .compound)
      (run : Runs arg (afterAll checkExpr before (bound callee st)) e st') :
      Runs (.call tag callee (before ++ arg :: after)) st e st'

/-- Checking the target of an assignment comes to check an expression: a name that is not a
variable. -/
inductive TargetRuns : PlacedExpr → State → PlacedExpr → State → Prop where
  | name {tag : Placed} {text : String} {st : State} (unknown : st.locals[text]? = none) :
      TargetRuns (.name tag text) st (.name tag text) st
  | paren {tag : Placed} {inner e : PlacedExpr} {st st' : State} (run : TargetRuns inner st e st') :
      TargetRuns (.paren tag inner) st e st'

/-- Checking a statement in a state comes to check an expression in a second state. -/
inductive StmtRuns : PlacedStmt → State → PlacedExpr → State → Prop where
  | declared {tag : Placed} {names : List String} {type? : Option (TypeRef String)}
      {before after : List PlacedExpr} {value e : PlacedExpr} {st st' : State}
      (run : Runs value (afterAll checkExpr before (checkDeclared? type? st).2) e st') :
      StmtRuns (.var tag names type? (before ++ value :: after)) st e st'
  | target {tag : Placed} {before after values : List PlacedExpr} {target e : PlacedExpr}
      {st st' : State} (run : TargetRuns target (afterAll checkTarget before st) e st') :
      StmtRuns (.assign tag (before ++ target :: after) values) st e st'
  | assigned {tag : Placed} {targets before after : List PlacedExpr} {value e : PlacedExpr}
      {st st' : State}
      (run : Runs value (afterAll checkExpr before (afterAll checkTarget targets st)) e st') :
      StmtRuns (.assign tag targets (before ++ value :: after)) st e st'
  | returned {tag : Placed} {before after : List PlacedExpr} {value e : PlacedExpr} {st st' : State}
      (run : Runs value (afterAll checkExpr before st) e st') :
      StmtRuns (.ret tag (before ++ value :: after)) st e st'
  | expr {tag : Placed} {value e : PlacedExpr} {st st' : State} (run : Runs value st e st') :
      StmtRuns (.expr tag value) st e st'

/-- The state at the start of a function whose name has the given signature. -/
def entered (f : PlacedFunction) (signature : Signature) (st : State) : State :=
  { st with locals := parameterLocals f.params signature.params }

end Checker

/-- Checking a program comes to check an expression in a state. -/
inductive Program.Runs : PlacedProgram → PlacedExpr → Checker.State → Prop where
  | intro {earlier later : List PlacedFunction} {f : PlacedFunction} {trivia : Trivia String}
      {before after : List PlacedStmt} {s : PlacedStmt} {signature : Signature} {e : PlacedExpr}
      {start st : Checker.State}
      (start_eq : start = Checker.afterAll Checker.checkFunction earlier
        (Checker.afterAll Checker.declareFunction (earlier ++ f :: later) Checker.start))
      (known : start.info.signatures[f.name]? = some signature)
      (body : f.body = before ++ s :: after)
      (run : Checker.StmtRuns s (Checker.afterAll (Checker.checkStmt signature.results) before
        (Checker.entered f signature start)) e st) :
      Program.Runs ⟨earlier ++ f :: later, trivia⟩ e st

/-! ### States that are ready -/

theorem Expr.names_of_part {e part : PlacedExpr} (hp : part ∈ e.parts) :
    ∀ n ∈ part.names, n ∈ e.names := fun (_, _) hn =>
  Expr.mem_names.2 (Expr.mem_parts_trans (Expr.mem_names.1 hn) hp)

theorem TypeInfo.calleeNamed_ne_compound (info : TypeInfo) (id : ExprId) (text : String) :
    info.calleeNamed id text ≠ .compound := by
  unfold calleeNamed
  repeat' split
  all_goals simp

namespace Checker

variable {β γ : Type} {S S' : Scope} {names more : List (Placed × String)} {rs : List Remark}
  {st st' : State} {e : PlacedExpr}

/-- The state knows the scope, and nothing is recorded yet about the names, which are those that the
checker meets next. -/
structure Ready (S : Scope) (names : List (Placed × String)) (st : State) : Prop where
  knows : Knows S st
  fresh : Fresh names st

theorem Ready.before (h : Ready S (names ++ more) st) : Ready S names st :=
  ⟨h.knows, h.fresh.append.1⟩

theorem Ready.does {x : Check β} {b : β} (h : Ready S (names ++ more) st)
    (hx : Does S x b names rs) : Ready S more (x st).2 := by
  obtain ⟨hf, hmore, hne⟩ := h.fresh.append
  obtain ⟨st', he, hw⟩ := hx st h.knows hf
  rw [he]
  exact ⟨hw.knows h.knows, hw.fresh hmore hne⟩

theorem Ready.moves {x : Check Unit} (h : Ready S (names ++ more) st)
    (hx : Moves S S' x names rs) : Ready S' more (x st).2 := by
  obtain ⟨hf, hmore, hne⟩ := h.fresh.append
  obtain ⟨st', he, hk, hc⟩ := hx st h.knows hf
  rw [he]
  refine ⟨hk, hc.fresh hmore ?_⟩
  exact List.forall_mem_map.2 hne

theorem Ready.afterAll {f : γ → Check β} {ns : γ → List (Placed × String)} {xs : List γ}
    (hx : ∀ x, ∃ b rs, Does S (f x) b (ns x) rs) :
    ∀ {st : State}, Ready S (xs.flatMap ns ++ more) st → Ready S more (afterAll f xs st) := by
  induction xs with
  | nil => exact fun h => h
  | cons x xs ih =>
    intro st h
    rw [List.flatMap_cons, List.append_assoc] at h
    obtain ⟨b, rs, hd⟩ := hx x
    exact ih (h.does hd)

/-- After some of the expressions of a list the checker is ready for the next one. -/
theorem Ready.next {before after : List PlacedExpr}
    (h : Ready S ((before ++ e :: after).flatMap Expr.names) st) :
    Ready S e.names (Checker.afterAll checkExpr before st) := by
  rw [List.flatMap_append, List.flatMap_cons] at h
  exact (h.afterAll fun x => ⟨_, _, does_checkExpr x⟩).before

theorem Ready.checkExpr_eq (h : Ready S e.names st) : (checkExpr e st).1 = e.typeIn S := by
  obtain ⟨st', he, -⟩ := does_checkExpr e st h.knows h.fresh
  rw [he]

/-! ### Runs start in states that are ready -/

theorem callee_eq_name {info : TypeInfo} {callee : PlacedExpr} (h : info.callee callee ≠ .compound) :
    callee.names = callee.name?.toList := by
  cases callee with
  | name => rfl
  | _ => exact absurd rfl h

theorem name?_eq_none {info : TypeInfo} {callee : PlacedExpr} (h : info.callee callee = .compound) :
    callee.name? = none := by
  cases callee with
  | name tag text => exact absurd h (info.calleeNamed_ne_compound tag.id text)
  | _ => rfl

/-- The callee of a call is bound before the rest of the call is checked. -/
theorem Ready.bound {callee : PlacedExpr}
    (h : Ready S (callee.name?.toList ++ more) st) : Ready S more (Checker.bound callee st) :=
  h.does (does_bindCallee callee)

/-- Nothing is bound if the callee is not a name. -/
theorem Ready.bound_compound {info : TypeInfo} {callee : PlacedExpr} (h : Ready S names st)
    (hc : info.callee callee = .compound) : Ready S names (Checker.bound callee st) :=
  Ready.bound (by rw [name?_eq_none hc]; exact h)

/-- A run from a state that is ready starts in a state that is ready. -/
theorem Runs.ready {e' : PlacedExpr} (h : Runs e st e' st') (hs : Ready S e.names st) :
    Ready S e'.names st' ∧ e' ∈ e.parts := by
  induction h with
  | here => exact ⟨hs, Expr.self_mem_parts _⟩
  | paren _ ih =>
    rw [Expr.names_paren] at hs
    obtain ⟨hr, hp⟩ := ih hs
    exact ⟨hr, Expr.mem_parts_of_child (by simp [Expr.children]) hp⟩
  | neg _ ih =>
    rw [Expr.names_neg] at hs
    obtain ⟨hr, hp⟩ := ih hs
    exact ⟨hr, Expr.mem_parts_of_child (by simp [Expr.children]) hp⟩
  | left _ ih =>
    rw [Expr.names_binary] at hs
    obtain ⟨hr, hp⟩ := ih hs.before
    exact ⟨hr, Expr.mem_parts_of_child (by simp [Expr.children]) hp⟩
  | right _ ih =>
    rw [Expr.names_binary] at hs
    obtain ⟨hr, hp⟩ := ih (hs.does (does_checkExpr _))
    exact ⟨hr, Expr.mem_parts_of_child (by simp [Expr.children]) hp⟩
  | callee compound _ ih =>
    rw [Expr.names_call] at hs
    obtain ⟨hr, hp⟩ := ih (hs.bound_compound compound).before
    exact ⟨hr, Expr.mem_parts_of_child (by simp [Expr.children]) hp⟩
  | @compoundArg _ _ arg _ _ _ _ _ compound _ ih =>
    rw [Expr.names_call] at hs
    obtain ⟨hr, hp⟩ := ih ((hs.bound_compound compound).does (does_checkExpr _)).next
    exact ⟨hr, Expr.mem_parts_of_child (by simp [Expr.children]) hp⟩
  | @arg _ _ arg _ _ _ _ _ known _ ih =>
    rw [Expr.names_call, callee_eq_name known] at hs
    obtain ⟨hr, hp⟩ := ih hs.bound.next
    exact ⟨hr, Expr.mem_parts_of_child (by simp [Expr.children]) hp⟩

/-! ### Statements -/

theorem TargetRuns.ready {e' : PlacedExpr} (h : TargetRuns e st e' st')
    (hs : Ready S e.targetName?.toList st) :
    Ready S e'.names st' ∧ e'.names = e.targetName?.toList ∧ e' ∈ e.parts := by
  induction h with
  | name => exact ⟨hs, rfl, Expr.self_mem_parts _⟩
  | paren _ ih =>
    obtain ⟨hr, hn, hp⟩ := ih hs
    exact ⟨hr, hn, Expr.mem_parts_of_child (by simp [Expr.children]) hp⟩

theorem Ready.nextTarget {before after : List PlacedExpr}
    (h : Ready S ((before ++ e :: after).flatMap (fun e => e.targetName?.toList)) st) :
    Ready S e.targetName?.toList (Checker.afterAll checkTarget before st) := by
  rw [List.flatMap_append, List.flatMap_cons] at h
  exact (h.afterAll fun x => ⟨_, _, does_checkTarget x⟩).before

/-- The expression is in the statement, with names that the checker looks at. -/
structure InStmt (s : PlacedStmt) (e : PlacedExpr) : Prop where
  names : ∀ n ∈ e.names, n ∈ s.names
  part : e ∈ s.children.flatMap Expr.parts

theorem InStmt.of_value {s : PlacedStmt} {value : PlacedExpr} (hv : value ∈ s.values)
    (he : e ∈ value.parts) : InStmt s e where
  names n hn := Stmt.names_of_value hv n (Expr.names_of_part he n hn)
  part := List.mem_flatMap.2 ⟨value, s.values_subset value hv, he⟩

/-- The runs of a statement start in states that are ready. -/
theorem StmtRuns.ready {s : PlacedStmt} (h : StmtRuns s st e st') (hs : Ready S s.names st) :
    Ready S e.names st' ∧ InStmt s e := by
  cases h with
  | @declared tag names type? before after value _ _ _ run =>
    have hvalues : Ready S ([] ++ (before ++ value :: after).flatMap Expr.names) st := hs
    obtain ⟨hr, hp⟩ := run.ready (hvalues.does (does_checkDeclared? type?)).next
    exact ⟨hr, .of_value (by simp [Stmt.values]) hp⟩
  | @target tag before after values target _ _ _ run =>
    obtain ⟨hr, hn, hp⟩ := run.ready hs.before.nextTarget
    have hm : target ∈ before ++ target :: after := by simp
    refine ⟨hr, fun n h => List.mem_append_left _ (List.mem_flatMap.2 ⟨target, hm, hn ▸ h⟩), ?_⟩
    exact List.mem_flatMap.2 ⟨target, List.mem_append_left _ hm, hp⟩
  | @assigned tag targets before after value _ _ _ run =>
    obtain ⟨hr, hp⟩ := run.ready (hs.afterAll fun x => ⟨_, _, does_checkTarget x⟩).next
    exact ⟨hr, .of_value (by simp [Stmt.values]) hp⟩
  | @returned tag before after value _ _ _ run =>
    have hvalues : Ready S ((before ++ value :: after).flatMap Expr.names) st := hs
    obtain ⟨hr, hp⟩ := run.ready hvalues.next
    exact ⟨hr, .of_value (by simp [Stmt.values]) hp⟩
  | @expr tag value _ _ _ run =>
    have hvalue : Ready S ([value].flatMap Expr.names) st := hs
    rw [List.flatMap_singleton] at hvalue
    obtain ⟨hr, hp⟩ := run.ready hvalue
    exact ⟨hr, .of_value (by simp [Stmt.values]) hp⟩

/-! ### Functions -/

theorem Ready.body (results : List (Option BasicType)) {before : List PlacedStmt} :
    ∀ {S : Scope} {st : State}, Ready S (before.flatMap Stmt.names ++ more) st →
      Ready (before.foldl Stmt.scope S) more
        (Checker.afterAll (checkStmt results) before st) := by
  induction before with
  | nil => exact fun h => h
  | cons s before ih =>
    intro S st h
    rw [List.flatMap_cons, List.append_assoc] at h
    exact ih (h.moves (moves_checkStmt results [] s))

/-- The signatures are known, and nothing is recorded yet about the names, which are those that the
checker meets next. -/
structure Prepared (signatures : String → Option Signature) (names : List (Placed × String))
    (st : State) : Prop where
  signatures : ∀ x, st.info.signatures[x]? = signatures x
  fresh : Fresh names st

variable {signatures : String → Option Signature}

theorem Prepared.entered {f : PlacedFunction} (h : Prepared signatures names st)
    (signature : Signature) :
    Ready (f.scope signatures signature) names (Checker.entered f signature st) :=
  ⟨knows_declareParams f.params signature.params h.signatures, h.fresh.distinct, h.fresh.unbound⟩

theorem Prepared.functions {fs : List PlacedFunction} :
    ∀ {st : State}, Prepared signatures ((fs.flatMap fun f => f.body.flatMap Stmt.names) ++ more) st →
      Prepared signatures more (Checker.afterAll checkFunction fs st) := by
  induction fs with
  | nil => exact fun h => h
  | cons f fs ih =>
    intro st h
    rw [List.flatMap_cons, List.append_assoc] at h
    obtain ⟨hf, hmore, hne⟩ := h.fresh.append
    obtain ⟨st', he, hc⟩ := course_checkFunction f h.signatures hf
    refine ih ?_
    show Prepared signatures _ (checkFunction f st).2
    rw [he]
    refine ⟨fun x => hc.signatures ▸ h.signatures x, hc.fresh hmore fun r hr m hm => ?_⟩
    obtain ⟨n, hn, he⟩ := ids_functionRecords hr
    exact he ▸ hne n hn m hm

/-! ### Programs -/

theorem forM_eq_afterAll {f : γ → Check Unit} {xs : List γ} :
    ∀ st : State, xs.forM f st = ((), Checker.afterAll f xs st) := by
  induction xs with
  | nil => exact fun _ => rfl
  | cons x xs ih =>
    intro st
    rw [forM_apply, ih]
    rfl

/-- After the declarations all signatures are known and nothing is recorded about names. -/
theorem prepared_declarations (fs : List PlacedFunction)
    (distinct : (names.map fun n => n.1.id).Nodup) :
    Prepared (signaturesOf fs) names (Checker.afterAll declareFunction fs start) := by
  have hnone : ∀ x, start.info.signatures[x]? = signaturesOf ([] : List PlacedFunction) x :=
    fun x => Std.HashMap.getElem?_empty
  obtain ⟨st, he, hb, hs, -⟩ := course_declarations fs hnone
  rw [forM_eq_afterAll] at he
  obtain rfl := (Prod.mk.inj he).2
  exact ⟨hs, distinct, fun n _ => (hb n.1.id).trans Std.HashMap.getElem?_empty⟩

end Checker

/-- The runs of a check start in states that are ready, each at a statement of the program. -/
theorem Program.Runs.ready {p : PlacedProgram} {e : PlacedExpr} {st : Checker.State}
    (h : p.Runs e st) (distinct : (p.names.map fun n => n.1.id).Nodup) :
    ∃ f before s after signature, p.At f before s after signature ∧
      Checker.Ready (p.scopeAt f signature before) e.names st ∧ Checker.InStmt s e := by
  obtain @⟨earlier, later, f, trivia, before, after, s, signature, _, start, _, rfl, known, body, run⟩
    := h
  have hnames : Program.names (⟨earlier ++ f :: later, trivia⟩ : PlacedProgram)
      = (earlier.flatMap fun f => f.body.flatMap Stmt.names) ++ (before.flatMap Stmt.names
        ++ (s.names ++ (after.flatMap Stmt.names
          ++ later.flatMap fun f => f.body.flatMap Stmt.names))) := by
    simp [Program.names, body]
  have hstart := Checker.prepared_declarations (earlier ++ f :: later) distinct
  rw [hnames] at hstart
  have hf := hstart.functions
  have hs := (hf.entered (f := f) signature).body signature.results
  obtain ⟨hr, hn⟩ := run.ready hs.before
  refine ⟨f, before, s, after, signature, ⟨?_, (hf.signatures f.name).symm.trans known, body⟩, hr, hn⟩
  exact List.mem_append_right _ List.mem_cons_self

/-! ### What runs -/

namespace Checker

theorem Runs.trans {e₁ e₂ : PlacedExpr} {st₁ st₂ : State} (h : Runs e st e₁ st₁)
    (h' : Runs e₁ st₁ e₂ st₂) : Runs e st e₂ st₂ := by
  induction h with
  | here => exact h'
  | paren _ ih => exact .paren (ih h')
  | neg _ ih => exact .neg (ih h')
  | left _ ih => exact .left (ih h')
  | right _ ih => exact .right (ih h')
  | callee compound _ ih => exact .callee compound (ih h')
  | compoundArg compound _ ih => exact .compoundArg compound (ih h')
  | arg known _ ih => exact .arg known (ih h')

/-- The checker comes to all parts of an expression but names that are called. -/
theorem exists_runs : ∀ part ∈ e.parts, part.name? = none → ∀ st, ∃ st', Runs e st part st' := by
  induction e using Expr.inductChildren with
  | step e ih =>
    intro part hpart hname st
    rcases Expr.mem_parts.1 hpart with rfl | ⟨child, hc, hp⟩
    · exact ⟨st, .here part st⟩
    have hchild := ih child hc part hp hname
    cases e with
    | hole | literal | name => cases hc
    | paren tag inner =>
      obtain rfl := List.mem_singleton.1 hc
      exact (hchild st).imp fun _ => .paren
    | neg tag operand =>
      obtain rfl := List.mem_singleton.1 hc
      exact (hchild st).imp fun _ => .neg
    | binary tag op left right =>
      obtain rfl | rfl : child = left ∨ child = right := by simpa [Expr.children] using hc
      · exact (hchild st).imp fun _ => .left
      · exact (hchild _).imp fun _ => .right
    | call tag callee args =>
      rcases List.mem_cons.1 hc with rfl | ha
      · have compound : (bound child st).info.callee child = .compound := by
          cases child with
          | name =>
            obtain rfl := List.mem_singleton.1 hp
            cases hname
          | _ => rfl
        exact (hchild _).imp fun _ => .callee compound
      · obtain ⟨before, after, rfl⟩ := List.append_of_mem ha
        by_cases compound : (bound callee st).info.callee callee = .compound
        · exact (hchild _).imp fun _ => .compoundArg compound
        · exact (hchild _).imp fun _ => .arg compound

theorem exists_stmtRuns {s : PlacedStmt} {value : PlacedExpr} (hv : value ∈ s.values) (st : State) :
    ∃ st₁, ∀ e st', Runs value st₁ e st' → StmtRuns s st e st' := by
  cases s with
  | hole => cases hv
  | expr =>
    obtain rfl := List.mem_singleton.1 hv
    exact ⟨st, fun _ _ => .expr⟩
  | var =>
    obtain ⟨before, after, rfl⟩ := List.append_of_mem hv
    exact ⟨_, fun _ _ => .declared⟩
  | assign =>
    obtain ⟨before, after, rfl⟩ := List.append_of_mem hv
    exact ⟨_, fun _ _ => .assigned⟩
  | ret =>
    obtain ⟨before, after, rfl⟩ := List.append_of_mem hv
    exact ⟨_, fun _ _ => .returned⟩

end Checker

/-- Checking a program comes to all parts of the values in it but names that are called. -/
theorem Program.exists_runs {p : PlacedProgram} (distinct : (p.names.map fun n => n.1.id).Nodup)
    {f : PlacedFunction} (hf : f ∈ p.functions) {s : PlacedStmt} (hs : s ∈ f.body)
    {value part : PlacedExpr} (hv : value ∈ s.values) (hp : part ∈ value.parts)
    (hname : part.name? = none) : ∃ st, p.Runs part st := by
  obtain ⟨functions, trivia⟩ := p
  obtain ⟨earlier, later, rfl⟩ := List.append_of_mem hf
  obtain ⟨before, after, hbody⟩ := List.append_of_mem hs
  have hnames : (⟨earlier ++ f :: later, trivia⟩ : PlacedProgram).names
      = (earlier.flatMap fun f => f.body.flatMap Stmt.names)
        ++ (f :: later).flatMap fun f => f.body.flatMap Stmt.names := List.flatMap_append
  have hstart := Checker.prepared_declarations (earlier ++ f :: later) distinct
  rw [hnames] at hstart
  have hknown : (signaturesOf (earlier ++ f :: later) f.name).isSome := by
    simp [Checker.isSome_signaturesOf]
  obtain ⟨signature, hknown⟩ := Option.isSome_iff_exists.1 hknown
  obtain ⟨st₁, hrun⟩ := Checker.exists_stmtRuns hv (Checker.afterAll
    (Checker.checkStmt signature.results) before (Checker.entered f signature _))
  obtain ⟨st, hst⟩ := Checker.exists_runs part hp hname st₁
  exact ⟨st, .intro rfl ((hstart.functions.signatures f.name).trans hknown) hbody (hrun _ _ hst)⟩

/-- The values in a tree are those of the stored program, up to tags. -/
theorem Stored.exists_value {tree : SourceProgram} {p : PlacedProgram} (h : Stored tree p)
    {f : Function Empty Span} (hf : f ∈ tree.functions) {s : Stmt Empty Span} (hs : s ∈ f.body)
    {v : Expr Empty Span} (hv : v ∈ s.values) : ∃ g ∈ p.functions, ∃ s' ∈ g.body, ∃ v' ∈ s'.values,
      v'.retag Placed.span = v.retag id := by
  have hf' := List.mem_map_of_mem (f := Function.retag id) hf
  rw [← h.functions] at hf'
  obtain ⟨g, hg, hfg⟩ := List.mem_map.1 hf'
  have hs' := List.mem_map_of_mem (f := Stmt.retag id) hs
  rw [show f.body.map (Stmt.retag id) = g.body.map (Stmt.retag Placed.span) from
    congrArg Function.body hfg.symm] at hs'
  obtain ⟨s', hs', hss⟩ := List.mem_map.1 hs'
  have hv' := List.mem_map_of_mem (f := Expr.retag id) hv
  rw [← Stmt.values_retag, ← hss, Stmt.values_retag] at hv'
  obtain ⟨v', hv', hvv⟩ := List.mem_map.1 hv'
  exact ⟨g, hg, s', hs', v', hv', hvv⟩

/-- What a run of the checker on an expression yields is the type that queries about the expression
have after the check, whatever the checker knew when the run started and however it goes on. -/
theorem checkExpr_eq_typeOf (tree : SourceProgram) {e : PlacedExpr} {st : Checker.State}
    (h : (Store.ofProgram tree).program.Runs e st) :
    (Checker.checkExpr e st).1
      = (Store.ofProgram tree).program.check.info.typeOf ((Store.ofProgram tree).expr e.ref) := by
  have hs := (stored_program tree).represents
  obtain ⟨f, before, s, after, signature, hat, hr, he⟩ := h.ready
    (hs.distinct.sublist (Program.names_sublist _))
  have hpart : e ∈ (Store.ofProgram tree).program.parts := by
    obtain ⟨root, hroot, hp⟩ := List.mem_flatMap.1 he.part
    have hbody : s ∈ f.body := by simp [hat.body]
    refine List.mem_flatMap.2 ⟨root, List.mem_flatMap.2 ⟨s, ?_, hroot⟩, hp⟩
    exact List.mem_flatMap.2 ⟨f, hat.function, hbody⟩
  rw [hr.checkExpr_eq, ← (hs.check_describes.knows hat he.names).typeOf_eq, hs.expr hpart]

/-- The callee is a parameter that hides a type. -/
theorem checkExpr_eq_typeOf_hidden :
    ∃ tree e st, parse "func f(int8 int16) \x7b\n\tint8(1)\n\x7d\n" = .ok tree ∧
      (Store.ofProgram tree).program.Runs e st ∧ e.text = "int8(1)" ∧
        (Checker.checkExpr e st).1 = (Store.ofProgram tree).program.check.info.typeOf
          ((Store.ofProgram tree).expr e.ref) := by
  have hchecked : (parse "func f(int8 int16) \x7b\n\tint8(1)\n\x7d\n").toOption.any
      (fun tree => tree.functions.any fun f => f.body.any fun s => s.values.any fun v =>
        v.isCall && v.text == "int8(1)") = true := by
    decide +kernel
  obtain ⟨tree, hp, hc⟩ := exists_parse _ hchecked
  simp only [List.any_eq_true, Bool.and_eq_true, beq_iff_eq] at hc
  obtain ⟨f, hf, s, hs, v, hv, hcall, htext⟩ := hc
  have hstored := stored_program tree
  obtain ⟨f', hf', s', hs', v', hv', hretag⟩ := hstored.exists_value hf hs hv
  have hname : v'.name? = none := by
    cases v <;> cases v' <;> simp_all [Expr.retag, Expr.name?, Expr.isCall]
  obtain ⟨st, hrun⟩ := Program.exists_runs
    (hstored.represents.distinct.sublist (Program.names_sublist _)) hf' hs' hv'
    (Expr.self_mem_parts v') hname
  refine ⟨tree, v', st, hp, hrun, ?_, checkExpr_eq_typeOf tree hrun⟩
  rw [← htext, ← Expr.text_retag Placed.span v', hretag, Expr.text_retag]

end Recast
