import Recast.Proofs.Types.Runs

/-!
# One mistake, one finding

The type of an expression needs those of operands, of what is in parentheses, of a callee that is not
a name, and of what is converted. If one of these has no type, the expression has none, and nothing
is said about the expression itself. There are two exceptions. A call of what is not a name is always
said to be a call of something that is not a function, and an expression that stands as a statement,
other than a call, is always said to be unused, whatever was said about the callee or the expression
before. There one mistake gives two findings.
-/

namespace Recast

/-- What is said about an expression itself when a type that it needs is not known. -/
def Expr.cascade : PlacedExpr → List Finding
  | .call _ (.name ..) _ => []
  | .call tag callee _ => [⟨.notFunction callee.text none, tag.span⟩]
  | _ => []

namespace Checker

variable {β : Type} {S : Scope} {names more : List (Placed × String)} {rs : List Remark}
  {st st' : State} {e part callee : PlacedExpr} {findings : List Finding}

/-- What a step reports when it is taken in a state. -/
def said (x : Check β) (st : State) : List Finding :=
  (x st).2.findings.toList.drop st.findings.size

/-- The state in which the checker comes to the first part of an expression. -/
def beforeParts : PlacedExpr → State → State
  | .call _ callee _, st => bound callee st
  | _, st => st

/-- An expression that is checked in one state needs the type of a part that is checked in a second
state. -/
inductive Needs : PlacedExpr → State → PlacedExpr → State → Prop where
  | paren {tag : Placed} {inner : PlacedExpr} {st : State} : Needs (.paren tag inner) st inner st
  | neg {tag : Placed} {operand : PlacedExpr} {st : State} :
      Needs (.neg tag operand) st operand st
  | left {tag : Placed} {op : BinaryOp} {left right : PlacedExpr} {st : State} :
      Needs (.binary tag op left right) st left st
  | right {tag : Placed} {op : BinaryOp} {left right : PlacedExpr} {st : State} :
      Needs (.binary tag op left right) st right (checkExpr left st).2
  | callee {tag : Placed} {callee : PlacedExpr} {args : List PlacedExpr} {st : State}
      (compound : (bound callee st).info.callee callee = .compound) :
      Needs (.call tag callee args) st callee (bound callee st)
  | converted {tag : Placed} {callee arg : PlacedExpr} {target : BasicType} {st : State}
      (conversion : (bound callee st).info.callee callee = .conversion target) :
      Needs (.call tag callee [arg]) st arg (bound callee st)

/-- The checker comes to what an expression needs. -/
theorem Needs.runs (h : Needs e st part st') : Runs e st part st' := by
  cases h with
  | paren => exact .paren (.here ..)
  | neg => exact .neg (.here ..)
  | left => exact .left (.here ..)
  | right => exact .right (.here ..)
  | callee compound => exact .callee compound (.here ..)
  | @converted tag callee _ target _ conversion =>
    have known : (bound callee st).info.callee callee ≠ .compound := by simp [conversion]
    exact @Runs.arg tag callee part part [] [] st _ known (.here ..)

/-! ### What is reported -/

theorem said_eq {x : Check β}
    (h : (x st).2.findings.toList = st.findings.toList ++ findings) : said x st = findings := by
  rw [said, h, List.drop_left' Array.length_toList]

theorem Ready.said {x : Check β} {b : β} (h : Ready S names st) (hx : Does S x b names rs) :
    said x st = rs.map Remark.finding := by
  obtain ⟨st', he, hw⟩ := hx st h.knows h.fresh
  exact said_eq (by rw [he]; exact hw.findings)

/-- When the callee of a call is bound, the checker is ready for the parts. -/
theorem Ready.beforeParts (h : Ready S e.names st) :
    Ready S (e.checkedParts.flatMap Expr.names) (beforeParts e st) := by
  cases e with
  | hole | literal => exact h
  | name => exact ⟨h.knows, List.nodup_nil, nofun⟩
  | paren | neg | binary => simpa [Expr.checkedParts, Checker.beforeParts] using h
  | call tag callee args =>
    rw [Expr.names_call] at h
    cases callee with
    | name => exact h.bound
    | _ => exact Ready.bound h

/-- What is reported for an expression is what is reported for its parts, and what is said about
the expression itself. -/
theorem Ready.said_checkExpr (h : Ready S e.names st) : Checker.said (checkExpr e) st
    = Checker.said (checkExprs [] e.checkedParts) (Checker.beforeParts e st)
      ++ (e.ownRemarks S).map Remark.finding := by
  rw [h.said (does_checkExpr e), Expr.remarks_eq, List.map_append,
    h.beforeParts.said (does_checkExprs (fun part _ => does_checkExpr part) [])]

/-- An expression without type that stands as a statement is unused if it is not a call. -/
theorem Ready.said_checkStmt (h : Ready S e.names st) (hnone : e.typeIn S = none)
    (results : List (Option BasicType)) (tag : Placed) :
    Checker.said (checkStmt results (.expr tag e)) st = Checker.said (checkExpr e) st
      ++ if e.isCall then [] else [⟨.unused e.text none, e.span⟩] := by
  have hstmt : Ready S (Stmt.expr tag e : PlacedStmt).names st := by
    simpa [Stmt.names, Stmt.children] using h
  obtain ⟨st', he, -, hc⟩ := moves_checkStmt results [] (.expr tag e) st hstmt.knows hstmt.fresh
  have hsaid := said_eq (x := checkStmt results (.expr tag e)) (by rw [he]; exact hc.findings)
  rw [hsaid, Stmt.remarks, hnone, List.map_append, h.said (does_checkExpr e)]
  split <;> rfl

/-! ### Parts without type -/

/-- The callee that was bound means what the scope says. -/
theorem Ready.callee_eq (h : Ready S (callee.name?.toList ++ more) st) :
    (Checker.bound callee st).info.callee callee = S.callee callee := by
  cases callee with
  | name tag text =>
    obtain ⟨st', he, hw⟩ := does_bindCallee (.name tag text) st h.knows h.before.fresh
    rw [Checker.bound, he]
    exact TypeInfo.calleeNamed_eq_of (hw.bound _ List.mem_cons_self)
      ((hw.knows h.knows).signatures text)
  | _ => rfl

/-- An expression that needs a part without type has no type either. -/
theorem Needs.undetermined (h : Needs e st part st') (hr : Ready S e.names st)
    (hnone : part.typeIn S = none) :
    e.typeIn S = none ∧ (e.ownRemarks S).map Remark.finding = e.cascade := by
  cases h with
  | paren => exact ⟨hnone, rfl⟩
  | neg => simp [Expr.typeIn, Expr.ownRemarks, Scope.negationRemarks, hnone, Expr.cascade]
  | left =>
    simp [Expr.typeIn, BinaryOp.typeOf?, Expr.ownRemarks, Scope.operandRemarks, hnone, Expr.cascade]
  | @right _ _ left _ =>
    cases hleft : left.typeIn S <;>
      simp [Expr.typeIn, BinaryOp.typeOf?, Expr.ownRemarks, Scope.operandRemarks, hleft, hnone,
        Expr.cascade]
  | @callee tag _ args _ compound =>
    cases part with
    | name tag' text => exact absurd compound (TypeInfo.calleeNamed_ne_compound _ tag'.id text)
    | _ => exact ⟨rfl, rfl⟩
  | @converted tag callee _ target _ conversion =>
    cases callee with
    | name tag' text =>
      have hc : S.callee (.name tag' text : PlacedExpr) = .conversion target := by
        rw [← Ready.callee_eq hr, conversion]
      simp [Expr.typeIn, Expr.ownRemarks, hc, Callee.typeOf?, BasicType.converted?,
        Scope.conversionRemarks, hnone, Expr.cascade]
    | _ => cases conversion

end Checker

/-- Whether the left operand of a binary expression is a call of something in parentheses. -/
def Expr.usesCall {ε α : Type} : Expr ε α → Bool
  | .binary _ _ (.call _ (.paren ..) _) _ => true
  | _ => false

theorem Expr.exists_of_usesCall {ε α : Type} {e : Expr ε α} (h : e.usesCall = true) :
    ∃ tag op tag₁ tag₂ inner args right,
      e = .binary tag op (.call tag₁ (.paren tag₂ inner) args) right := by
  unfold usesCall at h
  split at h
  · exact ⟨_, _, _, _, _, _, _, rfl⟩
  · cases h

@[simp] theorem Expr.usesCall_retag {ε α γ : Type} (f : α → γ) (e : Expr ε α) :
    (e.retag f).usesCall = e.usesCall := by
  rcases e with _ | _ | _ | _ | _ | ⟨_, _, left, _⟩ | _ <;> try rfl
  rcases left with _ | _ | _ | _ | _ | _ | ⟨_, callee, _⟩ <;> try rfl
  cases callee <;> rfl

open Checker in
/-- Whenever the checker comes to an expression and a part whose type the expression needs has none,
the expression has no type, and it is reported what is reported for the parts, and nothing more but
for the call of what is not a name. An expression without type that stands as a statement is
reported to be unused, unless it is a call. -/
theorem said_of_undetermined (tree : SourceProgram) {e : PlacedExpr} {st : State}
    (h : (Store.ofProgram tree).program.Runs e st) :
    (∀ part st', Needs e st part st' → (checkExpr part st').1 = none →
      (checkExpr e st).1 = none ∧
        said (checkExpr e) st = said (checkExprs [] e.checkedParts) (beforeParts e st) ++ e.cascade) ∧
      ((checkExpr e st).1 = none → ∀ results tag,
        said (checkStmt results (.expr tag e)) st
          = said (checkExpr e) st ++ if e.isCall then [] else [⟨.unused e.text none, e.span⟩]) := by
  have hs := (stored_program tree).represents
  obtain ⟨f, before, s, after, signature, -, hr, -⟩ := h.ready
    (hs.distinct.sublist (Program.names_sublist _))
  refine ⟨fun part st' hneeds hnone => ?_, fun hnone results tag => ?_⟩
  · rw [(hneeds.runs.ready hr).1.checkExpr_eq] at hnone
    obtain ⟨htype, hown⟩ := hneeds.undetermined hr hnone
    exact ⟨hr.checkExpr_eq.trans htype, hown ▸ hr.said_checkExpr⟩
  · exact hr.said_checkStmt (hr.checkExpr_eq ▸ hnone) results tag

/-- A number in parentheses is called, which is reported, and what comes out is added to another
number. -/
theorem said_of_undetermined_sum : ∃ tree e st part st',
    parse "func f() \x7b\n\t(1)(2) + 3\n\x7d\n" = .ok tree ∧
      (Store.ofProgram tree).program.Runs e st ∧ Checker.Needs e st part st' ∧
        (Checker.checkExpr part st').1 = none ∧ Checker.said (Checker.checkExpr part) st' ≠ [] ∧
          (Checker.checkExpr e st).1 = none ∧ Checker.said (Checker.checkExpr e) st
            = Checker.said (Checker.checkExprs [] e.checkedParts) (Checker.beforeParts e st) ∧
          Checker.said (Checker.checkStmt [] (.expr ⟨0, e.span⟩ e)) st
            = Checker.said (Checker.checkExpr e) st ++ [⟨.unused e.text none, e.span⟩] := by
  have hchecked : (parse "func f() \x7b\n\t(1)(2) + 3\n\x7d\n").toOption.any
      (fun tree => tree.functions.any fun f => f.body.any fun s => s.values.any Expr.usesCall)
        = true := by
    decide +kernel
  obtain ⟨tree, hp, hc⟩ := exists_parse _ hchecked
  simp only [List.any_eq_true] at hc
  obtain ⟨f, hf, s, hs, v, hv, hshape⟩ := hc
  have hstored := stored_program tree
  have hdistinct := hstored.represents.distinct.sublist (Program.names_sublist _)
  obtain ⟨f', hf', s', hs', v', hv', hretag⟩ := hstored.exists_value hf hs hv
  obtain ⟨tag, op, tag₁, tag₂, inner, args, right, rfl⟩ := Expr.exists_of_usesCall (e := v')
    (by rw [← Expr.usesCall_retag Placed.span, hretag, Expr.usesCall_retag, hshape])
  obtain ⟨st, hrun⟩ := Program.exists_runs hdistinct hf' hs' hv' (Expr.self_mem_parts _) rfl
  obtain ⟨_, _, _, _, _, -, hready, -⟩ := hrun.ready hdistinct
  have hneeds := @Checker.Needs.left tag op (.call tag₁ (.paren tag₂ inner) args) right st
  have hsaid := (hneeds.runs.ready hready).1.said (Checker.does_checkExpr _)
  obtain ⟨hparts, hstmt⟩ := said_of_undetermined tree hrun
  obtain ⟨hnone, heq⟩ := hparts _ _ hneeds rfl
  refine ⟨tree, _, st, _, st, hp, hrun, hneeds, rfl, ?_, hnone, ?_, hstmt hnone [] _⟩
  · simp [hsaid, Expr.remarks, Scope.callee]
  · simpa [Expr.cascade] using heq

/-- A name that means nothing and stands as a statement: one mistake, two findings. -/
example : Checker.said (Checker.checkStmt []
    (.expr ⟨0, ⟨12, 13⟩⟩ (.name ⟨0, ⟨12, 13⟩⟩ "q" : PlacedExpr))) Checker.start
      = [⟨.undefined "q", ⟨12, 13⟩⟩, ⟨.unused "q" none, ⟨12, 13⟩⟩] := by
  cbv

/-- A name that means nothing and is called in parentheses: again two findings. -/
example : Checker.said (Checker.checkExpr (.call ⟨3, ⟨12, 18⟩⟩
    (.paren ⟨1, ⟨12, 15⟩⟩ (.name ⟨0, ⟨13, 14⟩⟩ "q")) [.literal ⟨2, ⟨16, 17⟩⟩ .int "1"] : PlacedExpr))
      Checker.start = [⟨.undefined "q", ⟨13, 14⟩⟩, ⟨.notFunction "(q)" none, ⟨12, 18⟩⟩] := by
  cbv

end Recast
