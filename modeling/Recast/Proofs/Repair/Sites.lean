import Recast.Proofs.Repair.Pass
import Recast.Proofs.Repair.Progress

/-!
# Where a pass mends something

Each conversion that a pass makes stands at one place of the program, and it mends what the checker
says about that place in the scope that holds there.
-/

namespace Recast

variable {β γ : Type}

/-! ### Statements have one place -/

/-- A list made of lists without repetitions is split in one way at an item of one of them. -/
theorem split_unique {g : β → List γ} {x y : β} {a : γ} (hx : a ∈ g x) (hy : a ∈ g y)
    {xs xs' ys ys' : List β} (hnodup : ((xs ++ x :: xs').flatMap g).Nodup)
    (heq : xs ++ x :: xs' = ys ++ y :: ys') : xs = ys ∧ x = y := by
  rw [List.flatMap_append, List.flatMap_cons, List.nodup_append] at hnodup
  obtain ⟨-, hafter, hbefore⟩ := hnodup
  have hxs : y ∉ xs := fun hmem =>
    hbefore a (List.mem_flatMap.2 ⟨y, hmem, hy⟩) a (List.mem_append_left _ hx) rfl
  have hxs' : y ∉ xs' := fun hmem =>
    (List.nodup_append.1 hafter).2.2 a hx a (List.mem_flatMap.2 ⟨y, hmem, hy⟩) rfl
  obtain ⟨hsame, hitem, -⟩ := (List.append_cons_inj_of_notMem hxs hxs').1 heq
  exact ⟨hsame, hitem⟩

section Sites

variable {p : PlacedProgram} {c : Checked} {info : TypeInfo} {f f' : PlacedFunction}
  {before before' after after' : List PlacedStmt} {st st' : PlacedStmt}
  {signature signature' : Signature} {base : Nat} {done : List Remark} {s t : Store}
  {W : Insertions BasicType} {v e root part : PlacedExpr} {type wanted : BasicType} {i : Insertion BasicType}
  {slot : Slot} {r : Remark}

/-- The expressions of a statement are in no other one. -/
theorem Program.At.unique (distinct : (p.parts.map Expr.ref).Nodup)
    (h : p.At f before st after signature) (h' : p.At f' before' st' after' signature')
    (he : e ∈ st.children.flatMap Expr.parts) (he' : e ∈ st'.children.flatMap Expr.parts) :
    f' = f ∧ before' = before ∧ st' = st ∧ signature' = signature := by
  have hnodup := distinct.of_map
  rw [Program.parts_eq] at hnodup
  have hmem {f : PlacedFunction} {before : List PlacedStmt} {st : PlacedStmt}
      {after : List PlacedStmt} {signature : Signature} (h : p.At f before st after signature)
      (he : e ∈ st.children.flatMap Expr.parts) :
      e ∈ f.body.flatMap fun s => s.children.flatMap Expr.parts :=
    List.mem_flatMap.2 ⟨st, by simp [h.body], he⟩
  obtain rfl := eq_of_mem_flatMap hnodup h'.function h.function (hmem h' he') (hmem h he)
  have hbody := Store.nodup_of_mem_flatMap hnodup h.function
  rw [h'.body] at hbody
  obtain ⟨rfl, rfl⟩ := split_unique (g := fun s : PlacedStmt => s.children.flatMap Expr.parts)
    he' he hbody (h'.body.symm.trans h.body)
  exact ⟨rfl, rfl, rfl, Option.some.inj (h'.signature.symm.trans h.signature)⟩

/-! ### What a pass mends -/

/-- The slot of a value of a statement. -/
def Stmt.slotAt? (k : Nat) : PlacedStmt → Option Slot
  | .var tag _ _ _ => some (.varValue tag.id k)
  | .assign tag _ _ => some (.assignValue tag.id k)
  | .ret tag _ => some (.returnValue tag.id k)
  | _ => none

/-- The conversion goes around a child of an expression, in a slot, and mends what the checker says
about it. -/
inductive Insertion.MendsChild (i : Insertion BasicType) (W : Insertions BasicType) (S : Scope) (v : PlacedExpr) :
    PlacedExpr → Slot → Prop where
  | argument {tag : Placed} {callee : PlacedExpr} {args : List PlacedExpr} {signature : Signature}
      {k : Nat} (present : args[k]? = some v) (function : S.callee callee = .function signature)
      (mends : i.Mends S (signature.wantedAt args.length k) v) :
      MendsChild i W S v (.call tag callee args) (.callArg tag.id k)
  | left {tag : Placed} {op : BinaryOp} {right : PlacedExpr} (apart : S.Apart v right)
      (other : W right.ref = none) (mends : i.Mends S (right.typeIn S) v) :
      MendsChild i W S v (.binary tag op v right) (.operand tag.id .left)
  | right {tag : Placed} {op : BinaryOp} {left : PlacedExpr} (apart : S.Apart left v)
      (other : W left.ref = none) (mends : i.Mends S (left.typeIn S) v) :
      MendsChild i W S v (.binary tag op left v) (.operand tag.id .right)

/-- The conversion goes around a value in a statement, in a slot, and mends what the checker says
about it. -/
inductive Insertion.MendsIn (i : Insertion BasicType) (W : Insertions BasicType) (S : Scope)
    (own : List (Option BasicType)) (v : PlacedExpr) (st : PlacedStmt) : Slot → Prop where
  | value {k : Nat} {slot : Slot} (present : st.values[k]? = some v)
      (stands : st.slotAt? k = some slot) (mends : i.Mends S (st.wantedAt S own k) v) :
      MendsIn i W S own v st slot
  | child {root part : PlacedExpr} {slot : Slot} (mem_values : root ∈ st.values)
      (mem_parts : part ∈ root.parts) (mends : i.MendsChild W S v part slot) :
      MendsIn i W S own v st slot

theorem Insertion.MendsChild.mem_children {S : Scope} (h : i.MendsChild W S v e slot) :
    v ∈ e.children := by
  cases h with
  | argument present => exact List.mem_cons_of_mem _ (List.mem_of_getElem? present)
  | left | right => simp [Expr.children]

theorem Insertion.MendsIn.mem_parts {S : Scope} {own : List (Option BasicType)}
    (h : i.MendsIn W S own v st slot) : v ∈ st.values.flatMap Expr.parts := by
  cases h with
  | value present =>
    exact List.mem_flatMap.2 ⟨v, List.mem_of_getElem? present, v.self_mem_parts⟩
  | child hr hp hm =>
    exact List.mem_flatMap.2 ⟨_, hr, Expr.child_mem_parts hp hm.mem_children⟩

theorem Scope.name_of_conversion {S : Scope} {text : String}
    (h : S.calleeNamed text = .conversion type) : text = type.name := by
  cases refers_of_calleeNamed h with
  | conversion _ keyword =>
    have hname : type.name = text := by simpa using List.find?_some keyword
    exact hname.symm

/-- A conversion that is no repetition by what the check found is none in the scope. -/
theorem Checked.Describes.not_repeats (hc : c.Describes p)
    (hat : p.At f before st after signature) (hr : root ∈ st.values) (hv : v ∈ root.parts)
    (typed : v.typeIn (p.scopeAt f signature before) = some type)
    (news : ¬ c.info.Repeats v type wanted)
    (heq : v.typeIn (p.scopeAt f signature before) = some wanted) :
    (p.scopeAt f signature before).repeats wanted v = false := by
  obtain rfl := Option.some.inj (typed.symm.trans heq)
  rw [Bool.eq_false_iff]
  intro hrepeats
  unfold Scope.repeats at hrepeats
  split at hrepeats
  · rename_i tag callee arg
    rw [Bool.and_eq_true] at hrepeats
    obtain ⟨hcallee, harg⟩ := hrepeats
    refine news ?_
    cases callee with
    | name calleeTag text =>
      have hname : text = type.name := by
        split at hcallee
        · rename_i target hconversion
          rw [eq_of_beq hcallee] at hconversion
          exact Scope.name_of_conversion hconversion
        · cases hcallee
      subst hname
      refine ⟨tag, calleeTag, arg, rfl, ?_⟩
      have hmem : arg ∈ root.parts := Expr.child_mem_parts hv (by simp [Expr.children])
      rw [hc.typeOf_eq hat hr hmem]
      simpa using harg
    | _ => cases hcallee
  · cases hrepeats

/-- Where the conversion goes that a remark calls for. -/
theorem Remark.Mends.site (hm : r.Mends c.info p slot v i.type) (hc : c.Describes p)
    (distinct : (p.parts.map Expr.ref).Nodup) (hr : r ∈ p.remarks)
    (hother : ∀ id ∈ r.values, id ≠ v.ref → W id = none) :
    ∃ f before st after signature, p.At f before st after signature ∧
      i.MendsIn W (p.scopeAt f signature before) f.signature.results v st slot := by
  have hwritten := hm.written
  cases hm with
  | value unfit sought convertible news =>
    obtain ⟨f, before, st, after, signature, hat, misfit, hsite⟩ := Program.unfit_site hr
    refine ⟨f, before, st, after, signature, hat, ?_⟩
    have hmends {root : PlacedExpr} (hroot : root ∈ st.values) (hv : v ∈ root.parts)
        {wanted? : Option BasicType} (hw : wanted? = some i.type) :
        i.Mends (p.scopeAt f signature before) wanted? v :=
      ⟨hw, hwritten, ⟨_, misfit.typed, convertible⟩,
        hc.not_repeats hat hroot hv misfit.typed news⟩
    rcases hsite with takes | ⟨root, hroot, part, hp, takes⟩
    · have hroot := takes.mem_values
      have hv := v.self_mem_parts
      cases takes with
      | declaration present taken => exact .value present rfl (hmends hroot hv (taken.trans sought))
      | assignment present assigned taken =>
        refine .value present rfl (hmends hroot hv ?_)
        rw [Stmt.wantedAt, assigned]
        exact taken.trans sought
      | result present taken => exact .value present rfl (hmends hroot hv sought)
    · have hv : v ∈ root.parts := Expr.child_mem_parts hp takes.mem_children
      cases takes with
      | argument function present taken =>
        refine .child hroot hp (.argument present function (hmends hroot hv ?_))
        rw [Signature.wantedAt, taken]
        exact sought
  | right apart convertible =>
    obtain ⟨f, before, st, after, signature, hat, mismatch, root, hroot, hp⟩ :=
      Program.operands_site hr
    refine ⟨f, before, st, after, signature, hat, .child hroot hp ?_⟩
    refine .right ⟨_, _, mismatch.typedLeft, mismatch.typedRight, mismatch.apart⟩
      (hother _ (by simp [Remark.values]) (apart.ref_ne distinct))
      ⟨mismatch.typedLeft, hwritten, ⟨_, mismatch.typedRight, convertible⟩, fun heq => ?_⟩
    obtain rfl := Option.some.inj (mismatch.typedRight.symm.trans heq)
    cases (BasicType.unify?_self _).symm.trans mismatch.apart
  | left apart convertible =>
    obtain ⟨f, before, st, after, signature, hat, mismatch, root, hroot, hp⟩ :=
      Program.operands_site hr
    refine ⟨f, before, st, after, signature, hat, .child hroot hp ?_⟩
    refine .left ⟨_, _, mismatch.typedLeft, mismatch.typedRight, mismatch.apart⟩
      (hother _ (by simp [Remark.values]) (apart.ref_ne distinct).symm)
      ⟨mismatch.typedRight, hwritten, ⟨_, mismatch.typedLeft, convertible⟩, fun heq => ?_⟩
    obtain rfl := Option.some.inj (mismatch.typedLeft.symm.trans heq)
    cases (BasicType.unify?_self _).symm.trans mismatch.apart

/-- Conversions around children of an expression mend what the checker says about the children, if
each of them does. -/
theorem Insertions.mendsBelow_of_child {S : Scope} (distinct : (e.children.map Expr.ref).Nodup)
    (h : ∀ v ∈ e.children, ∀ i, W v.ref = some i → ∃ slot, i.MendsChild W S v e slot) :
    W.MendsBelow S e := by
  have hnone {v : PlacedExpr} (hv : v ∈ e.children)
      (hno : ∀ (i : Insertion BasicType) slot, ¬ i.MendsChild W S v e slot) : W v.ref = none := by
    refine Option.eq_none_iff_forall_ne_some.2 fun i hi => ?_
    obtain ⟨slot, hm⟩ := h v hv i hi
    exact hno i slot hm
  cases e with
  | hole | literal | name => trivial
  | paren | neg => exact hnone (by simp [Expr.children]) fun i slot hm => by cases hm
  | binary tag op left right =>
    cases hleft : W left.ref with
    | some i =>
      obtain ⟨slot, hm⟩ := h left (by simp [Expr.children]) i hleft
      cases hm with
      | left apart other mends => exact .inr ⟨apart, .inl ⟨i, hleft, other, mends⟩⟩
      | right _ other => cases other.symm.trans hleft
    | none =>
      cases hright : W right.ref with
      | none => exact .inl ⟨hleft, hright⟩
      | some i =>
        obtain ⟨slot, hm⟩ := h right (by simp [Expr.children]) i hright
        cases hm with
        | right apart other mends => exact .inr ⟨apart, .inr ⟨i, hright, other, mends⟩⟩
        | left _ other => cases other.symm.trans hright
  | call tag callee args =>
    obtain ⟨hcallee, hargs⟩ := List.nodup_cons.1 distinct
    refine ⟨hnone List.mem_cons_self fun i slot hm => ?_, fun k arg i hk hi => ?_⟩
    · cases hm with
      | argument present =>
        exact hcallee (List.mem_map_of_mem (List.mem_of_getElem? present))
    · obtain ⟨slot, hm⟩ := h arg (List.mem_cons_of_mem _ (List.mem_of_getElem? hk)) i hi
      cases hm with
      | argument present function mends =>
        obtain ⟨hlt, -⟩ := List.getElem?_eq_some_iff.1 hk
        obtain rfl := (List.getElem?_inj hlt hargs.of_map).1 (hk.trans present.symm)
        exact ⟨_, function, mends⟩

section Pass

variable (h : Pass c.info p base done s W) (hc : c.Describes p)
  (distinct : (p.parts.map Expr.ref).Nodup) (hdone : ∀ r ∈ done, r ∈ p.remarks)
  (hat : p.At f before st after signature)
include h hc distinct hdone hat

/-- A conversion that is in a statement mends something in this statement. -/
theorem Pass.exists_mendsIn (hv : v ∈ st.children.flatMap Expr.parts) (hi : W v.ref = some i) :
    ∃ slot, i.MendsIn W (p.scopeAt f signature before) f.signature.results v st slot := by
  obtain ⟨root, hr, hp⟩ := List.mem_flatMap.1 hv
  have hmem : v ∈ p.parts :=
    List.mem_flatMap.2 ⟨root, List.mem_flatMap.2 ⟨st, hat.mem_stmts, hr⟩, hp⟩
  obtain ⟨r, hr, slot, hm, hother⟩ := h.mended v hmem i hi
  obtain ⟨f', before', st', after', signature', hat', hm⟩ :=
    hm.site hc distinct (hdone r hr) hother
  have hv' : v ∈ st'.children.flatMap Expr.parts := by
    rw [Stmt.children_eq, List.flatMap_append]
    exact List.mem_append_right _ hm.mem_parts
  obtain ⟨rfl, rfl, rfl, rfl⟩ := hat.unique distinct hat' hv hv'
  exact ⟨slot, hm⟩

/-- A conversion around a value of a statement mends what is said about the value. -/
theorem Pass.mends_value {k : Nat} (hk : st.values[k]? = some v) (hi : W v.ref = some i) :
    i.Mends (p.scopeAt f signature before)
      (st.wantedAt (p.scopeAt f signature before) f.signature.results k) v := by
  have hv := st.values_subset v (List.mem_of_getElem? hk)
  obtain ⟨slot, hm⟩ := h.exists_mendsIn hc distinct hdone hat
    (List.mem_flatMap.2 ⟨v, hv, v.self_mem_parts⟩) hi
  cases hm with
  | value present _ mends =>
    have hchildren := Store.nodup_of_mem_flatMap (Program.nodup_places distinct).1 hat.mem_stmts
    have hvalues : st.values.Nodup := (hchildren.sublist (st.values_sublist.map _)).of_map
    obtain ⟨hlt, -⟩ := List.getElem?_eq_some_iff.1 hk
    obtain rfl := (List.getElem?_inj hlt hvalues).1 (hk.trans present.symm)
    exact mends
  | child hr hp hm =>
    exact absurd rfl
      (Program.ref_ne_of_root distinct hat.mem_stmts hv (hat.mem_parts hr hp) hm.mem_children)

/-- A conversion around a child of an expression mends what is said about the child. -/
theorem Pass.exists_mendsChild (hr : root ∈ st.values) (hp : part ∈ root.parts)
    (hv : v ∈ part.children) (hi : W v.ref = some i) :
    ∃ slot, i.MendsChild W (p.scopeAt f signature before) v part slot := by
  have hmem := hat.mem_parts hr hp
  have hin : v ∈ root.parts :=
    Expr.child_mem_parts hp hv
  obtain ⟨slot, hm⟩ := h.exists_mendsIn hc distinct hdone hat
    (List.mem_flatMap.2 ⟨root, st.values_subset root hr, hin⟩) hi
  cases hm with
  | value present =>
    exact absurd rfl (Program.ref_ne_of_root distinct hat.mem_stmts
      (st.values_subset v (List.mem_of_getElem? present)) hmem hv)
  | child hr' hp' hm =>
    obtain rfl :=
      Program.parent_unique distinct hmem (hat.mem_parts hr' hp') hv hm.mem_children rfl
    exact ⟨slot, hm⟩

/-- No conversion is made in what is assigned to. -/
theorem Pass.eq_none_of_target {goal : PlacedExpr} (hg : goal ∈ st.targets)
    (hp : part ∈ goal.parts) : W part.ref = none := by
  refine Option.eq_none_iff_forall_ne_some.2 fun i hi => ?_
  have htarget : part ∈ st.targets.flatMap Expr.parts := List.mem_flatMap.2 ⟨goal, hg, hp⟩
  have hparts := distinct.of_map
  rw [Program.parts_eq] at hparts
  replace hparts := Store.nodup_of_mem_flatMap
    (Store.nodup_of_mem_flatMap hparts hat.function) (show st ∈ f.body by simp [hat.body])
  rw [Stmt.children_eq, List.flatMap_append] at hparts
  have hin : part ∈ st.children.flatMap Expr.parts := by
    rw [Stmt.children_eq, List.flatMap_append]
    exact List.mem_append_left _ htarget
  obtain ⟨slot, hm⟩ := h.exists_mendsIn hc distinct hdone hat hin hi
  exact (List.nodup_append.1 hparts).2.2 part htarget part hm.mem_parts rfl

end Pass

/-- The conversions of a pass mend what the checker says about the program. -/
theorem Pass.mendsProgram (h : Pass c.info p base done s W) (hc : c.Describes p)
    (distinct : (p.parts.map Expr.ref).Nodup) (hdone : ∀ r ∈ done, r ∈ p.remarks) :
    W.MendsProgram p := by
  intro f before st after signature hat
  refine ⟨?_, ?_, ?_, ?_⟩
  · intro k v i hk hi
    exact h.mends_value hc distinct hdone hat hk hi
  · intro root hr part hp
    refine Insertions.mendsBelow_of_child ?_ fun v hv i hi =>
      h.exists_mendsChild hc distinct hdone hat hr hp hv hi
    exact Store.nodup_of_mem_flatMap (Program.nodup_places distinct).2.1 (hat.mem_parts hr hp)
  · intro goal hg part hp
    exact h.eq_none_of_target hc distinct hdone hat hg hp
  · intro e he i hi
    obtain ⟨root, hr, hp⟩ := List.mem_flatMap.1 he
    exact h.sound.written e (hat.mem_parts hr hp) i hi

end Sites

end Recast
