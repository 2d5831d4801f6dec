import Recast.Proofs.Repair.Insert
import Recast.Proofs.Repair.Locate

/-!
# Sound insertions

The types that a check knows are kept when conversions go around values that have a type, as long as
that type is no part of another one: the arguments of a function call and the operands of a binary
expression without a type may change theirs.
-/

namespace Recast

/-! ### Types of trees with conversions -/

@[simp] theorem BasicType.ofKeyword?_name {t : BasicType} (h : t.isUntyped = false) :
    ofKeyword? t.name = some t := by
  revert h
  cases t <;> decide

/-- Conversions around children of an expression leave its type alone, if it has one. -/
def Insertions.Respects (W : Insertions BasicType) (info : TypeInfo) : PlacedExpr → Prop
  | .paren _ inner => W inner.ref = none
  | .neg _ operand => W operand.ref = none
  | .binary _ _ left right => (W left.ref = none ∧ W right.ref = none) ∨
    ∃ l r, info.typeOf left = some l ∧ info.typeOf right = some r ∧ l.unify? r = none
  | .call _ callee args => W callee.ref = none ∧
    ((∀ arg ∈ args, W arg.ref = none) ∨ ∃ signature, info.callee callee = .function signature)
  | _ => True

section Types

variable {info : TypeInfo} {W : Insertions BasicType} {e : PlacedExpr} {t : BasicType}

theorem TypeInfo.callee_wrapBelow (info : TypeInfo) (W : Insertions BasicType) (e : PlacedExpr) :
    info.callee (e.wrapBelow W) = info.callee e := by
  cases e <;> rfl

theorem TypeInfo.typeOf_binary (info : TypeInfo) (tag : Placed) (op : BinaryOp)
    (left right : PlacedExpr) : info.typeOf (.binary tag op left right)
      = op.typeOf? (info.typeOf left) (info.typeOf right) := by
  rw [typeOf]
  rfl

/-- Conversions around children of an expression leave its type alone. -/
theorem Insertions.Respects.typeOf_wrapBelow (h : ∀ part ∈ e.parts, W.Respects info part)
    (ht : info.typeOf e = some t) : info.typeOf (e.wrapBelow W) = some t := by
  induction e using Expr.inductChildren generalizing t with
  | step e ih =>
    have hself := h e (Expr.self_mem_parts e)
    have hchild {child : PlacedExpr} (hc : child ∈ e.children) (hW : W child.ref = none)
        {u : BasicType} (hu : info.typeOf child = some u) :
        info.typeOf (child.wrap W) = some u := by
      rw [Expr.wrap_of_none hW]
      exact ih child hc (fun part hp => h part (Expr.mem_parts_of_child hc hp)) hu
    cases e with
    | hole | literal | name => exact ht
    | paren tag inner => exact hchild (by simp [Expr.children]) hself ht
    | neg tag operand =>
      rw [TypeInfo.typeOf] at ht
      have hu := (Option.filter_eq_some_iff.1 ht).1
      show (info.typeOf (operand.wrap W)).filter _ = _
      rw [hchild (by simp [Expr.children]) hself hu]
      exact hu ▸ ht
    | binary tag op left right =>
      rw [TypeInfo.typeOf_binary] at ht
      obtain ⟨l, r, operand, hl, hr, hu, -⟩ := BinaryOp.typeOf?_eq_some.1 ht
      obtain ⟨hleft, hright⟩ : W left.ref = none ∧ W right.ref = none := by
        rcases hself with hself | ⟨l', r', hl', hr', hapart⟩
        · exact hself
        · rw [Option.some.inj (hl'.symm.trans hl), Option.some.inj (hr'.symm.trans hr)] at hapart
          rw [hapart] at hu
          cases hu
      show info.typeOf (.binary tag op (left.wrap W) (right.wrap W)) = some t
      rw [TypeInfo.typeOf_binary, hchild (by simp [Expr.children]) hleft hl,
        hchild (by simp [Expr.children]) hright hr, ← hl, ← hr]
      exact ht
    | call tag callee args =>
      obtain ⟨hcallee, hargs⟩ := hself
      rw [TypeInfo.typeOf_call] at ht
      rw [Expr.wrapBelow, Expr.wrapAll_eq, TypeInfo.typeOf_call, Insertions.place, hcallee]
      dsimp only
      rw [info.callee_wrapBelow]
      cases hc : info.callee callee with
      | function signature =>
        rw [hc] at ht
        exact ht
      | conversion target =>
        have hnone : ∀ arg ∈ args, W arg.ref = none := by
          rcases hargs with hargs | ⟨signature, hf⟩
          · exact hargs
          · cases hf.symm.trans hc
        rw [hc] at ht
        obtain ⟨u, htypes, -⟩ := BasicType.converted?_eq_some.1 ht
        obtain ⟨arg, rfl, hu⟩ := List.map_eq_singleton_iff.1 htypes
        rw [List.map_singleton, List.map_singleton, hchild (by simp [Expr.children])
          (hnone arg List.mem_cons_self) hu, ← hu]
        exact ht
      | _ =>
        rw [hc] at ht
        cases ht

/-- A conversion has the type that its callee names. -/
theorem TypeInfo.typeOf_around {i : Insertion BasicType} (written : i.type.isUntyped = false)
    (unbound : info.bindings[i.callee.id]? = none) (ht : info.typeOf e = some t)
    (hc : t.convertibleTo i.type) : info.typeOf (i.around e) = some i.type := by
  have hcallee : info.callee (.name i.callee i.type.name : PlacedExpr) = .conversion i.type := by
    rw [callee, calleeNamed, unbound, BasicType.ofKeyword?_name written]
  rw [Insertion.around_eq, typeOf_call, hcallee, List.map_singleton, ht]
  exact BasicType.converted?_eq_some.2 ⟨t, rfl, hc, rfl⟩

end Types

/-! ### Sound insertions -/

/-- A child may change its type without harm to the type of an expression. -/
inductive TypeInfo.Loose (info : TypeInfo) : PlacedExpr → PlacedExpr → Prop where
  | argument {tag : Placed} {callee arg : PlacedExpr} {args : List PlacedExpr}
      {signature : Signature} (function : info.callee callee = .function signature)
      (present : arg ∈ args) : Loose info (.call tag callee args) arg
  | operand {tag : Placed} {op : BinaryOp} {left right operand : PlacedExpr} {l r : BasicType}
      (typedLeft : info.typeOf left = some l) (typedRight : info.typeOf right = some r)
      (apart : l.unify? r = none) (present : operand = left ∨ operand = right) :
      Loose info (.binary tag op left right) operand

/-- Conversions that a pass may put around expressions of a program, with ids that are not smaller
than `base`. -/
structure Insertions.Sound (W : Insertions BasicType) (info : TypeInfo) (p : PlacedProgram) (base : Nat) :
    Prop where
  typed : ∀ e ∈ p.parts, ∀ i, W e.ref = some i →
    ∃ t, info.typeOf e = some t ∧ t.convertibleTo i.type
  written : ∀ e ∈ p.parts, ∀ i, W e.ref = some i → i.type.isUntyped = false
  fresh : ∀ e ∈ p.parts, ∀ i, W e.ref = some i → base ≤ i.callee.id
  respects : ∀ e ∈ p.parts, W.Respects info e

section Sound

variable {info : TypeInfo} {W : Insertions BasicType} {p : PlacedProgram} {base : Nat} {e v : PlacedExpr}
  {t : BasicType}

theorem Program.mem_parts_of_part {part : PlacedExpr} (he : e ∈ p.parts) (hp : part ∈ e.parts) :
    part ∈ p.parts := by
  obtain ⟨root, hr, he⟩ := List.mem_flatMap.1 he
  exact List.mem_flatMap.2 ⟨root, hr, Expr.mem_parts_trans hp he⟩

theorem Program.eq_of_ref (distinct : (p.parts.map Expr.ref).Nodup) (he : e ∈ p.parts)
    (hv : v ∈ p.parts) (h : e.ref = v.ref) : e = v :=
  List.inj_on_of_nodup_map distinct he hv h

/-- An expression keeps its type when conversions are put around expressions below it. -/
theorem Insertions.Sound.typeOf_wrapBelow (h : W.Sound info p base) (he : e ∈ p.parts)
    (ht : info.typeOf e = some t) : info.typeOf (e.wrapBelow W) = some t :=
  Insertions.Respects.typeOf_wrapBelow
    (fun part hp => h.respects part (Program.mem_parts_of_part he hp)) ht

/-- The conversion around an expression has the type that it names. -/
theorem Insertions.Sound.typeOf_around (h : W.Sound info p base)
    (unbound : ∀ id, base ≤ id → info.bindings[id]? = none) (he : e ∈ p.parts) {i : Insertion BasicType}
    (hi : W e.ref = some i) : info.typeOf (i.around (e.wrapBelow W)) = some i.type := by
  obtain ⟨t, ht, hc⟩ := h.typed e he i hi
  exact TypeInfo.typeOf_around (h.written e he i hi) (unbound _ (h.fresh e he i hi))
    (h.typeOf_wrapBelow he ht) hc

theorem Insertions.sound_empty : (Insertions.empty : Insertions BasicType).Sound info p base where
  typed _ _ _ h := by cases h
  written _ _ _ h := by cases h
  fresh _ _ _ h := by cases h
  respects e _ := by
    cases e with
    | hole | literal | name => trivial
    | paren | neg => exact rfl
    | binary => exact .inl ⟨rfl, rfl⟩
    | call => exact ⟨rfl, .inl fun _ _ => rfl⟩

/-- A conversion around one more expression is sound if the expression has a type and its parent does
not mind. -/
theorem Insertions.Sound.insert (h : W.Sound info p base)
    (distinct : (p.parts.map Expr.ref).Nodup) (hv : v ∈ p.parts) {i : Insertion BasicType}
    (typed : ∃ t, info.typeOf v = some t ∧ t.convertibleTo i.type)
    (written : i.type.isUntyped = false) (fresh : base ≤ i.callee.id)
    (loose : ∀ e ∈ p.parts, v ∈ e.children → info.Loose e v) :
    (W.insert v.ref i).Sound info p base := by
  have hcases {e : PlacedExpr} (he : e ∈ p.parts) {j : Insertion BasicType}
      (hj : W.insert v.ref i e.ref = some j) : (e = v ∧ j = i) ∨ W e.ref = some j := by
    by_cases hev : e.ref = v.ref
    · rw [hev, insert_self] at hj
      exact .inl ⟨Program.eq_of_ref distinct he hv hev, (Option.some.inj hj).symm⟩
    · rw [insert_other i hev] at hj
      exact .inr hj
  refine ⟨fun e he j hj => ?_, fun e he j hj => ?_, fun e he j hj => ?_, fun e he => ?_⟩
  · rcases hcases he hj with ⟨rfl, rfl⟩ | hj
    · exact typed
    · exact h.typed e he j hj
  · rcases hcases he hj with ⟨rfl, rfl⟩ | hj
    · exact written
    · exact h.written e he j hj
  · rcases hcases he hj with ⟨rfl, rfl⟩ | hj
    · exact fresh
    · exact h.fresh e he j hj
  · have hsame {c : PlacedExpr} (hc : c ∈ e.children) (hcv : c ≠ v) :
        W.insert v.ref i c.ref = W c.ref := insert_other i fun href =>
      hcv (Program.eq_of_ref distinct (Program.mem_parts_of_child he hc) hv href)
    have hr := h.respects e he
    by_cases hm : v ∈ e.children
    · cases loose e he hm with
      | @argument tag callee arg args signature function present =>
        have hnodup := Store.nodup_of_mem_flatMap (Program.nodup_places distinct).2.1 he
        have hne : callee ≠ v := by
          rintro rfl
          exact (List.nodup_cons.1 hnodup).1 (List.mem_map_of_mem present)
        exact ⟨(hsame List.mem_cons_self hne).trans hr.1, .inr ⟨signature, function⟩⟩
      | operand typedLeft typedRight apart => exact .inr ⟨_, _, typedLeft, typedRight, apart⟩
    · have hnone {c : PlacedExpr} (hc : c ∈ e.children) (hW : W c.ref = none) :
          W.insert v.ref i c.ref = none := by
        rw [hsame hc fun hcv => hm (hcv ▸ hc)]
        exact hW
      cases e with
      | hole | literal | name => trivial
      | paren | neg => exact hnone List.mem_cons_self hr
      | binary tag op left right =>
        refine hr.imp (fun hr => ⟨?_, ?_⟩) id
        · exact hnone List.mem_cons_self hr.1
        · exact hnone (List.mem_cons_of_mem _ List.mem_cons_self) hr.2
      | call tag callee args =>
        refine ⟨hnone List.mem_cons_self hr.1, hr.2.imp (fun hr arg ha => ?_) id⟩
        exact hnone (List.mem_cons_of_mem _ ha) (hr arg ha)

end Sound

end Recast
