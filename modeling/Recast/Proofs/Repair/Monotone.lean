import Recast.Proofs.Repair.Pass

/-!
# Repairs keep types

By the types that the check found, a pass of repairs gives no expression another type than it had,
makes conversions of the types that they name, and leaves a binary expression that it balanced with
operands of one type.
-/

namespace Recast

/-! ### Types after insertions -/

/-- The type of what stands in the place of an expression of a type. -/
def Insertions.typeAt (W : Insertions BasicType) (id : ExprId) (type : BasicType) : BasicType :=
  match W id with
  | some i => i.type
  | none => type

section

variable {info : TypeInfo} {p : PlacedProgram} {base : Nat} {W : Insertions BasicType} {s t : Store}
  {done : List Remark} {tag : Placed} {op : BinaryOp} {left right e : PlacedExpr}
  {l r type : BasicType}

theorem Insertions.Sound.typeOf_wrap (h : W.Sound info p base)
    (unbound : ∀ id, base ≤ id → info.bindings[id]? = none) (he : e ∈ p.parts)
    (ht : info.typeOf e = some type) : info.typeOf (e.wrap W) = some (W.typeAt e.ref type) := by
  rw [Insertions.typeAt]
  cases hi : W e.ref with
  | none =>
    rw [Expr.wrap_of_none hi]
    exact h.typeOf_wrapBelow he ht
  | some i =>
    rw [Expr.wrap_of_some hi]
    exact h.typeOf_around unbound he hi

/-- The operands have one type with what is put around them. -/
def Insertions.Balances (W : Insertions BasicType) (left right : PlacedExpr) (l r : BasicType) : Prop :=
  W.typeAt left.ref l = W.typeAt right.ref r

/-- After the conversion that a remark about operands calls for, the operands have one type. -/
theorem Remark.Mends.balances {slot : Slot} {v : PlacedExpr} {i : Insertion BasicType}
    (h : (Remark.operands tag op left right l r).Mends info p slot v i.type)
    (distinct : (p.parts.map Expr.ref).Nodup) (hi : W v.ref = some i)
    (hother : ∀ id ∈ (Remark.operands tag op left right l r).values, id ≠ v.ref → W id = none) :
    W.Balances left right l r := by
  unfold Insertions.Balances Insertions.typeAt
  cases h with
  | right apart => rw [hi, hother _ (by simp [Remark.values]) (apart.ref_ne distinct)]
  | left apart => rw [hi, hother _ (by simp [Remark.values]) (apart.ref_ne distinct).symm]

/-- Balanced operands are read from the store with one type. -/
theorem Pass.exists_type (h : Pass info p base done s W)
    (unbound : ∀ id, base ≤ id → info.bindings[id]? = none)
    (apart : info.Apart p tag op left right l r) (hb : W.Balances left right l r) :
    ∃ left' right' t, s.expr tag.id = .binary tag op left' right' ∧
      info.typeOf left' = some t ∧ info.typeOf right' = some t := by
  have hside {side : PlacedExpr} (hs : side ∈ (Expr.binary tag op left right).children) :
      side ∈ p.parts := Program.mem_parts_of_child apart.holder hs
  refine ⟨left.wrap W, right.wrap W, W.typeAt left.ref l, h.expr apart.holder, ?_, ?_⟩
  · exact h.sound.typeOf_wrap unbound (hside (by simp [Expr.children])) apart.typedLeft
  · rw [hb]
    exact h.sound.typeOf_wrap unbound (hside (by simp [Expr.children])) apart.typedRight

/-- Ids beyond the nodes are not in use. -/
theorem Store.expr_of_size_le {id : ExprId} (h : s.exprs.size ≤ id) : s.expr id = .hole id := by
  rw [expr, exprTo, Array.getElem?_eq_none h]

/-- Each call among the new nodes is a conversion of the type that it names. -/
theorem Pass.typeOf_new (h : Pass info p base done s W)
    (unbound : ∀ id, base ≤ id → info.bindings[id]? = none) {id : ExprId} (hid : base ≤ id)
    {callee : PlacedExpr} {args : List PlacedExpr} (hcall : s.expr id = .call tag callee args) :
    ∃ calleeTag t, callee = .name calleeTag t.name ∧ BasicType.ofKeyword? t.name = some t ∧
      info.typeOf (s.expr id) = some t := by
  have hlt : id < s.exprs.size := by
    by_contra hge
    rw [Store.expr_of_size_le (Nat.not_lt.1 hge)] at hcall
    cases hcall
  obtain ⟨e, he, i, hi, hnew⟩ := h.covered id hid hlt
  have hread {x : PlacedExpr} (hx : x ∈ W.nodes e) : s.expr x.ref = x := by
    refine h.represents.expr ?_
    rw [Program.parts_wrap]
    exact List.mem_flatMap.2 ⟨e, he, hx⟩
  have hwritten := h.sound.written e he i hi
  rcases hnew with rfl | rfl
  · have := hread (x := .name i.callee i.type.name) (by simp [Insertions.nodes, hi])
    cases this.symm.trans hcall
  · have := hread (x := i.around (e.wrapBelow W)) (by simp [Insertions.nodes, hi])
    have hget : s.expr i.call.id = i.around (e.wrapBelow W) := this
    rw [hget] at hcall ⊢
    cases hcall
    exact ⟨i.callee, i.type, rfl, BasicType.ofKeyword?_name hwritten,
      h.sound.typeOf_around unbound he hi⟩

end

/-! ### A pass -/

theorem Remark.eq_operands_of_balance {r : Remark} {binary : ExprId}
    (h : r.repair? = some (.balance binary)) : ∃ tag op left right lt rt,
      r = .operands tag op left right lt rt ∧ tag.id = binary := by
  cases r with
  | other => cases h
  | operands tag op left right lt rt =>
    cases h
    exact ⟨tag, op, left, right, lt, rt, rfl, rfl⟩
  | unfit fit v mode type target =>
    rw [Remark.repair?, Option.ite_none_left_eq_some] at h
    obtain ⟨wanted, -, h⟩ := Option.bind_eq_some_iff.1 h.2
    cases (Option.ite_none_right_eq_some.1 h).2

/-- Nothing is recorded about ids that the checked store had not given out. -/
theorem Checked.Describes.unbound_new {st : Store} {p : PlacedProgram} {c : Checked}
    (hc : c.Describes p) (hs : st.Represents p) {id : ExprId} (h : st.exprs.size ≤ id) :
    c.info.bindings[id]? = none := by
  refine hc.unbound id fun r hr heq => Nat.not_lt.2 h ?_
  obtain ⟨n, hn, hid⟩ := Program.ids_records hr
  obtain ⟨e, he, href⟩ := List.mem_map.1 (p.names_sublist.subset (List.mem_map_of_mem hn))
  rw [← heq, ← hid, ← href]
  exact (hs.exprs e he).ref_lt

/-- A pass of repairs keeps the type of each expression that has one by the check, each call that it
makes is a conversion of the type that its callee names, and from the moment that a binary expression
is balanced on, its operands have one type. -/
theorem repair_keeps_types {source : String} {tree : SourceProgram} (h : parse source = .ok tree)
    (rules : RuleTable) :
    let st := Store.ofProgram tree
    let p := st.program
    let info := p.check.info
    let performed := fun repairs => (performAll rules info.oracle st repairs).1
    ∃ plan report,
      planAll Classifier.standard.classify info.oracle st p.check.diagnostics = .ok plan ∧
      repair rules Classifier.standard.classify info.oracle st p.check.diagnostics
        = .ok (performed plan, report) ∧
      (∀ e ∈ p.parts, ∀ t, info.typeOf e = some t →
        info.typeOf ((performed plan).expr e.ref) = some t) ∧
      (∀ id tag callee args, st.exprs.size ≤ id →
        (performed plan).expr id = .call tag callee args →
          ∃ calleeTag t, callee = .name calleeTag t.name ∧ BasicType.ofKeyword? t.name = some t ∧
            info.typeOf ((performed plan).expr id) = some t) ∧
      ∀ before binary middle after, plan = before ++ .balance binary :: (middle ++ after) →
        ((Repair.balance binary).perform? rules info.oracle (performed before)).isSome →
          ∃ tag op left right t,
            (performed (before ++ .balance binary :: middle)).expr binary
              = .binary tag op left right ∧
            info.typeOf left = some t ∧ info.typeOf right = some t := by
  intro st p info performed
  have hs : st.Represents p := (stored_program tree).represents
  have hc : p.check.Describes p := hs.check_describes
  have unbound : ∀ id, st.exprs.size ≤ id → info.bindings[id]? = none := fun id hid =>
    hc.unbound_new hs hid
  have hnodup := Program.nodup_values_remarks hs.distinct
  have hplan := planAll_checked h
  obtain ⟨W, hpass, -⟩ := (Pass.start hs).run rules hs.distinct hc rfl p.remarks
    (fun _ hr => hr) hnodup
  rw [List.nil_append, ← performAll_remarks] at hpass
  refine ⟨_, (performAll rules info.oracle st (p.remarks.filterMap Remark.repair?)).2, hplan, ?_,
    fun e he t ht => hpass.typeOf he ht, fun id tag callee args hid hcall =>
      hpass.typeOf_new unbound hid hcall, ?_⟩
  · rw [repair, hplan]
    rfl
  · intro before binary middle after hsplit happlied
    obtain ⟨rs₁, r, rs₂, rs₃, hremarks, hr, rfl, rfl, -⟩ := exists_remark_of_plan hsplit
    obtain ⟨tag, op, left, right, lt, rt, rfl, rfl⟩ := Remark.eq_operands_of_balance hr
    have hperformed (rs : List Remark) : performed (rs.filterMap Remark.repair?)
        = rs.foldl (Remark.apply rules info.oracle) st := performAll_remarks rules info.oracle st rs
    rw [hperformed] at happlied
    have happlied' : ((Remark.operands tag op left right lt rt).perform? rules info.oracle
        (rs₁.foldl (Remark.apply rules info.oracle) st)).isSome := happlied
    obtain ⟨W, slot, v, i, hpass, hmends, hi, hother⟩ := Pass.run_applied hs hc hremarks happlied'
    have hbalance := hmends.balances hs.distinct hi hother
    have hafter : performed (rs₁.filterMap Remark.repair? ++
          .balance tag.id :: rs₂.filterMap Remark.repair?)
        = (rs₁ ++ .operands tag op left right lt rt :: rs₂).foldl
          (Remark.apply rules info.oracle) st := by
      rw [← hperformed, List.filterMap_append, List.filterMap_cons_some hr]
    have hr' : .operands tag op left right lt rt ∈ p.remarks := by
      rw [hremarks]
      simp
    obtain ⟨left', right', t, hnode, htypes⟩ := hpass.exists_type unbound (hc.apart hr') hbalance
    exact ⟨tag, op, left', right', t, by rw [hafter, hnode], htypes⟩

theorem repair_keeps_types_nested :
    ∃ tree, parse "func f(a int32, b int64) \x7b\n\tvar x int8 = a + b + a\n\x7d\n" = .ok tree ∧
      ∃ t report,
        repair .widening Classifier.standard.classify
            (Store.ofProgram tree).program.check.info.oracle (Store.ofProgram tree)
            (Store.ofProgram tree).program.check.diagnostics
          = .ok (t, report) ∧
        ∀ e ∈ (Store.ofProgram tree).program.parts, ∀ type,
          (Store.ofProgram tree).program.check.info.typeOf e = some type →
            (Store.ofProgram tree).program.check.info.typeOf (t.expr e.ref) = some type := by
  obtain ⟨tree, hp, -⟩ := exists_parse (fun _ => true)
    (by decide +kernel : (parse
      "func f(a int32, b int64) \x7b\n\tvar x int8 = a + b + a\n\x7d\n").toOption.any
        (fun _ => true) = true)
  obtain ⟨plan, report, -, hrepair, hkeeps, -⟩ := repair_keeps_types hp .widening
  exact ⟨tree, hp, _, report, hrepair, hkeeps⟩

end Recast
