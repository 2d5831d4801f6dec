import Mathlib.Data.List.Induction
import Recast.Proofs.Repair.Monotone
import Recast.Proofs.Repair.Order

/-!
# Diagnostics that are repeated

A repair that has been made finds, when it is tried once more, that there is nothing to do: a value
that was converted stands in its conversion, and operands that were balanced have one type. Only a
rule that converts a type to itself makes a repair go on with operands that are balanced.
-/

namespace Recast

variable {info : TypeInfo} {p : PlacedProgram} {base : Nat} {done : List Remark} {s : Store}
  {W : Insertions BasicType} {r r' : Remark} {rules : RuleTable}

/-- The rules convert neither of the types that a remark about operands names to itself. -/
def Remark.Settles (rules : RuleTable) (r : Remark) : Prop :=
  ∀ left right, r.clash? = some (.operands left right) →
    rules.priority? left left = none ∧ rules.priority? right right = none

namespace RuleTable

variable {t : RuleTable} {source target : String}

/-- There is no priority for a conversion that no rule names. -/
theorem priority?_addRules_eq_none (h : t.priority? source target = none) {rs : List Rule}
    (hrs : ∀ r ∈ rs, r.source ≠ source ∨ r.target ≠ target) :
    (t.addRules rs).priority? source target = none := by
  induction rs generalizing t with
  | nil => exact h
  | cons r rs ih =>
    obtain ⟨hr, hrs⟩ := List.forall_mem_cons.1 hrs
    refine ih ?_ hrs
    rw [addRule, add, priority?, Std.HashMap.getElem?_insert, if_neg]
    · exact h
    · simpa [or_iff_not_imp_left] using hr

/-- No widening conversion is from a type to itself. -/
theorem priority?_widening_self (type : String) : widening.priority? type type = none := by
  refine priority?_addRules_eq_none ?_ fun r hr => ?_
  · rw [priority?, empty, Std.HashMap.getElem?_empty]
  · have hne : r.source ≠ r.target := by
      revert r
      decide
    by_contra hself
    simp only [ne_eq, not_or, not_not] at hself
    exact hne (hself.1.trans hself.2.symm)

end RuleTable

/-! ### One repair again -/

/-- The type that operands have in common after a conversion was the type of one of them before. -/
theorem Remark.Mends.typeAt_left {tag : Placed} {op : BinaryOp} {left right v : PlacedExpr}
    {l r : BasicType} {slot : Slot} {i : Insertion BasicType}
    (h : (Remark.operands tag op left right l r).Mends info p slot v i.type)
    (distinct : (p.parts.map Expr.ref).Nodup) (hi : W v.ref = some i)
    (hother : ∀ id ∈ (Remark.operands tag op left right l r).values, id ≠ v.ref → W id = none) :
    W.typeAt left.ref l = l ∨ W.typeAt left.ref l = r := by
  unfold Insertions.typeAt
  cases h with
  | right apart =>
    rw [hother _ (by simp [Remark.values]) (apart.ref_ne distinct)]
    exact .inl rfl
  | left apart =>
    rw [hi]
    exact .inr rfl

namespace Pass

/-- The program with conversions has what takes the place of an expression. -/
theorem expr_rename (h : Pass info p base done s W) {e : PlacedExpr} (he : e ∈ p.parts) :
    s.expr (W.rename e.ref) = e.wrap W := by
  rw [← Expr.ref_wrap]
  refine h.represents.expr ?_
  rw [Program.parts_wrap]
  exact List.mem_flatMap.2 ⟨e, he, by cases hW : W e.ref <;> simp [Insertions.nodes, Expr.wrap,
    Insertions.place, hW]⟩

/-- A value that has been converted is not converted to the same type once more. -/
theorem wrap?_again (h : Pass info p base done s W) {slot : Slot} {v : PlacedExpr}
    {type target : BasicType} {i : Insertion BasicType} (fills : p.Fills slot v)
    (typed : info.typeOf v = some type) (hi : W v.ref = some i) (htype : i.type = target) :
    Repair.wrap? info.oracle s slot target.name type.name = none := by
  have hslot : s.slot? slot = some i.call.id := by
    rw [(fills.wrap W).slot?_eq h.represents.hasNodes, Expr.ref_wrap, Insertions.rename, hi]
  have hmem : i.around (v.wrapBelow W) ∈ (p.wrap W).parts := by
    rw [Program.parts_wrap]
    exact List.mem_flatMap.2 ⟨v, fills.mem_parts, by simp [Insertions.nodes, hi]⟩
  have hconversion : s.conversion? i.call.id = some (target.name, v.ref) := by
    have := h.represents.conversion?_eq hmem
    rw [show (i.around (v.wrapBelow W)).ref = i.call.id from rfl] at this
    rw [this, ← htype, Insertion.around_eq, Expr.conversion?, Option.map_some,
      Expr.ref_wrapBelow]
  have hconverted : Repair.isConverted info.oracle s i.call.id target.name type.name = true := by
    rw [Repair.isConverted, hconversion]
    dsimp only
    rw [h.typeName fills.mem_parts typed, beq_self_eq_true, beq_self_eq_true]
    rfl
  rw [Repair.wrap?_eq, hslot, Option.bind_some, if_pos hconverted]

/-- Operands of one type are left alone, unless there is a rule from the type to itself. -/
theorem balance?_again (h : Pass info p base done s W)
    (unbound : ∀ id, base ≤ id → info.bindings[id]? = none) {tag : Placed} {op : BinaryOp}
    {left right : PlacedExpr} {l r : BasicType} (apart : info.Apart p tag op left right l r)
    (balanced : W.Balances left right l r)
    (noRule : rules.priority? (W.typeAt left.ref l).name (W.typeAt left.ref l).name = none) :
    Repair.balance? rules info.oracle s tag.id = none := by
  have hside {side : PlacedExpr} (hs : side ∈ (Expr.binary tag op left right).children) :
      side ∈ p.parts := Program.mem_parts_of_child apart.holder hs
  have hnode : s.exprs[tag.id]?
      = some ⟨.binary op (W.rename left.ref) (W.rename right.ref), tag.span⟩ := by
    obtain ⟨shape, hs, hn⟩ := h.represents.exprs _ (Program.wrapBelow_mem_parts W apart.holder)
    rw [Expr.shape?_wrapBelow] at hs
    cases hs
    exact hn
  have hleft : info.oracle.typeOf s (W.rename left.ref) = some (W.typeAt left.ref l).name := by
    have := h.sound.typeOf_wrap unbound (hside (by simp [Expr.children])) apart.typedLeft
    exact congrArg (Option.map BasicType.name)
      ((congrArg info.typeOf (h.expr_rename (hside (by simp [Expr.children])))).trans this)
  have hright : info.oracle.typeOf s (W.rename right.ref) = some (W.typeAt left.ref l).name := by
    have := h.sound.typeOf_wrap unbound (hside (by simp [Expr.children])) apart.typedRight
    rw [← balanced] at this
    exact congrArg (Option.map BasicType.name)
      ((congrArg info.typeOf (h.expr_rename (hside (by simp [Expr.children])))).trans this)
  have hallowed : Repair.allowed? rules info.oracle (W.typeAt left.ref l).name
      (W.typeAt left.ref l).name = none := by
    rw [Repair.allowed?, noRule]
    rfl
  rw [Repair.balance?, hnode]
  dsimp only
  rw [hleft, hright]
  dsimp only
  rw [hallowed]
  rfl

/-- The repair for a remark that was dealt with has nothing more to do. -/
theorem perform?_again (h : Pass info p base done s W) (distinct : (p.parts.map Expr.ref).Nodup)
    (unbound : ∀ id, base ≤ id → info.bindings[id]? = none) {c : Checked} (hc : c.Describes p)
    (hinfo : info = c.info) (hr : r ∈ p.remarks)
    (hmade : ∀ id ∈ r.values, W.types id = r.made? rules info id) (settles : r.Settles rules) :
    r.perform? rules info.oracle s = none := by
  cases hm : r.mending? rules info with
  | none =>
    have hW : ∀ id ∈ r.values, W id = none := fun id hid => by
      have := hmade id hid
      rw [Remark.made?, hm] at this
      exact Option.map_eq_none_iff.1 this
    have hperform := h.perform?_mending rules distinct hc hinfo hr hW
    rwa [hm] at hperform
  | some m =>
    subst hinfo
    obtain ⟨hcandidate, hnews⟩ := Option.filter_eq_some_iff.1 hm
    have hvalid := Remark.valid_candidate hc distinct hr hcandidate
    have hmends := hvalid.mends (by simpa using hnews)
    obtain ⟨i, hi, htype⟩ : ∃ i, W m.value.ref = some i ∧ i.type = m.target := by
      have := hmade _ hvalid.mem_values
      rw [Remark.made?, hm, Option.filter_some_pos (by simp)] at this
      exact Option.map_eq_some_iff.1 this
    have hother : ∀ id ∈ r.values, id ≠ m.value.ref → W id = none := fun id hid hne => by
      have := hmade id hid
      rw [Remark.made?, hm, Option.filter_some_neg (by simpa using Ne.symm hne)] at this
      exact Option.map_eq_none_iff.1 this
    have hwrap := h.wrap?_again hvalid.fills hvalid.typed hi htype
    cases r with
    | other => cases hcandidate
    | unfit fit v mode type target =>
      rw [Remark.candidate?, Option.ite_none_left_eq_some] at hcandidate
      obtain ⟨wanted, hw, hcandidate⟩ := Option.bind_eq_some_iff.1 hcandidate.2
      obtain ⟨-, hcandidate⟩ := Option.ite_none_right_eq_some.1 hcandidate
      obtain rfl := Option.some.inj hcandidate
      rw [Remark.perform?, Remark.repair?, hw]
      split
      · rfl
      · rw [Option.bind_some]
        split
        · rw [Option.bind_some, Repair.perform?, hwrap]
          split <;> rfl
        · rfl
    | operands tag op left right l r =>
      have hbalances := Remark.Mends.balances (htype ▸ hmends) distinct hi hother
      obtain ⟨hl, hr'⟩ := settles _ _ rfl
      refine h.balance?_again unbound (hc.apart hr) hbalances ?_
      rcases Remark.Mends.typeAt_left (htype ▸ hmends) distinct hi hother with htype | htype
      · rw [htype]
        exact hl
      · rw [htype]
        exact hr'

/-- Of remarks in a row, some of them several times, only the first occurrences matter. -/
theorem exists_firsts (hs : s.Represents p) {c : Checked} (hc : c.Describes p)
    {rs : List Remark} (hrs : ∀ r ∈ rs, r ∈ p.remarks)
    (settles : ∀ r, [r, r].Sublist rs → r.Settles rules) :
    let t := rs.foldl (Remark.apply rules c.info.oracle) s
    ∃ done W, (∀ r, r ∈ done ↔ r ∈ rs) ∧ (done.flatMap Remark.values).Nodup ∧ done.Nodup ∧
      done.foldl (Remark.apply rules c.info.oracle) s = t ∧ Pass c.info p s.exprs.size done t W ∧
      ∀ r ∈ done, ∀ id ∈ r.values, W.types id = r.made? rules c.info id := by
  have hnodup := Program.nodup_values_remarks hs.distinct
  induction rs using List.reverseRecOn with
  | nil =>
    exact ⟨[], .empty, fun _ => .rfl, .nil, .nil, rfl, Pass.start hs, fun _ hr => nomatch hr⟩
  | append_singleton rs r ih =>
    obtain ⟨done, W, hmem, hvalues, hdistinct, hfold, hpass, hmade⟩ :=
      ih (fun r hr => hrs r (List.mem_append_left _ hr))
        fun r hr => settles r (hr.trans (List.sublist_append_left _ _))
    have hr := hrs r (by simp)
    rw [List.foldl_append, List.foldl_cons, List.foldl_nil]
    by_cases hold : r ∈ rs
    · have htwice : [r, r].Sublist (rs ++ [r]) :=
        (List.singleton_sublist.2 hold).append (List.Sublist.refl [r])
      have hagain : Remark.apply rules c.info.oracle (rs.foldl (Remark.apply rules c.info.oracle) s) r
          = rs.foldl (Remark.apply rules c.info.oracle) s := by
        rw [Remark.apply, hpass.perform?_again hs.distinct (fun id hid => hc.unbound_new hs hid) hc
          rfl hr (hmade r ((hmem r).2 hold)) (settles r htwice)]
        rfl
      refine ⟨done, W, fun r' => ?_, hvalues, hdistinct, hfold.trans hagain.symm, ?_, hmade⟩
      · rw [hmem, List.mem_append, List.mem_singleton]
        exact ⟨.inl, fun h => h.elim id fun h => h ▸ hold⟩
      · rw [hagain]
        exact hpass
    · have hnew : ∀ id ∈ r.values, id ∉ done.flatMap Remark.values := fun id hid hdone => by
        obtain ⟨r', hr', hid'⟩ := List.mem_flatMap.1 hdone
        obtain rfl := eq_of_mem_flatMap hnodup hr
          (hrs r' (List.mem_append_left _ ((hmem r').1 hr'))) hid hid'
        exact hold ((hmem r).1 hr')
      obtain ⟨W', hpass', hsame, hmade', -⟩ := hpass.next rules hs.distinct hc rfl hr hnew
      refine ⟨done ++ [r], W', fun r' => ?_, ?_, ?_, ?_, hpass', fun r' hr' id hid => ?_⟩
      · rw [List.mem_append, List.mem_append, hmem]
      · rw [List.flatMap_append, List.flatMap_singleton, List.nodup_append]
        exact ⟨hvalues, Store.nodup_of_mem_flatMap hnodup hr,
          fun id hid id' hid' h => hnew id' hid' (h ▸ hid)⟩
      · rw [List.nodup_append]
        refine ⟨hdistinct, List.nodup_singleton r, fun r' hr' x hx h => hold ?_⟩
        rw [List.mem_singleton] at hx
        exact (hmem r).1 (hx ▸ h ▸ hr')
      · rw [List.foldl_append, hfold, List.foldl_cons, List.foldl_nil]
      · rcases List.mem_append.1 hr' with hr' | hr'
        · have hid' : id ∉ r.values := fun h => hnew id h (List.mem_flatMap.2 ⟨r', hr', hid⟩)
          rw [Insertions.types, hsame id hid']
          exact hmade r' hr' id hid
        · obtain rfl := List.mem_singleton.1 hr'
          exact hmade' id hid

end Pass

/-! ### Lists of diagnostics -/

/-- Items that make lists of their own without common items are different. -/
theorem nodup_of_nodup_flatMap {β γ : Type} {f : β → List γ} {xs : List β}
    (h : (xs.flatMap f).Nodup) (hne : ∀ x ∈ xs, f x ≠ []) : xs.Nodup := by
  refine (List.nodup_flatMap.1 h).2.imp_of_mem fun {x y} hx _ hdisjoint hxy => ?_
  obtain ⟨a, ha⟩ := List.exists_mem_of_ne_nil _ (hne x hx)
  exact hdisjoint ha (hxy ▸ ha)

/-- A list of images is the image of a list. -/
theorem exists_preimages {β γ : Type} {f : β → γ} {xs : List β} {ys : List γ}
    (h : ∀ y ∈ ys, y ∈ xs.map f) : ∃ zs : List β, zs.map f = ys ∧ ∀ z ∈ zs, z ∈ xs := by
  induction ys with
  | nil => exact ⟨[], rfl, fun _ hz => nomatch hz⟩
  | cons y ys ih =>
    obtain ⟨hy, hys⟩ := List.forall_mem_cons.1 h
    obtain ⟨z, hz, rfl⟩ := List.mem_map.1 hy
    obtain ⟨zs, rfl, hzs⟩ := ih hys
    exact ⟨z :: zs, rfl, List.forall_mem_cons.2 ⟨hz, hzs⟩⟩

section Remarks

variable {c : Checked}

theorem Remark.values_ne_nil (h : r.repair?.isSome) : r.values ≠ [] := by
  cases r with
  | other => cases h
  | unfit | operands => exact List.cons_ne_nil _ _

/-- A conversion is planned for what stands in its slot. -/
theorem Remark.exists_fills_of_convert {slot : Slot} {target source : String}
    {condition? : Option ExprId} (hs : s.Represents p) (hc : c.Describes p) (hr : r ∈ p.remarks)
    (h : r.repair? = some (.convert slot target source condition?)) :
    ∃ v, p.Fills slot v ∧ v.ref ∈ r.values := by
  cases r with
  | other | operands => cases h
  | unfit fit v mode type target =>
    rw [repair?, Option.ite_none_left_eq_some] at h
    obtain ⟨wanted, hw, h⟩ := Option.bind_eq_some_iff.1 h.2
    obtain ⟨-, h⟩ := Option.ite_none_right_eq_some.1 h
    cases h
    exact ⟨v, (hc.unfit hs.distinct hr hw).fills, List.mem_singleton_self _⟩

/-- A repair is made for one remark only. -/
theorem Remark.eq_of_repair?_eq (hs : s.Represents p) (hc : c.Describes p) (hr : r ∈ p.remarks)
    (hr' : r' ∈ p.remarks) (hsome : r.repair?.isSome) (h : r.repair? = r'.repair?) : r = r' := by
  have hnodup := Program.nodup_values_remarks hs.distinct
  obtain ⟨repair, hrepair⟩ := Option.isSome_iff_exists.1 hsome
  have hrepair' := h.symm.trans hrepair
  cases repair with
  | balance id =>
    obtain ⟨tag, op, left, right, lt, rt, rfl, rfl⟩ := Remark.eq_operands_of_balance hrepair
    obtain ⟨tag', op', left', right', lt', rt', rfl, htag⟩ :=
      Remark.eq_operands_of_balance hrepair'
    have hbinary := Program.eq_of_ref hs.distinct (hc.apart hr').holder (hc.apart hr).holder htag
    cases hbinary
    exact eq_of_mem_flatMap hnodup hr hr' (a := left.ref) (by simp [values]) (by simp [values])
  | convert slot target source condition? =>
    obtain ⟨v, hv, hvalue⟩ := exists_fills_of_convert hs hc hr hrepair
    obtain ⟨v', hv', hvalue'⟩ := exists_fills_of_convert hs hc hr' hrepair'
    have href : v.ref = v'.ref := Option.some.inj ((hv.slot?_eq ⟨hs.exprs, hs.stmts⟩).symm.trans
      (hv'.slot?_eq ⟨hs.exprs, hs.stmts⟩))
    exact eq_of_mem_flatMap hnodup hr hr' hvalue (href ▸ hvalue')

end Remarks

/-- A pass over a list with all the remarks of a program for which there are repairs, some of them
several times, makes the store that a pass over the remarks in some order makes. -/
theorem exists_perm_of_repeated (hs : s.Represents p) {c : Checked} (hc : c.Describes p)
    {rs : List Remark} (hrs : ∀ r ∈ rs, r ∈ p.remarks)
    (covers : ∀ r ∈ p.remarks, r.repair?.isSome → r ∈ rs)
    (settles : ∀ r, [r, r].Sublist rs → r.Settles rules) :
    ∃ rs' : List Remark, rs'.Perm p.remarks ∧
      (performAll rules c.info.oracle s (rs'.filterMap Remark.repair?)).1
        = (performAll rules c.info.oracle s (rs.filterMap Remark.repair?)).1 := by
  let asks : Remark → Bool := fun r => r.repair?.isSome
  have hasks (rs : List Remark) : (rs.filter asks).filterMap Remark.repair?
      = rs.filterMap Remark.repair? := by
    rw [List.filterMap_filter]
    refine List.filterMap_congr fun r _ => ?_
    cases h : r.repair? <;> simp [asks, h]
  have hfilter : ∀ r ∈ rs.filter asks, r ∈ p.remarks := fun r hr =>
    hrs r (List.mem_of_mem_filter hr)
  obtain ⟨done, W, hmem, -, hdistinct, hfold, -⟩ := Pass.exists_firsts hs hc hfilter
    fun r hr => settles r (hr.trans List.filter_sublist)
  have hremarks : (p.remarks.filter asks).Nodup := by
    refine nodup_of_nodup_flatMap (f := Remark.values) ?_ fun r hr =>
      r.values_ne_nil (List.mem_filter.1 hr).2
    exact (Program.nodup_values_remarks hs.distinct).sublist (List.filter_sublist.flatMap _)
  have hdone : done.Perm (p.remarks.filter asks) := by
    rw [List.perm_ext_iff_of_nodup hdistinct hremarks]
    intro r
    rw [hmem, List.mem_filter, List.mem_filter]
    exact ⟨fun h => ⟨hrs r h.1, h.2⟩, fun h => ⟨covers r h.1 h.2, h.2⟩⟩
  refine ⟨done ++ p.remarks.filter fun r => !asks r,
    (hdone.append_right _).trans (List.filter_append_perm asks p.remarks), ?_⟩
  have hrest : (p.remarks.filter fun r => !asks r).filterMap Remark.repair? = [] := by
    refine List.filterMap_eq_nil_iff.2 fun r hr => ?_
    simpa [asks] using (List.mem_filter.1 hr).2
  rw [List.filterMap_append, hrest, List.append_nil, performAll_remarks, hfold,
    ← performAll_remarks, hasks]

/-- Dealing with the diagnostics of a check in any order, some of them several times, leaves the same
text and applies as many repairs as dealing with each one once, if no rule converts a type of operands
about which something is said several times to itself. -/
theorem repair_repeated {source : String} {tree : SourceProgram} (h : parse source = .ok tree)
    (rules : RuleTable) {ds : List Diagnostic}
    (same : ∀ d, d ∈ ds ↔ d ∈ (Store.ofProgram tree).program.check.diagnostics)
    (settles : ∀ d, 2 ≤ ds.count d → ∀ left right,
      Classifier.standard.classify d.message = some (.operands left right) →
        rules.priority? left left = none ∧ rules.priority? right right = none) :
    let st := Store.ofProgram tree
    let checked := st.program.check
    ∃ t t' report report',
      repair rules Classifier.standard.classify checked.info.oracle st checked.diagnostics
        = .ok (t, report) ∧
      repair rules Classifier.standard.classify checked.info.oracle st ds = .ok (t', report') ∧
      t'.program.render = t.program.render ∧ report'.applied = report.applied := by
  intro st checked
  let p := st.program
  have hs : Stored tree p := stored_program tree
  have hc : checked.Describes p := hs.represents.check_describes
  obtain ⟨hdiagnostics, hclassify⟩ := classify_checked h
  have hmap : ∀ d ∈ ds, d ∈ p.remarks.map fun r => r.finding.diagnostic := fun d hd => by
    rw [← hdiagnostics]
    exact (same d).1 hd
  obtain ⟨rs, rfl, hrs⟩ := exists_preimages hmap
  -- a remark with a repair is told by its diagnostic
  have covers : ∀ r ∈ p.remarks, r.repair?.isSome → r ∈ rs := by
    intro r hr hsome
    have hd : r.finding.diagnostic ∈ rs.map fun r => r.finding.diagnostic := by
      rw [same, hdiagnostics]
      exact List.mem_map_of_mem hr
    obtain ⟨r', hr', heq⟩ := List.mem_map.1 hd
    have hplan (r : Remark) (hr : r ∈ p.remarks) := planOne_remark hs.represents (hs.wellPlaced h) hc
      hr (hclassify r hr)
    have hrepair : r.repair? = r'.repair? := by
      have := (hplan r hr).symm.trans ((congrArg _ heq.symm).trans (hplan r' (hrs r' hr')))
      exact Except.ok.inj this
    exact Remark.eq_of_repair?_eq hs.represents hc hr (hrs r' hr') hsome hrepair ▸ hr'
  have hsettles : ∀ r, [r, r].Sublist rs → r.Settles rules := by
    intro r htwice left right hclash
    refine settles r.finding.diagnostic ?_ left right ?_
    · exact List.replicate_sublist_iff.1 (htwice.map fun r : Remark => r.finding.diagnostic)
    · rw [hclassify r (hrs r (htwice.subset List.mem_cons_self)), hclash]
  obtain ⟨rs', hperm, hperform⟩ := exists_perm_of_repeated hs.represents hc hrs covers hsettles
  obtain ⟨t, t', report, hrepair, hrepair', hrender⟩ := exists_same_outcome h rules hperm
  have hplan {rs : List Remark} (hrs : ∀ r ∈ rs, r ∈ p.remarks) :
      repair rules Classifier.standard.classify checked.info.oracle st
        (rs.map fun r => r.finding.diagnostic)
          = .ok (performAll rules checked.info.oracle st (rs.filterMap Remark.repair?)) := by
    rw [repair, planAll_remarks h hrs]
    rfl
  have hout := Except.ok.inj ((hplan fun r hr => hperm.mem_iff.1 hr).symm.trans hrepair')
  obtain ⟨u, report', hu⟩ : ∃ u report',
      performAll rules checked.info.oracle st (rs.filterMap Remark.repair?) = (u, report') :=
    ⟨_, _, rfl⟩
  obtain rfl : t' = u := by
    have := hperform.symm
    rwa [hout, hu, eq_comm] at this
  refine ⟨t, t', report, report', hrepair, (hplan hrs).trans (congrArg _ hu), hrender, ?_⟩
  have hsize := (size_performAll rules checked.info.oracle st (rs.filterMap Remark.repair?)).1
  have hsize' := (size_performAll rules checked.info.oracle st (rs'.filterMap Remark.repair?)).1
  rw [hu] at hsize
  rw [hout] at hsize'
  dsimp only at hsize hsize'
  omega

theorem repair_repeated_twice :
    ∃ tree, parse "func f(a int8, b int64) int64 \x7b\n\tvar x int32 = a\n\treturn x + b\n\x7d\n"
        = .ok tree ∧
      let st := Store.ofProgram tree
      let checked := st.program.check
      ∃ t t' report report',
        repair .widening Classifier.standard.classify checked.info.oracle st checked.diagnostics
          = .ok (t, report) ∧
        repair .widening Classifier.standard.classify checked.info.oracle st
          (checked.diagnostics ++ checked.diagnostics) = .ok (t', report') ∧
        t'.program.render = t.program.render ∧ report'.applied = report.applied := by
  obtain ⟨tree, hp, -⟩ := exists_parse (fun _ => true)
    (by decide +kernel : (parse
      "func f(a int8, b int64) int64 \x7b\n\tvar x int32 = a\n\treturn x + b\n\x7d\n").toOption.any
        (fun _ => true) = true)
  exact ⟨tree, hp, repair_repeated hp .widening (fun d => by simp) fun _ _ left right _ =>
    ⟨RuleTable.priority?_widening_self left, RuleTable.priority?_widening_self right⟩⟩

end Recast
