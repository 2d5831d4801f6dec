import Recast.Proofs.Store.Parsed
import Recast.Proofs.Store.Slots
import Recast.Proofs.Tree.Chain
import Recast.Proofs.Types.Agreement
import Recast.Proofs.Wording.Verdict

/-!
# The planner hits what the checker meant

A diagnostic has a message and a position only, and many nodes can start at one position. Still the
walk outward from there stops at the node that the checker spoke about: the planner makes the repair
that the remark calls for.
-/

namespace Recast

/-! ### Names of types -/

namespace BasicType

@[simp] theorem ofName?_name (t : BasicType) : ofName? t.name = some t := by
  cases t <;> decide

theorem name_injective {t u : BasicType} (h : t.name = u.name) : t = u :=
  Option.some.inj ((ofName?_name t).symm.trans ((congrArg ofName? h).trans (ofName?_name u)))

@[simp] theorem name_inj {t u : BasicType} : t.name = u.name ↔ t = u :=
  ⟨name_injective, congrArg name⟩

@[simp] theorem convertibleNames_name (t u : BasicType) :
    convertibleNames t.name u.name = t.convertibleTo u := by
  simp [convertibleNames]

end BasicType

theorem map_name_eq_some {t? : Option BasicType} {u : BasicType} :
    t?.map BasicType.name = some u.name ↔ t? = some u := by
  cases t? <;> simp

/-! ### Positions in lists -/

theorem indexIn?_of_getElem? {es : List PlacedExpr} (h : (es.map Expr.ref).Nodup) {e : PlacedExpr}
    {i : Nat} (he : es[i]? = some e) : indexIn? es e = some i := by
  obtain ⟨hi, rfl⟩ := List.getElem?_eq_some_iff.1 he
  rw [indexIn?, List.findIdx?_eq_some_iff_getElem]
  refine ⟨hi, by simp, fun j hj => ?_⟩
  have := List.pairwise_iff_getElem.1 h j i (by simpa using Nat.lt_trans hj hi) (by simpa using hi) hj
  simpa using this

theorem indexIn?_of_not_mem {es : List PlacedExpr} {e : PlacedExpr}
    (h : e.ref ∉ es.map Expr.ref) : indexIn? es e = none := by
  rw [indexIn?, List.findIdx?_eq_none_iff]
  intro other ho
  have := fun heq : other.ref = e.ref => h (heq ▸ List.mem_map_of_mem ho)
  simpa using this

/-! ### Sites in a checked program -/

namespace Program.At

variable {p : PlacedProgram} {f : PlacedFunction} {before after : List PlacedStmt} {s : PlacedStmt}
  {signature : Signature} {root part : PlacedExpr}

theorem mem_body (h : p.At f before s after signature) : s ∈ f.body := by
  simp [h.body]

theorem mem_stmts (h : p.At f before s after signature) : s ∈ p.stmts :=
  List.mem_flatMap.2 ⟨f, h.function, h.mem_body⟩

theorem mem_parts (h : p.At f before s after signature) (hr : root ∈ s.values)
    (hp : part ∈ root.parts) : part ∈ p.parts :=
  List.mem_flatMap.2 ⟨root, List.mem_flatMap.2 ⟨s, h.mem_stmts, s.values_subset root hr⟩, hp⟩

end Program.At

/-- A statement of a program that is stored as it was read, and what its check left behind. -/
structure Site (st : Store) (p : PlacedProgram) (c : Checked) (f : PlacedFunction)
    (before : List PlacedStmt) (s : PlacedStmt) (after : List PlacedStmt) (signature : Signature) :
    Prop extends p.At f before s after signature where
  represents : st.Represents p
  wellPlaced : p.WellPlaced
  describes : c.Describes p

namespace Site

variable {st : Store} {p : PlacedProgram} {c : Checked} {f : PlacedFunction}
  {before after : List PlacedStmt} {s : PlacedStmt} {signature : Signature}

/-- The way from a statement of the site to a position in one of its expressions. -/
abbrev path (f : PlacedFunction) (s : PlacedStmt) (root : PlacedExpr) (pos : Nat) :
    Path ExprId Placed := ⟨f, some s, (root.chain pos).reverse⟩

section

variable (h : Site st p c f before s after signature)
include h

variable {root part : PlacedExpr}

theorem wellPlaced_root (hr : root ∈ s.values) : root.WellPlaced :=
  ((h.wellPlaced.functions f h.function).body s h.mem_body).children root (s.values_subset root hr)

theorem typeOf_ref (hr : root ∈ s.values) (hp : part ∈ root.parts) :
    c.info.oracle.typeOf st part.ref
      = (part.typeIn (p.scopeAt f signature before)).map BasicType.name := by
  show (c.info.typeOf (st.expr part.ref)).map _ = _
  rw [h.represents.expr (h.mem_parts hr hp), h.describes.typeOf_eq h.toAt hr hp]

/-- A clash that is reported where an expression starts is looked up on the way to that expression. -/
theorem planOne_eq (hr : root ∈ s.values) (hp : part ∈ root.parts) {mapper : Mapper}
    {message : String} {clash : Clash} (hclash : mapper message = some clash) {span : Span}
    (hspan : span.start = part.span.start) :
    planOne mapper c.info.oracle st p ⟨message, span⟩
      = .ok (clash.repair? c.info.oracle st (path f s root part.span.start)) := by
  have hpath := h.wellPlaced.pathAt_start h.function h.mem_body (s.values_subset root hr) hp
  obtain ⟨e, he, hstart⟩ := (h.wellPlaced_root hr).getLast?_chain hp
  have hinner : (path f s root part.span.start).innermostSpan.start = part.span.start := by
    have hhead : (root.chain part.span.start).reverse.head? = some e := by
      rw [List.head?_reverse, he]
    obtain ⟨rest, hrest⟩ := List.head?_eq_some_iff.1 hhead
    rw [Path.innermostSpan, path, hrest]
    exact hstart
  simp only [planOne, hclash, Diagnostic.pos, hspan, hpath, hinner, if_true]

end

/-- The outermost expression of a path with its statement. -/
theorem stmtPair?_path (f : PlacedFunction) (s : PlacedStmt) (root : PlacedExpr) (pos : Nat) :
    (path f s root pos).stmtPair? = some (root, s) := by
  rw [Path.stmtPair?, path, List.getLast?_reverse, Expr.chain_eq]
  rfl

/-! ### Values of statements -/

section Values

variable {tag : Placed} {value : PlacedExpr} {values : List PlacedExpr} {k : Nat}
  {type target : BasicType}

theorem repair_declaration {names : List String} {written : TypeRef String}
    (h : Site st p c f before (.var tag names (some written) values) after signature)
    (hv : values[k]? = some value)
    (ht : value.typeIn (p.scopeAt f signature before) = some type)
    (hw : written.type? = some target) :
    (Clash.declaration target.name type.name).repair? c.info.oracle st
        (path f (.var tag names (some written) values) value value.span.start)
      = if type.convertibleTo target then
          some (.convert (.varValue tag.id k) target.name type.name none)
        else none := by
  have hm := List.mem_of_getElem? hv
  have htype := h.typeOf_ref hm value.self_mem_parts
  have hden : c.info.oracle.denoted written = some target.name := map_name_eq_some.2 hw
  have hconv : c.info.oracle.convertible type.name target.name = type.convertibleTo target :=
    BasicType.convertibleNames_name ..
  have hindex : indexIn? values value = some k :=
    indexIn?_of_getElem? (h.represents.distinct_exprs h.mem_stmts) hv
  rw [Clash.repair?, Clash.repairDeclaration?, stmtPair?_path]
  dsimp only
  rw [hden, htype, ht, hconv, hindex]
  simp

theorem repair_assignment {targets : List PlacedExpr} {goal : PlacedExpr}
    (h : Site st p c f before (.assign tag targets values) after signature)
    (hv : values[k]? = some value) (hg : targets[k]? = some goal) (wanted got : String) :
    (Clash.assignment wanted got).repair? c.info.oracle st
        (path f (.assign tag targets values) value value.span.start)
      = some (.convert (.assignValue tag.id k) wanted got (some goal.ref)) := by
  have hdistinct := h.represents.distinct_exprs h.mem_stmts
  rw [Stmt.children, List.map_append] at hdistinct
  rw [Clash.repair?, Clash.repairAssignment?, stmtPair?_path]
  dsimp only
  rw [indexIn?_of_getElem? (hdistinct.sublist (List.sublist_append_right _ _)) hv]
  dsimp only
  rw [hg]
  rfl

theorem repair_result (h : Site st p c f before (.ret tag values) after signature)
    (hv : values[k]? = some value)
    (ht : value.typeIn (p.scopeAt f signature before) = some type) (wanted : String) :
    (Clash.result wanted type.name).repair? c.info.oracle st
        (path f (.ret tag values) value value.span.start)
      = (f.signature.results[k]?.join).bind fun own =>
        if type.convertibleTo own then
          some (.convert (.returnValue tag.id k) own.name type.name none)
        else none := by
  have hm := List.mem_of_getElem? hv
  have htype := h.typeOf_ref hm value.self_mem_parts
  have hindex : indexIn? values value = some k :=
    indexIn?_of_getElem? (h.represents.distinct_exprs h.mem_stmts) hv
  rw [Clash.repair?, Clash.repairResult?, stmtPair?_path]
  dsimp only
  rw [hindex, htype, ht]
  have hresults : f.signature.results[k]? = f.results[k]?.map TypeRef.type? := by
    rw [Function.signature, List.getElem?_map]
  have hden (t : TypeRef String) : c.info.oracle.denoted t = t.type?.map BasicType.name := rfl
  have hconv (own : BasicType) :
      c.info.oracle.convertible type.name own.name = type.convertibleTo own :=
    BasicType.convertibleNames_name ..
  simp only [Option.bind_eq_bind, Option.bind_some, Option.map_some, hresults]
  cases f.results[k]? with
  | none => rfl
  | some declared =>
    rw [Option.bind_some, hden, Option.map_some, Option.join_some]
    cases declared.type? with
    | none => rfl
    | some own =>
      rw [Option.map_some, Option.bind_some, Option.bind_some, hconv]
      rfl

end Values

/-! ### Arguments and operands -/

section Parts

variable {tag : Placed} {root value : PlacedExpr} {type target : BasicType} {k : Nat}

/-- On the way from an argument to its start no expression is an argument of the next one. -/
theorem convertArgument?_below (h : Site st p c f before s after signature) (hr : root ∈ s.values)
    (hp : value ∈ root.parts) (param arg : String) :
    ∀ pair ∈ outward (value.chain value.span.start),
      Clash.convertArgument? c.info.oracle st param arg pair = none := by
  rintro ⟨child, parent⟩ hpair
  obtain ⟨hm, hlead⟩ := ((h.wellPlaced_root hr).part hp).lead_of_mem_outward _ hpair
  cases parent with
  | call tag callee args =>
    obtain rfl : callee = child := Option.some.inj hlead
    have hdistinct := h.represents.distinct_children (h.mem_parts hr (Expr.mem_parts_trans hm hp))
    rw [Expr.children, List.map_cons, List.nodup_cons] at hdistinct
    rw [Clash.convertArgument?, indexIn?_of_not_mem hdistinct.1]
  | _ => rfl

theorem repair_argument {callee : PlacedExpr} {args : List PlacedExpr}
    (h : Site st p c f before s after signature) (hr : root ∈ s.values)
    (hp : Expr.call tag callee args ∈ root.parts) (hv : args[k]? = some value)
    (ht : value.typeIn (p.scopeAt f signature before) = some type) :
    (Clash.argument target.name type.name).repair? c.info.oracle st
        (path f s root value.span.start)
      = if type.convertibleTo target then
          some (.convert (.callArg tag.id k) target.name type.name none)
        else none := by
  have hm : value ∈ (Expr.call tag callee args).children :=
    List.mem_cons_of_mem _ (List.mem_of_getElem? hv)
  have hv' : value ∈ root.parts :=
    Expr.child_mem_parts hp hm
  have hwr := h.wellPlaced_root hr
  have hstart := (hwr.part hv').sits.encloses_start
  have hconv : c.info.oracle.convertible type.name target.name = type.convertibleTo target :=
    BasicType.convertibleNames_name ..
  rw [Clash.repair?, Clash.repairArgument?]
  split
  · rename_i hc
    -- the walk starts below the argument, and stops when it comes to the argument itself
    obtain ⟨-, above, habove⟩ := hwr.chain_part hp
      ((hwr.part hp).sits.encloses_of_child hm (hwr.part hv').sits hstart)
    have hcall : (Expr.call tag callee args).chain value.span.start
        = .call tag callee args :: value.chain value.span.start := by
      rw [Expr.chain_eq, Expr.firstChain_of_mem
        (fun e he => ((Expr.wellPlaced_iff.1 (hwr.part hp)).2 e he).sits) (hwr.part hp).sits.apart hm
        hstart]
    rw [hcall] at habove
    obtain ⟨below, hbelow⟩ : ∃ below, value.chain value.span.start = value :: below :=
      ⟨_, Expr.chain_eq _ value⟩
    have hdistinct := h.represents.distinct_children (h.mem_parts hr hp)
    rw [Expr.children, List.map_cons, List.nodup_cons] at hdistinct
    show (outward (root.chain value.span.start)).findSome? _ = _
    rw [habove, hbelow]
    refine findSome?_outward ?_ ?_
    · rw [← hbelow]
      exact h.convertArgument?_below hr hv' _ _
    · rw [Clash.convertArgument?, indexIn?_of_getElem? hdistinct.2 hv]
      dsimp only
      rw [h.typeOf_ref hr hv', ht, hconv, hc]
      simp
  · rename_i hc
    refine List.findSome?_eq_none_iff.2 fun pair _ => ?_
    unfold Clash.convertArgument?
    split
    · split
      · rw [hconv, Bool.eq_false_iff.2 hc]
        simp
      · rfl
    · rfl

/-- On the way to its start an expression of known type is followed by operations of known type
only. -/
theorem typeIn_of_mem_outward {S : Scope} {e : PlacedExpr} (hw : e.WellPlaced)
    (ht : (e.typeIn S).isSome) : ∀ pair ∈ outward (e.chain e.span.start),
      ∀ tag op left right, pair.2 = .binary tag op left right → (pair.2.typeIn S).isSome := by
  induction e using Expr.inductChildren with
  | step e ih =>
    intro pair hp tag op left right hb
    rw [hw.chain_start] at hp
    cases hl : e.lead? with
    | none => rw [hl] at hp; cases hp
    | some lead =>
      simp only [hl] at hp
      have hc := Expr.lead?_mem hl
      have hwl := (Expr.wellPlaced_iff.1 hw).2 lead hc
      obtain ⟨rest, hrest⟩ : ∃ rest, lead.chain lead.span.start = lead :: rest :=
        ⟨_, Expr.chain_eq _ lead⟩
      rw [hrest, outward_cons_cons] at hp
      rcases List.mem_append.1 hp with hp | hp
      · -- a callee that is no name has no type and no known type around it
        have htl : (lead.typeIn S).isSome ∨ lead.lead? = none := by
          cases e with
          | binary _ op l r =>
            obtain rfl : l = lead := Option.some.inj hl
            rw [Expr.typeIn] at ht
            cases hll : l.typeIn S with
            | none => rw [hll] at ht; cases ht
            | some => exact .inl rfl
          | call _ callee args =>
            obtain rfl : callee = lead := Option.some.inj hl
            cases callee with
            | name => exact .inr rfl
            | _ => cases ht
          | _ => cases hl
        rcases htl with htl | hnone
        · rw [← hrest] at hp
          exact ih lead hc hwl htl pair hp tag op left right hb
        · have := hwl.chain_start
          rw [hnone, hrest] at this
          obtain rfl : rest = [] := (List.cons.inj this).2
          cases hp
      · obtain rfl := List.mem_singleton.1 hp
        exact ht

/-- No operation on the way from an operand of known type to its start has operands of types that do
not go together. -/
theorem balanceAround?_below (h : Site st p c f before s after signature) (hr : root ∈ s.values)
    (hp : value ∈ root.parts) {l r : BasicType}
    (ht : (value.typeIn (p.scopeAt f signature before)).isSome) (hlr : l.unify? r = none) :
    ∀ pair ∈ outward (value.chain value.span.start),
      Clash.balanceAround? c.info.oracle st l.name r.name pair = none := by
  have hwv := (h.wellPlaced_root hr).part hp
  rintro ⟨child, parent⟩ hpair
  obtain ⟨hm, -⟩ := hwv.lead_of_mem_outward _ hpair
  cases parent with
  | binary tag op left right =>
    have htyped := typeIn_of_mem_outward hwv ht _ hpair tag op left right rfl
    have hside {side : PlacedExpr} (hs : side ∈ (Expr.binary tag op left right).children) :
        c.info.oracle.typeOf st side.ref
          = (side.typeIn (p.scopeAt f signature before)).map BasicType.name :=
      h.typeOf_ref hr (Expr.mem_parts_trans (Expr.child_mem_parts hm hs) hp)
    rw [Clash.balanceAround?, hside (by simp [Expr.children]), hside (by simp [Expr.children])]
    refine if_neg fun hcond => ?_
    obtain ⟨⟨-, hl⟩, hr⟩ : (_ ∧ _) ∧ _ := by simpa only [Bool.and_eq_true, decide_eq_true_eq]
      using hcond
    rw [map_name_eq_some] at hl hr
    rw [Expr.typeIn, hl, hr] at htyped
    simp [BinaryOp.typeOf?, BinaryOp.result?, hlr] at htyped
  | _ => rfl

theorem repair_operands {op : BinaryOp} {left right : PlacedExpr} {l r : BasicType}
    (h : Site st p c f before s after signature) (hr : root ∈ s.values)
    (hp : Expr.binary tag op left right ∈ root.parts)
    (hl : left.typeIn (p.scopeAt f signature before) = some l)
    (hrt : right.typeIn (p.scopeAt f signature before) = some r) (hlr : l.unify? r = none) :
    (Clash.operands l.name r.name).repair? c.info.oracle st
        (path f s root (Expr.binary tag op left right).span.start)
      = some (.balance tag.id) := by
  have hwr := h.wellPlaced_root hr
  have hwb := hwr.part hp
  have hside {side : PlacedExpr} (hs : side ∈ (Expr.binary tag op left right).children) :
      side ∈ root.parts :=
    Expr.child_mem_parts hp hs
  have hml : left ∈ root.parts := hside (by simp [Expr.children])
  have hmr : right ∈ root.parts := hside (by simp [Expr.children])
  obtain ⟨-, above, habove⟩ := hwr.chain_part hp hwb.sits.encloses_start
  obtain ⟨below, hbelow⟩ : ∃ below, left.chain left.span.start = left :: below :=
    ⟨_, Expr.chain_eq _ left⟩
  have hchain := hwb.chain_start
  simp only [Expr.lead?] at hchain
  rw [Clash.repair?, Clash.repairOperands?]
  show (outward (root.chain _)).findSome? _ = _
  rw [habove, hchain, hbelow]
  refine findSome?_outward ?_ ?_
  · rw [← hbelow]
    exact h.balanceAround?_below hr hml (by rw [hl]; rfl) hlr
  · rw [Clash.balanceAround?, h.typeOf_ref hr hml, h.typeOf_ref hr hmr, hl, hrt]
    simp

end Parts

end Site

/-! ### Remarks -/

/-- The repair that mends what a remark is about. -/
def Remark.repair? : Remark → Option Repair
  | unfit fit _ _ type _ =>
    if type.isUntyped then none
    else fit.wanted?.bind fun wanted =>
      if fit.destination = .assignment ∨ type.convertibleTo wanted then
        some (.convert fit.slot wanted.name type.name fit.goal?)
      else none
  | operands tag _ _ _ _ _ => some (.balance tag.id)
  | other _ => none

theorem Remark.repair?_of_clash? {r : Remark} (h : r.clash? = none) : r.repair? = none := by
  cases r with
  | unfit _ _ _ type _ =>
    cases hu : type.isUntyped with
    | true => rw [repair?, hu, if_pos rfl]
    | false => simp [clash?, hu] at h
  | operands => cases h
  | other => rfl

/-- A value that a repair is sought for has a type. -/
theorem Remark.clash?_unfit {fit : Fit} {value : PlacedExpr} {mode : Mode} {type target : BasicType}
    {clash : Clash} (h : (unfit fit value mode type target).clash? = some clash) :
    type.isUntyped = false ∧ clash = .of fit.destination.category target.name type.name := by
  rw [clash?] at h
  split at h
  · cases h
  · rename_i hu
    exact ⟨by simpa using hu, (Option.some.inj h).symm⟩

/-- A statement takes only values of its own. -/
theorem Stmt.Takes.mem_values {S : Scope} {results own : List (Option BasicType)} {s : PlacedStmt}
    {value : PlacedExpr} {target : BasicType} {fit : Fit}
    (h : s.Takes S results own value target fit) : value ∈ s.values := by
  cases h with
  | declaration hv => exact List.mem_of_getElem? hv
  | assignment hv => exact List.mem_of_getElem? hv
  | result hv => exact List.mem_of_getElem? hv

theorem Expr.Takes.mem_children {S : Scope} {e value : PlacedExpr} {target : BasicType} {fit : Fit}
    (h : e.Takes S value target fit) : value ∈ e.children := by
  cases h with
  | argument _ hv => exact List.mem_cons_of_mem _ (List.mem_of_getElem? hv)

section Remarks

variable {st : Store} {p : PlacedProgram} {c : Checked} {f : PlacedFunction}
  {before after : List PlacedStmt} {s : PlacedStmt} {signature : Signature} {mapper : Mapper}
  {root part value : PlacedExpr} {type target : BasicType} {fit : Fit} {r : Remark}

/-- The repair for a value at a place of a statement. -/
theorem Site.repair_stmt (h : Site st p c f before s after signature)
    (takes : s.Takes (p.scopeAt f signature before) signature.results f.signature.results value
      target fit) (typed : value.typeIn (p.scopeAt f signature before) = some type) :
    (Clash.of fit.destination.category target.name type.name).repair? c.info.oracle st
        (path f s value value.span.start)
      = fit.wanted?.bind fun wanted =>
        if fit.destination = .assignment ∨ type.convertibleTo wanted then
          some (.convert fit.slot wanted.name type.name fit.goal?)
        else none := by
  cases takes with
  | declaration hv ht => exact (h.repair_declaration hv typed ht).trans (by simp)
  | assignment hv hg => exact (h.repair_assignment hv hg target.name type.name).trans (by simp)
  | result hv => exact (h.repair_result hv typed target.name).trans (by simp)

/-- The repair for a value at a place of a part of a value of a statement. -/
theorem Site.repair_part (h : Site st p c f before s after signature) (hroot : root ∈ s.values)
    (hp : part ∈ root.parts) (takes : part.Takes (p.scopeAt f signature before) value target fit)
    (typed : value.typeIn (p.scopeAt f signature before) = some type) :
    (Clash.of fit.destination.category target.name type.name).repair? c.info.oracle st
        (path f s root value.span.start)
      = fit.wanted?.bind fun wanted =>
        if fit.destination = .assignment ∨ type.convertibleTo wanted then
          some (.convert fit.slot wanted.name type.name fit.goal?)
        else none := by
  cases takes with
  | argument _ hv => exact (h.repair_argument hroot hp hv typed).trans (by simp)

/-- The planner makes the repair for every remark of a check. -/
theorem planOne_remark (hs : st.Represents p) (hw : p.WellPlaced) (hc : c.Describes p)
    (hr : r ∈ p.remarks) (hclash : mapper r.finding.diagnostic.message = r.clash?) :
    planOne mapper c.info.oracle st p r.finding.diagnostic = .ok r.repair? := by
  cases hfound : r.clash? with
  | none => rw [planOne, hclash, hfound, Remark.repair?_of_clash? hfound]
  | some clash =>
    rw [hfound] at hclash
    cases r with
    | other => cases hfound
    | operands =>
      obtain ⟨f, before, s, after, signature, hat, mismatch, root, hroot, hp⟩ :=
        Program.operands_site hr
      have h : Site st p c f before s after signature := ⟨hat, hs, hw, hc⟩
      cases hfound
      refine (h.planOne_eq hroot hp hclash rfl).trans (congrArg _ ?_)
      exact h.repair_operands hroot hp mismatch.typedLeft mismatch.typedRight mismatch.apart
    | unfit fit value mode type target =>
      obtain ⟨f, before, s, after, signature, hat, misfit, hsite⟩ := Program.unfit_site hr
      have h : Site st p c f before s after signature := ⟨hat, hs, hw, hc⟩
      obtain ⟨hu, rfl⟩ := Remark.clash?_unfit hfound
      rw [Remark.repair?, hu]
      rcases hsite with takes | ⟨root, hroot, part, hp, takes⟩
      · refine (h.planOne_eq takes.mem_values value.self_mem_parts hclash rfl).trans ?_
        exact congrArg _ (h.repair_stmt takes misfit.typed)
      · have hm : value ∈ root.parts := Expr.child_mem_parts hp takes.mem_children
        refine (h.planOne_eq hroot hm hclash rfl).trans ?_
        exact congrArg _ (h.repair_part hroot hp takes misfit.typed)

/-- The place for a value of a statement is a slot that holds the value. -/
theorem Stmt.Takes.slot? {S : Scope} {results own : List (Option BasicType)} {value : PlacedExpr}
    {target : BasicType} {fit : Fit} (h : s.Takes S results own value target fit)
    (hs : st.HasStmt s) : st.slot? fit.slot = some value.ref := by
  obtain ⟨shape, hshape, hnode⟩ := hs
  cases h with
  | declaration hv =>
    cases hshape
    exact (Store.slot?_varValue hnode).trans (by rw [List.getElem?_map, hv]; rfl)
  | assignment hv =>
    cases hshape
    exact (Store.slot?_assignValue hnode).trans (by rw [List.getElem?_map, hv]; rfl)
  | result hv =>
    cases hshape
    exact (Store.slot?_returnValue hnode).trans (by rw [List.getElem?_map, hv]; rfl)

/-- The place for a value of an expression is a slot that holds the value. -/
theorem Expr.Takes.slot? {S : Scope} {value : PlacedExpr} {target : BasicType} {fit : Fit}
    (h : part.Takes S value target fit) (hs : st.HasExpr part) :
    st.slot? fit.slot = some value.ref := by
  obtain ⟨shape, hshape, hnode⟩ := hs
  cases h with
  | argument _ hv =>
    cases hshape
    exact (Store.slot?_callArg hnode).trans (by rw [List.getElem?_map, hv]; rfl)

end Remarks

/-! ### Resolution -/

/-- Of functions with different names, each one has the signature that counts for its name. -/
theorem signaturesOf_of_mem {fs : List PlacedFunction} (h : (fs.map Function.name).Nodup)
    {f : PlacedFunction} (hf : f ∈ fs) : signaturesOf fs f.name = some f.signature := by
  have hfind : fs.reverse.find? (·.name == f.name) = some f := by
    have hpair : fs.reverse.Pairwise fun a b => a.name ≠ b.name := by
      rw [List.pairwise_reverse]
      exact (List.pairwise_map.1 h).imp Ne.symm
    refine find?_of_pairwise hpair (fun a _ b hab hb => ?_) (List.mem_reverse.2 hf)
      (beq_self_eq_true _)
    rw [beq_iff_eq] at hb
    simpa [hb] using hab
  rw [signaturesOf, hfind]
  rfl

/-- In a program without functions of one name, a value is converted to the type that the check
demanded. -/
theorem wanted_of_mem_remarks {p : PlacedProgram} (h : (p.functions.map Function.name).Nodup)
    {fit : Fit} {value : PlacedExpr} {mode : Mode} {type target : BasicType}
    (hr : .unfit fit value mode type target ∈ p.remarks) : fit.wanted? = some target := by
  obtain ⟨f, before, s, after, signature, hat, -, takes | ⟨root, -, part, -, takes⟩⟩ :=
    Program.unfit_site hr
  · cases takes with
    | declaration | assignment => rfl
    | result _ ht =>
      obtain rfl : f.signature = signature :=
        Option.some.inj ((signaturesOf_of_mem h hat.function).symm.trans hat.signature)
      simp [ht]
  · cases takes
    rfl

/-- Every clash that the checker reports about a source text is resolved to the repair of the very
node that the report is about. A clash between operands is resolved to the balancing of the binary
expression. A value that does not fit is resolved to its conversion to the type that it should have,
in the slot that holds it; there is no repair just when no assignment is made and the types are not
convertible. -/
theorem planOne_hits {source : String} {tree : SourceProgram} (h : parse source = .ok tree)
    (distinct : (tree.functions.map Function.name).Nodup) :
    let st := Store.ofProgram tree
    let p := st.program
    let c := p.check
    let resolve := fun r : Remark =>
      planOne Classifier.standard.classify c.info.oracle st p r.finding.diagnostic
    c.diagnostics = p.remarks.map (fun r => r.finding.diagnostic) ∧
      ∀ r ∈ p.remarks, (Classifier.standard.classify r.finding.diagnostic.message).isSome →
        match r with
        | .operands tag op left right _ _ =>
          st.expr tag.id = .binary tag op left right ∧ resolve r = .ok (some (.balance tag.id))
        | .unfit fit value _ type target =>
          st.slot? fit.slot = some value.ref ∧ st.expr value.ref = value ∧
            c.info.typeOf value = some type ∧
              resolve r = .ok (if fit.destination = .assignment ∨ type.convertibleTo target then
                some (.convert fit.slot target.name type.name fit.goal?) else none)
        | .other _ => False := by
  intro st p c resolve
  have hs : Stored tree p := stored_program tree
  have hc : c.Describes p := hs.represents.check_describes
  have hw : p.WellPlaced := hs.wellPlaced h
  obtain ⟨hdiagnostics, hclassify⟩ := classify_checked h
  have hdistinct : (p.functions.map Function.name).Nodup := by
    have hnames : p.functions.map Function.name = tree.functions.map Function.name := by
      have := congrArg (List.map Function.name) hs.functions
      simpa [Function.comp_def, Function.retag] using this
    rwa [hnames]
  refine ⟨hdiagnostics, fun r hr hsome => ?_⟩
  have hclash := hclassify r hr
  have hplan : resolve r = .ok r.repair? := planOne_remark hs.represents hw hc hr hclash
  rw [hclash] at hsome
  cases r with
  | other => cases hsome
  | operands tag op left right l r =>
    obtain ⟨f, before, s, after, signature, hat, -, root, hroot, hp⟩ := Program.operands_site hr
    exact ⟨hs.represents.expr (hat.mem_parts hroot hp), hplan⟩
  | unfit fit value mode type target =>
    obtain ⟨clash, hsome⟩ := Option.isSome_iff_exists.1 hsome
    have hplan : resolve (.unfit fit value mode type target)
        = .ok (if fit.destination = .assignment ∨ type.convertibleTo target then
          some (.convert fit.slot target.name type.name fit.goal?) else none) := by
      rw [hplan, Remark.repair?, (Remark.clash?_unfit hsome).1, wanted_of_mem_remarks hdistinct hr]
      rfl
    obtain ⟨f, before, s, after, signature, hat, misfit, hsite⟩ := Program.unfit_site hr
    -- The value is a part of a value of the statement, and its place is a slot that holds it.
    obtain ⟨⟨root, hroot, hm⟩, hslot⟩ : (∃ root ∈ s.values, value ∈ root.parts) ∧
        st.slot? fit.slot = some value.ref := by
      rcases hsite with takes | ⟨root, hroot, part, hp, takes⟩
      · exact ⟨⟨value, takes.mem_values, value.self_mem_parts⟩,
          takes.slot? (hs.represents.stmts s hat.mem_stmts)⟩
      · exact ⟨⟨root, hroot, Expr.child_mem_parts hp takes.mem_children⟩,
          takes.slot? (hs.represents.exprs part (hat.mem_parts hroot hp))⟩
    exact ⟨hslot, hs.represents.expr (hat.mem_parts hroot hm),
      (hc.typeOf_eq hat hroot hm).trans misfit.typed, hplan⟩

theorem planOne_hits_nested :
    ∃ tree, parse "func f(a int32, b int64) \x7b\n\tvar x int8 = a + b + a\n\x7d\n" = .ok tree ∧
      (tree.functions.map Function.name).Nodup ∧
        ∀ tag op left right l r,
          .operands tag op left right l r ∈ (Store.ofProgram tree).program.remarks →
            planOne Classifier.standard.classify (Store.ofProgram tree).program.check.info.oracle
                (Store.ofProgram tree) (Store.ofProgram tree).program
                (Remark.operands tag op left right l r).finding.diagnostic
              = .ok (some (.balance tag.id)) := by
  obtain ⟨tree, hp, hd⟩ := exists_parse (fun tree => decide (tree.functions.map Function.name).Nodup)
    (by decide +kernel : (parse
      "func f(a int32, b int64) \x7b\n\tvar x int8 = a + b + a\n\x7d\n").toOption.any
        (fun tree => decide (tree.functions.map Function.name).Nodup) = true)
  have hd := of_decide_eq_true hd
  refine ⟨tree, hp, hd, fun tag op left right l r hr => ?_⟩
  have hclash := (classify_checked hp).2 _ hr
  exact ((planOne_hits hp hd).2 _ hr (by rw [hclash]; rfl)).2

end Recast
