import Recast.Proofs.Printing.Recode
import Recast.Proofs.Repair.Converge
import Recast.Proofs.Store.Forget

/-!
# What shows of a pass

The text that a pass of repairs leaves and its report do not tell how the pass was made: the text
depends on which expressions were converted to which types, and the report on how many remarks ask
for repairs and how many of those for conversions.
-/

namespace Recast

/-! ### Code with conversions -/

section Code

variable {τ : Type} [Spelled τ] {W V : Insertions τ}

theorem Insertions.bare_place {id id' : ExprId} (h : W.types id = V.types id')
    {e e' : PlacedExpr} (he : e.bare = e'.bare) :
    (W.place id e).bare = (V.place id' e').bare := by
  have htype : (W id).map Insertion.type = (V id').map Insertion.type := h
  rw [place, place]
  cases hW : W id with
  | none =>
    rw [hW, Option.map_none, eq_comm, Option.map_eq_none_iff] at htype
    rw [htype]
    exact he
  | some i =>
    rw [hW, Option.map_some, eq_comm, Option.map_eq_some_iff] at htype
    obtain ⟨j, hV, htype⟩ := htype
    rw [hV]
    show (i.around e).bare = (j.around e').bare
    simp only [Insertion.around, Expr.bare, Expr.retag, Expr.retagAll, htype]
    exact congrArg _ (congrArg (· :: []) he)

/-- Only the types of the conversions show in the code of an expression, not the ids. -/
theorem Expr.bare_wrap_renumber {n : ExprId → ExprId} (e : PlacedExpr)
    (h : ∀ part ∈ e.parts, W.types (n part.ref) = V.types part.ref) :
    ((e.renumber n).wrap W).bare = (e.wrap V).bare := by
  have hplace {e b b' : PlacedExpr} (h : W.types (n e.ref) = V.types e.ref)
      (hb : b.bare = b'.bare) :
      (W.place (e.renumber n).ref b).bare = (V.place e.ref b').bare := by
    rw [ref_renumber]
    exact Insertions.bare_place h hb
  have hself (e : PlacedExpr) (h : ∀ part ∈ e.parts, W.types (n part.ref) = V.types part.ref) :
      W.types (n e.ref) = V.types e.ref := h e e.self_mem_parts
  refine hplace (hself e h) ?_
  induction e using Expr.inductArgs with
  | hole | literal | name => rfl
  | paren tag inner ih =>
    have hinner := fun part (hp : part ∈ inner.parts) =>
      h part (mem_parts_of_child (by simp [children]) hp)
    exact congrArg (Expr.paren ()) (hplace (hself inner hinner) (ih hinner))
  | neg tag operand ih =>
    have hoperand := fun part (hp : part ∈ operand.parts) =>
      h part (mem_parts_of_child (by simp [children]) hp)
    exact congrArg (Expr.neg ()) (hplace (hself operand hoperand) (ih hoperand))
  | binary tag op left right ihl ihr =>
    have hleft := fun part (hp : part ∈ left.parts) =>
      h part (mem_parts_of_child (by simp [children]) hp)
    have hright := fun part (hp : part ∈ right.parts) =>
      h part (mem_parts_of_child (by simp [children]) hp)
    exact congrArg₂ (Expr.binary () op) (hplace (hself left hleft) (ihl hleft))
      (hplace (hself right hright) (ihr hright))
  | call tag callee args ihc iha =>
    have hcallee := fun part (hp : part ∈ callee.parts) =>
      h part (mem_parts_of_child (by simp [children]) hp)
    have hargs : ((args.map (renumber n)).map (wrap W)).map bare = (args.map (wrap V)).map bare := by
      rw [List.map_map, List.map_map, List.map_map]
      refine List.map_congr_left fun arg ha => ?_
      have harg := fun part (hp : part ∈ arg.parts) =>
        h part (mem_parts_of_child (by simp [children, ha]) hp)
      exact hplace (hself arg harg) (iha arg ha harg)
    simp only [renumber, renumberAll_eq, wrapBelow, wrapAll_eq, bare, retag, retagAll_eq]
    exact congrArg₂ (Expr.call ()) (hplace (hself callee hcallee) (ihc hcallee)) hargs

theorem Stmt.bare_wrap_renumber {ρ : Renumbering} (s : PlacedStmt)
    (h : ∀ e ∈ s.children, ∀ part ∈ e.parts, W.types (ρ.expr part.ref) = V.types part.ref) :
    ((s.renumber ρ).wrap W).bare = (s.wrap V).bare := by
  have hexprs (es : List PlacedExpr) (hes : ∀ e ∈ es, e ∈ s.children) :
      ((es.map (Expr.renumber ρ.expr)).map (Expr.wrap W)).map Expr.bare
        = (es.map (Expr.wrap V)).map Expr.bare := by
    rw [List.map_map, List.map_map, List.map_map]
    exact List.map_congr_left fun e he => e.bare_wrap_renumber (h e (hes e he))
  cases s with
  | hole => rfl
  | var _ names type? values =>
    have htype : (type?.map TypeRef.bare).map TypeRef.bare = type?.map TypeRef.bare := by
      cases type? <;> rfl
    simp only [renumber, wrap, bare, hexprs values (fun _ he => he), htype]
  | assign _ targets values =>
    exact congrArg₂ (Stmt.assign ()) (hexprs targets fun _ => List.mem_append_left _)
      (hexprs values fun _ => List.mem_append_right _)
  | ret _ values => exact congrArg (Stmt.ret ()) (hexprs values fun _ he => he)
  | expr _ e => exact congrArg (Stmt.expr ()) (e.bare_wrap_renumber (h e List.mem_cons_self))

theorem Stmt.bare_wrap_forget (h : W.types = V.types) (s : PlacedStmt) :
    (s.forget.wrap W).bare = (s.wrap V).bare := by
  rw [← renumber_refl]
  exact s.bare_wrap_renumber fun e _ part _ => congrFun h part.ref

theorem Function.bare_wrap_forget (h : W.types = V.types) (f : PlacedFunction) :
    (f.forget.wrap W).bare = (f.wrap V).bare := by
  have hbody : ((f.body.map Stmt.forget).map (Stmt.wrap W)).map Stmt.bare
      = (f.body.map (Stmt.wrap V)).map Stmt.bare := by
    rw [List.map_map, List.map_map, List.map_map]
    exact List.map_congr_left fun s _ => s.bare_wrap_forget h
  have hparams : (f.params.map Param.bare).map Param.bare = f.params.map Param.bare := by
    rw [List.map_map]
    rfl
  have hresults : (f.results.map TypeRef.bare).map TypeRef.bare = f.results.map TypeRef.bare := by
    rw [List.map_map]
    rfl
  simp only [bare, wrap, forget, hbody, hparams, hresults]

/-- Programs that are the same without their spans have the same code with conversions of the same
expressions to the same types. -/
theorem Program.bare_wrap {p p' : PlacedProgram} (h : W.types = V.types)
    (hforget : p.functions.map Function.forget = p'.functions.map Function.forget) :
    (p.wrap W).functions.map Function.bare = (p'.wrap V).functions.map Function.bare := by
  have hfunctions {U : Insertions τ} (h : W.types = U.types) (p : PlacedProgram) :
      (p.functions.map Function.forget).map (fun f => (f.wrap W).bare)
        = (p.wrap U).functions.map Function.bare := by
    rw [wrap, List.map_map, List.map_map]
    exact List.map_congr_left fun f _ => f.bare_wrap_forget h
  rw [← hfunctions rfl p, hforget, hfunctions h p']

/-! ### Lines with conversions -/

theorem Function.samePlaces_wrap (W : Insertions τ) (f : PlacedFunction) :
    f.SamePlaces (f.wrap W) where
  span := rfl
  body := by
    show (f.body.map (Stmt.wrap W)).map Stmt.span = _
    rw [List.map_map]
    exact List.map_congr_left fun s _ => s.span_wrap W

/-- Conversions change nothing about where a program has its lines. -/
theorem Program.lines_wrap {p : PlacedProgram} (hp : p.Printable) (W : Insertions τ) :
    (p.wrap W).lines = recode p.lines (p.wrap W).codes := by
  refine Program.lines_eq_recode hp rfl ?_
  exact List.forall₂_map_right_iff.2 (List.forall₂_same.2 fun f _ => f.samePlaces_wrap W)

/-- Programs that are laid out in the same way are so with conversions, if these make the same code.
-/
theorem Program.render_wrap_eq {p q : PlacedProgram} (hp : p.Printable) (hq : q.Printable)
    (hlines : p.lines = q.lines) (hcode : (p.wrap W).functions.map Function.bare
      = (q.wrap V).functions.map Function.bare) : (p.wrap W).render = (q.wrap V).render := by
  apply Program.render_eq
  rw [lines_wrap hp, lines_wrap hq, hlines, codes_eq hcode]

end Code

/-! ### Reports -/

/-- The report of a pass over remarks. -/
def reportOn (rules : RuleTable) (info : TypeInfo) (rs : List Remark) : RepairReport :=
  let planned := (rs.filterMap Remark.repair?).length
  let applied := (rs.filterMap (Remark.mending? rules info)).length
  ⟨planned, applied, planned - applied⟩

/-- A pass over the remarks of a check, in any order, converts the values that the remarks ask for
to the types that they ask for. -/
theorem exists_outcome {source : String} {tree : SourceProgram} (h : parse source = .ok tree)
    (rules : RuleTable) {rs : List Remark} :
    let st := Store.ofProgram tree
    let p := st.program
    let info := p.check.info
    rs.Perm p.remarks →
      ∃ t W, repair rules Classifier.standard.classify info.oracle st
          (rs.map fun r => r.finding.diagnostic) = .ok (t, reportOn rules info rs) ∧
        t.program = p.wrap W ∧
        (∀ r ∈ p.remarks, ∀ id ∈ r.values, W.types id = r.made? rules info id) ∧
        ∀ id, id ∉ p.remarks.flatMap Remark.values → W.types id = none := by
  intro st p info hperm
  obtain ⟨t, report, W, hrepair, hout, hpass, hmade, hsize⟩ := exists_pass_of_perm h rules hperm
  have hreport : report = reportOn rules info rs := by
    have hread := performAll_report rules info.oracle st (rs.filterMap Remark.repair?)
      (rs.filterMap (Remark.mending? rules info)).length (by rw [hout]; exact hsize)
    rw [hout] at hread
    exact hread
  rw [hreport] at hrepair
  refine ⟨t, W, hrepair, hpass.represents.program, fun r hr => hmade r (hperm.mem_iff.2 hr),
    fun id hid => ?_⟩
  rw [Insertions.types, hpass.untouched id fun hm => hid ?_]
  · rfl
  · exact (hperm.flatMap_right _).mem_iff.1 hm

end Recast
