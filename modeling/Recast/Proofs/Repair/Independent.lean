import Recast.Proofs.Repair.Fresh
import Recast.Proofs.Repair.Format
import Recast.Proofs.Types.Stages

/-!
# Functions are fixed one by one

What is said about the body of a function and what is done about it depends on that body and on the
heads of all functions. Another program with the same heads may have other bodies elsewhere, so that
the nodes of this one have other ids there and stand in other places; it is fixed to the same code.
-/

namespace Recast

/-! ### Values in one function -/

theorem Expr.mem_numbers {e : PlacedExpr} {id : ExprId} :
    id ∈ e.numbers ↔ ∃ part ∈ e.parts, part.ref = id := by
  rw [e.perm_numbers.mem_iff, List.mem_map]

theorem Stmt.mem_numbers {s : PlacedStmt} {id : ExprId} :
    id ∈ s.numbers ↔ id ∈ (s.children.flatMap Expr.parts).map Expr.ref := by
  simp only [numbers, List.mem_flatMap, Expr.mem_numbers, List.mem_map]
  constructor
  · rintro ⟨e, he, part, hp, rfl⟩
    exact ⟨part, ⟨e, he, hp⟩, rfl⟩
  · rintro ⟨part, ⟨e, he, hp⟩, rfl⟩
    exact ⟨e, he, part, hp, rfl⟩

/-- The ids of the expressions in a function. -/
def Function.numbers (f : PlacedFunction) : List ExprId := f.body.flatMap Stmt.numbers

/-- What is said about a body is about expressions in it. -/
theorem Function.mem_numbers_of_value {f : PlacedFunction} {signatures : String → Option Signature}
    {r : Remark} {id : ExprId} (hr : r ∈ f.remarks signatures) (hid : id ∈ r.values) :
    id ∈ f.numbers := by
  have hmem := (f.values_remarks signatures).subset (List.mem_flatMap.2 ⟨r, hr, hid⟩)
  obtain ⟨s, hs, hmem⟩ := List.mem_flatMap.1 hmem
  exact List.mem_flatMap.2 ⟨s, hs, Stmt.mem_numbers.2 hmem⟩

theorem Program.Numbered.nodup_numbers {p : PlacedProgram} (h : p.Numbered) :
    (p.functions.flatMap Function.numbers).Nodup := by
  have hnumbers : p.functions.flatMap Function.numbers = p.exprs.flatMap Expr.numbers := by
    rw [Program.exprs, Program.stmts, List.flatMap_assoc, List.flatMap_assoc]
    rfl
  rw [hnumbers, h.exprs]
  exact List.nodup_range

/-- What is said about a value in a function is said about that function. -/
theorem Program.Numbered.mem_remarks_of_value {p : PlacedProgram} (h : p.Numbered)
    {f : PlacedFunction} (hf : f ∈ p.functions) {r : Remark} (hr : r ∈ p.remarks) {id : ExprId}
    (hid : id ∈ r.values) (hnumber : id ∈ f.numbers) :
    r ∈ f.remarks (signaturesOf p.functions) := by
  rcases List.mem_append.1 hr with hr | hr
  · obtain ⟨g, -, earlier, hr⟩ := mem_declarationRemarks hr
    have hother := g.isOther_declarationRemarks r hr
    cases r with
    | other => cases hid
    | unfit | operands => exact hother.elim
  · obtain ⟨g, hg, hr⟩ := List.mem_flatMap.1 hr
    by_cases hfg : f = g
    · exact hfg ▸ hr
    · have hdisjoint := (List.nodup_flatMap.1 h.nodup_numbers).2
      have : Std.Symm (Function.onFun List.Disjoint Function.numbers) :=
        ⟨fun _ _ h _ hg hf => h hf hg⟩
      exact absurd (Function.mem_numbers_of_value hr hid)
        (List.disjoint_left.1 (hdisjoint.forall hf hg hfg) hnumber)

/-- What a repair for a value that does not fit may convert is that value. -/
theorem Remark.value_of_unfit {rules : RuleTable} {info : TypeInfo} {fit : Fit} {v : PlacedExpr}
    {mode : Mode} {type target : BasicType} {m : Mending}
    (hm : (Remark.unfit fit v mode type target).candidate? rules info = some m) : m.value = v := by
  rw [candidate?, Option.ite_none_left_eq_some] at hm
  obtain ⟨wanted, -, hm⟩ := Option.bind_eq_some_iff.1 hm.2
  obtain ⟨-, hm⟩ := Option.ite_none_right_eq_some.1 hm
  cases hm
  rfl

/-- What a repair for two operands may convert is one of them. -/
theorem Remark.value_of_operands {rules : RuleTable} {info : TypeInfo} {tag : Placed}
    {op : BinaryOp} {left right : PlacedExpr} {l r : BasicType} {m : Mending}
    (hm : (Remark.operands tag op left right l r).candidate? rules info = some m) :
    m.value ∈ (Expr.binary tag op left right).children := by
  rw [candidate?] at hm
  split at hm
  · cases hm
    simp [Expr.children]
  · cases hm
    simp [Expr.children]
  · cases hm

/-- The value that a repair for a remark about a statement may convert stands in a value of it. -/
theorem Stmt.exists_root_of_candidate {rules : RuleTable} {info : TypeInfo} {S : Scope}
    {results own : List (Option BasicType)} {s : PlacedStmt} {r : Remark} {m : Mending}
    (hr : r ∈ s.remarks S results own) (hm : r.candidate? rules info = some m) :
    ∃ root ∈ s.values, m.value ∈ root.parts := by
  have hclash : ¬ r.IsOther := by
    cases r with
    | other => cases hm
    | _ => exact id
  rcases Stmt.mem_remarks hr with hr | ⟨root, hroot, hr⟩
  · cases (Stmt.clashes_or_isOther hr).resolve_right hclash with
    | unfit takes =>
      rw [Remark.value_of_unfit hm]
      exact ⟨_, takes.mem_values, Expr.self_mem_parts _⟩
  · obtain ⟨part, hpart, hr⟩ := Expr.mem_remarks hr
    have hchild : m.value ∈ part.children := by
      cases (Expr.clashes_or_isOther hr).resolve_right hclash with
      | operands binary => exact binary ▸ Remark.value_of_operands hm
      | unfit takes => exact Remark.value_of_unfit hm ▸ takes.mem_children
    exact ⟨root, hroot, Expr.child_mem_parts hpart hchild⟩

theorem Remark.ref_mem_values {rules : RuleTable} {info : TypeInfo} {r : Remark} {m : Mending}
    (hm : r.candidate? rules info = some m) : m.value.ref ∈ r.values := by
  cases r with
  | other => cases hm
  | unfit => rw [value_of_unfit hm, values, List.mem_singleton]
  | operands => exact List.mem_map_of_mem (value_of_operands hm)

/-- Conversions are what the remarks of a program ask for. -/
structure Insertions.Answers (W : Insertions BasicType) (rules : RuleTable) (info : TypeInfo)
    (p : PlacedProgram) : Prop where
  made : ∀ r ∈ p.remarks, ∀ id ∈ r.values, W.types id = r.made? rules info id
  rest : ∀ id, id ∉ p.remarks.flatMap Remark.values → W.types id = none

/-! ### One function in two programs -/

/-- Two programs have a function in common, up to ids and spans: its nodes have other ids in the
second one. The heads of the functions tell the same signatures. -/
structure Function.Shared (p p' : PlacedProgram) (f f' : PlacedFunction) (ρ : Renumbering) :
    Prop where
  mem : f ∈ p.functions
  mem' : f' ∈ p'.functions
  signatures : signaturesOf p'.functions = signaturesOf p.functions
  code : f.bare = f'.bare
  body : f.body.map (Stmt.renumber ρ) = f'.body.map Stmt.forget
  numbers : f.numbers.map ρ.expr = f'.numbers

namespace Function.Shared

variable {p p' : PlacedProgram} {f f' : PlacedFunction} {ρ : Renumbering} {rules : RuleTable}
  {c c' : Checked} {r : Remark} {m : Mending}

theorem name_eq (h : Shared p p' f f' ρ) : f.name = f'.name := (Function.mk.inj h.code).2.1

/-- The same is said about the body in both programs. -/
theorem remarks (h : Shared p p' f f' ρ) :
    (f'.remarks (signaturesOf p'.functions)).map Remark.forget
      = (f.remarks (signaturesOf p.functions)).map (Remark.renumber ρ) := by
  unfold Function.remarks
  rw [h.signatures, ← h.name_eq]
  cases signaturesOf p.functions f.name with
  | none => rfl
  | some signature =>
    dsimp only
    rw [← Function.scope_eq_of_bare h.code, ← Function.signature_eq_of_bare h.code,
      ← Stmt.bodyRemarks_forget, ← Stmt.bodyRemarks_renumber, h.body]

theorem injOn (h : Shared p p' f f' ρ) (hp' : p'.Numbered) :
    ∀ id ∈ f.numbers, ∀ id' ∈ f.numbers, ρ.expr id = ρ.expr id' → id = id' := by
  have hnodup : f'.numbers.Nodup := (List.nodup_flatMap.1 hp'.nodup_numbers).1 f' h.mem'
  rw [← h.numbers] at hnodup
  exact fun id hid id' hid' => List.inj_on_of_nodup_map hnodup hid hid'

/-- What a repair may convert has the same types in both programs, and so have its parts. -/
theorem matches_candidate (h : Shared p p' f f' ρ) (hc : c.Describes p) (hc' : c'.Describes p')
    (hr : r ∈ f.remarks (signaturesOf p.functions)) (hm : r.candidate? rules c.info = some m) :
    c.info.Matches c'.info ρ.expr m.value := by
  unfold Function.remarks at hr
  split at hr
  · cases hr
  rename_i signature hsignature
  obtain ⟨before, s, after, hbody, hr⟩ := Stmt.mem_bodyRemarks hr
  have hat : p.At f before s after signature := ⟨h.mem, hsignature, hbody⟩
  obtain ⟨root, hroot, hvalue⟩ := Stmt.exists_root_of_candidate hr hm
  -- the statement of the other program that has the same place in the body
  have hsplit := h.body
  rw [hbody, List.map_append, List.map_cons, eq_comm] at hsplit
  obtain ⟨before', rest', hbody', hbefore, hrest⟩ := List.map_eq_append_iff.1 hsplit
  obtain ⟨s', after', rfl, hs, -⟩ := List.map_eq_cons_iff.1 hrest
  have hat' : p'.At f' before' s' after' signature := by
    refine ⟨h.mem', ?_, hbody'⟩
    rw [h.signatures, ← h.name_eq, hsignature]
  have hscope : p'.scopeAt f' signature before' = p.scopeAt f signature before := by
    have hbares := congrArg (List.map Stmt.bare) hbefore
    simp only [List.map_map, Function.comp_def, Stmt.bare_forget, Stmt.bare_renumber] at hbares
    rw [Program.scopeAt, Program.scopeAt, h.signatures, Function.scope_eq_of_bare h.code,
      Stmt.foldl_scope_eq_of_bare hbares]
  intro part hpart
  have hparts : part ∈ root.parts := Expr.mem_parts_trans hpart hvalue
  obtain ⟨root', hroot', hroots⟩ : ∃ root' ∈ s'.values, root'.forget = root.renumber ρ.expr := by
    have hvalues := congrArg Stmt.values hs
    rw [← Stmt.renumber_refl, Stmt.values_renumber, Stmt.values_renumber] at hvalues
    have hmem := hvalues ▸ List.mem_map_of_mem (f := Expr.renumber ρ.expr) hroot
    obtain ⟨root', hroot', hroots⟩ := List.mem_map.1 hmem
    exact ⟨root', hroot', root'.renumber_id ▸ hroots⟩
  obtain ⟨part', hpart', hpairs⟩ : ∃ part' ∈ root'.parts, part'.forget = part.renumber ρ.expr := by
    have hmem := List.mem_map_of_mem (f := Expr.renumber ρ.expr) hparts
    rw [← Expr.parts_renumber, ← hroots, Expr.parts_forget] at hmem
    exact List.mem_map.1 hmem
  have hbares : part'.bare = part.bare := by
    rw [← part'.bare_forget, hpairs, part.bare_renumber]
  calc
    c'.info.typeOf (part.renumber ρ.expr)
      = c'.info.typeOf part' := by rw [← hpairs, (TypeInfo.Agrees.refl c'.info).typeOf_forget]
    _ = part'.typeIn (p'.scopeAt f' signature before') := hc'.typeOf_eq hat' hroot' hpart'
    _ = part.typeIn (p.scopeAt f signature before) := by
      rw [hscope, Expr.typeIn_eq_of_bare hbares]
    _ = c.info.typeOf part := (hc.typeOf_eq hat hroot hparts).symm

/-- The messages about the body are the same in both programs. -/
theorem messages (h : Shared p p' f f' ρ) :
    (f'.remarks (signaturesOf p'.functions)).map (fun r => r.finding.diagnostic.message)
      = (f.remarks (signaturesOf p.functions)).map fun r => r.finding.diagnostic.message := by
  have hmessages := congrArg (List.map fun r : Remark => r.finding.complaint.message) h.remarks
  rw [List.map_map, List.map_map] at hmessages
  refine .trans (List.map_congr_left fun r _ => ?_) (hmessages.trans
    (List.map_congr_left fun r _ => ?_))
  · exact congrArg Complaint.message r.complaint_forget.symm
  · exact congrArg Complaint.message r.complaint_renumber

/-- The remarks about the body are about the same values in both programs. -/
theorem exists_remark (h : Shared p p' f f' ρ) {r' : Remark}
    (hr' : r' ∈ f'.remarks (signaturesOf p'.functions)) :
    ∃ r ∈ f.remarks (signaturesOf p.functions), r'.values = r.values.map ρ.expr := by
  have hmem := List.mem_map_of_mem (f := Remark.forget) hr'
  rw [h.remarks] at hmem
  obtain ⟨r, hr, hforget⟩ := List.mem_map.1 hmem
  exact ⟨r, hr, by rw [← r'.values_forget, ← hforget, r.values_renumber]⟩

variable {W V : Insertions BasicType}

/-- The expressions in the body are converted to the same types in both programs. -/
theorem types_eq (h : Shared p p' f f' ρ) (hc : c.Describes p) (hc' : c'.Describes p')
    (hp : p.Numbered) (hp' : p'.Numbered) (hW : W.Answers rules c.info p)
    (hV : V.Answers rules c'.info p') {id : ExprId} (hid : id ∈ f.numbers) :
    V.types (ρ.expr id) = W.types id := by
  have hmem {r : Remark} (hr : r ∈ f.remarks (signaturesOf p.functions)) : r ∈ p.remarks :=
    List.mem_append_right _ (List.mem_flatMap.2 ⟨f, h.mem, hr⟩)
  have hmem' {r : Remark} (hr : r ∈ f'.remarks (signaturesOf p'.functions)) : r ∈ p'.remarks :=
    List.mem_append_right _ (List.mem_flatMap.2 ⟨f', h.mem', hr⟩)
  by_cases hvalue : ∃ r ∈ f.remarks (signaturesOf p.functions), id ∈ r.values
  · obtain ⟨r, hr, hvalue⟩ := hvalue
    have hrenumbered := List.mem_map_of_mem (f := Remark.renumber ρ) hr
    rw [← h.remarks] at hrenumbered
    obtain ⟨r', hr', hforget⟩ := List.mem_map.1 hrenumbered
    have hvalue' : ρ.expr id ∈ r'.values := by
      rw [← r'.values_forget, hforget, r.values_renumber]
      exact List.mem_map_of_mem hvalue
    calc
      V.types (ρ.expr id)
        = r'.made? rules c'.info (ρ.expr id) := hV.made r' (hmem' hr') _ hvalue'
      _ = (r.renumber ρ).made? rules c'.info (ρ.expr id) := by
        rw [← hforget, Remark.made?_forget (.refl c'.info)]
      _ = r.made? rules c.info id := by
        refine r.made?_renumber (fun m hm => h.matches_candidate hc hc' hr hm) fun m hm => ?_
        exact h.injOn hp' _ (Function.mem_numbers_of_value hr (Remark.ref_mem_values hm)) _ hid
      _ = W.types id := (hW.made r (hmem hr) _ hvalue).symm
  · rw [hW.rest id, hV.rest]
    · intro hvalue'
      obtain ⟨r', hr', hvalue'⟩ := List.mem_flatMap.1 hvalue'
      have hnumber : ρ.expr id ∈ f'.numbers := h.numbers ▸ List.mem_map_of_mem hid
      obtain ⟨r, hr, hvalues⟩ :=
        h.exists_remark (hp'.mem_remarks_of_value h.mem' hr' hvalue' hnumber)
      obtain ⟨id', hid', heq⟩ := List.mem_map.1 (hvalues ▸ hvalue')
      have := h.injOn hp' _ (Function.mem_numbers_of_value hr hid') _ hid heq
      exact hvalue ⟨r, hr, this ▸ hid'⟩
    · intro hvalue'
      obtain ⟨r, hr, hvalue'⟩ := List.mem_flatMap.1 hvalue'
      exact hvalue ⟨r, hp.mem_remarks_of_value h.mem hr hvalue' hid, hvalue'⟩

/-- The body has the same code in both programs with conversions. -/
theorem bare_wrap (h : Shared p p' f f' ρ)
    (htypes : ∀ id ∈ f.numbers, V.types (ρ.expr id) = W.types id) :
    (f.wrap W).body.map Stmt.bare = (f'.wrap V).body.map Stmt.bare := by
  have hwrap (s : PlacedStmt) (hs : s ∈ f.body) :
      ((s.renumber ρ).wrap V).bare = (s.wrap W).bare := by
    refine s.bare_wrap_renumber fun e he part hp => htypes _ ?_
    refine List.mem_flatMap.2 ⟨s, hs, List.mem_flatMap.2 ⟨e, he, ?_⟩⟩
    exact Expr.mem_numbers.2 ⟨part, hp, rfl⟩
  calc
    (f.wrap W).body.map Stmt.bare
      = f.body.map fun s => (s.wrap W).bare := List.map_map ..
    _ = f.body.map fun s => ((s.renumber ρ).wrap V).bare :=
      List.map_congr_left fun s hs => (hwrap s hs).symm
    _ = (f.body.map (Stmt.renumber ρ)).map fun s => (s.wrap V).bare := by
      rw [List.map_map, Function.comp_def]
    _ = f'.body.map fun s => (s.forget.wrap V).bare := by
      rw [h.body, List.map_map, Function.comp_def]
    _ = f'.body.map fun s => (s.wrap V).bare :=
      List.map_congr_left fun s _ => s.bare_wrap_forget rfl
    _ = (f'.wrap V).body.map Stmt.bare := by
      rw [Function.wrap, List.map_map, Function.comp_def]

end Function.Shared

/-! ### Other ids -/

/-- Lists of distinct elements are mapped to any list of their length. -/
theorem exists_map_eq {xs : List Nat} (hxs : xs.Nodup) : ∀ {ys : List Nat},
    xs.length = ys.length → ∃ g : Nat → Nat, xs.map g = ys := by
  induction xs with
  | nil => exact fun hlength => ⟨id, (List.eq_nil_of_length_eq_zero hlength.symm).symm⟩
  | cons x xs ih =>
    intro ys hlength
    obtain ⟨hx, hxs⟩ := List.nodup_cons.1 hxs
    cases ys with
    | nil => cases hlength
    | cons y ys =>
      obtain ⟨g, rfl⟩ := ih hxs (Nat.succ.inj hlength)
      refine ⟨Function.update g x y, ?_⟩
      rw [List.map_cons, Function.update_self]
      refine congrArg (y :: ·) (List.map_congr_left fun z hz => ?_)
      exact Function.update_of_ne (fun h => hx (Eq.subst h hz)) y g

theorem Function.bare_eq_of_shell {f f' : PlacedFunction} (hshell : f.shell = f'.shell)
    (hbody : f.body.map Stmt.bare = f'.body.map Stmt.bare) : f.bare = f'.bare := by
  obtain ⟨-, hname, hparams, hresults, -⟩ := Function.mk.inj hshell
  exact Function.mk.injEq .. |>.mpr ⟨rfl, hname, hparams, hresults, hbody⟩

/-- Functions with one body in programs with the same heads are one function in two programs. -/
theorem exists_shared {p p' : PlacedProgram} (hp : p.Numbered)
    (heads : p.functions.map Function.shell = p'.functions.map Function.shell) {k : Nat}
    {f f' : PlacedFunction} (hf : p.functions[k]? = some f) (hf' : p'.functions[k]? = some f')
    (hbody : f.body.map Stmt.bare = f'.body.map Stmt.bare) :
    ∃ ρ, Function.Shared p p' f f' ρ := by
  have hstmts : (f.body.map Stmt.ref).Nodup := by
    have hnodup : (p.stmts.map Stmt.ref).Nodup := hp.stmts ▸ List.nodup_range
    rw [Program.stmts, List.map_flatMap] at hnodup
    exact (List.nodup_flatMap.1 hnodup).1 f (List.mem_of_getElem? hf)
  have hids : f.numbers.Nodup :=
    (List.nodup_flatMap.1 hp.nodup_numbers).1 f (List.mem_of_getElem? hf)
  have hlength : f.body.length = f'.body.length := by simpa using congrArg List.length hbody
  have hnumbers : f.numbers.length = f'.numbers.length := by
    have hexprs : (f.body.flatMap Stmt.children).map Expr.bare
        = (f'.body.flatMap Stmt.children).map Expr.bare := by
      have := congrArg (List.flatMap Stmt.children) hbody
      simpa only [List.flatMap_map, List.map_flatMap, Stmt.children_bare] using this
    have := Expr.length_flatMap_numbers (f.body.flatMap Stmt.children)
    rw [hexprs, ← Expr.length_flatMap_numbers, List.flatMap_assoc, List.flatMap_assoc] at this
    exact this
  obtain ⟨stmt, hstmt⟩ : ∃ stmt, (f.body.map Stmt.ref).map stmt = f'.body.map Stmt.ref :=
    exists_map_eq hstmts (by rw [List.length_map, List.length_map, hlength])
  obtain ⟨expr, hexpr⟩ := exists_map_eq hids hnumbers
  have hshell : f.shell = f'.shell := by
    have := congrArg (·[k]?) heads
    simpa [hf, hf'] using this
  refine ⟨⟨expr, stmt⟩, List.mem_of_getElem? hf, List.mem_of_getElem? hf', ?_, ?_, ?_, hexpr⟩
  · rw [← signaturesOf_shell, ← heads, signaturesOf_shell]
  · exact Function.bare_eq_of_shell hshell hbody
  · rw [← Stmt.map_renumber_refl]
    refine Stmt.map_renumber_eq hbody ?_ ?_
    · rw [hstmt]
      exact (List.map_id _).symm
    · rw [← Function.numbers, hexpr]
      exact (List.map_id _).symm

/-! ### Two sources -/

/-- A store keeps the functions of a tree in their order. -/
theorem Stored.exists_function {tree : SourceProgram} {p : PlacedProgram} (h : Stored tree p)
    {k : Nat} {f : SourceFunction} (hf : tree.functions[k]? = some f) :
    ∃ φ, p.functions[k]? = some φ ∧ φ.bare = f.bare := by
  have hk := congrArg (·[k]?) h.sameText.functions
  simp only [List.getElem?_map, hf, Option.map_some, Option.map_eq_some_iff] at hk
  exact hk

/-- Two functions with one body, in modules with the same heads, are fixed alike: the checker has
the same messages about both bodies, in the same order, and after the repairs of either module the
bodies are the same code. -/
theorem fix_bodies_independent {source source' : String} {tree tree' : SourceProgram}
    (h : parse source = .ok tree) (h' : parse source' = .ok tree')
    (heads : tree.functions.map Function.shell = tree'.functions.map Function.shell) {k : Nat}
    {f f' : SourceFunction} (hf : tree.functions[k]? = some f) (hf' : tree'.functions[k]? = some f')
    (hbody : f.body.map Stmt.bare = f'.body.map Stmt.bare) (rules : RuleTable) :
    let st := Store.ofProgram tree
    let st' := Store.ofProgram tree'
    st.program.bodyMessages k = st'.program.bodyMessages k ∧
      ∃ t report t' report' g g',
        repair rules Classifier.standard.classify st.program.check.info.oracle st
          st.program.check.diagnostics = .ok (t, report) ∧
        repair rules Classifier.standard.classify st'.program.check.info.oracle st'
          st'.program.check.diagnostics = .ok (t', report') ∧
        t.program.functions[k]? = some g ∧ t'.program.functions[k]? = some g' ∧
        g.body.map Stmt.bare = g'.body.map Stmt.bare := by
  intro st st'
  have hs : Stored tree st.program := stored_program tree
  have hs' : Stored tree' st'.program := stored_program tree'
  obtain ⟨φ, hφ, hcode⟩ := hs.exists_function hf
  obtain ⟨φ', hφ', hcode'⟩ := hs'.exists_function hf'
  have hbodies : φ.body.map Stmt.bare = φ'.body.map Stmt.bare :=
    (congrArg Function.body hcode).trans (hbody.trans (congrArg Function.body hcode').symm)
  have hshells : st.program.functions.map Function.shell
      = st'.program.functions.map Function.shell :=
    (map_shell_eq hs.sameText.functions).trans
      (heads.trans (map_shell_eq hs'.sameText.functions).symm)
  obtain ⟨ρ, hshared⟩ := exists_shared hs.numbers.numbered hshells hφ hφ' hbodies
  have hdistinct := hs.represents.distinct.sublist st.program.names_sublist
  have hdistinct' := hs'.represents.distinct.sublist st'.program.names_sublist
  have hmessages : st.program.bodyMessages k = st'.program.bodyMessages k := by
    rw [Program.bodyMessages, Program.bodyMessages, Program.bodyFindings_eq hdistinct hφ,
      Program.bodyFindings_eq hdistinct' hφ', List.map_map, List.map_map]
    exact hshared.messages.symm
  obtain ⟨t, W, hrepair, hprogram, hmade, hrest⟩ :=
    exists_outcome h rules (List.Perm.refl st.program.remarks)
  obtain ⟨t', V, hrepair', hprogram', hmade', hrest'⟩ :=
    exists_outcome h' rules (List.Perm.refl st'.program.remarks)
  rw [← (classify_checked h).1] at hrepair
  rw [← (classify_checked h').1] at hrepair'
  have htypes : ∀ id ∈ φ.numbers, V.types (ρ.expr id) = W.types id := fun id hid =>
    hshared.types_eq (Program.check_describes _ hdistinct) (Program.check_describes _ hdistinct')
      hs.numbers.numbered hs'.numbers.numbered ⟨hmade, hrest⟩ ⟨hmade', hrest'⟩ hid
  have hwrap {p : PlacedProgram} {W : Insertions BasicType} {f : PlacedFunction}
      (hf : p.functions[k]? = some f) : (p.wrap W).functions[k]? = some (f.wrap W) := by
    rw [Program.wrap, List.getElem?_map, hf, Option.map_some]
  refine ⟨hmessages, t, _, t', _, φ.wrap W, φ'.wrap V, hrepair, hrepair', ?_, ?_,
    hshared.bare_wrap htypes⟩
  · rw [hprogram]
    exact hwrap hφ
  · rw [hprogram']
    exact hwrap hφ'

/-- Whether functions are an `f(a int8) int64` and a `g(b int32) int64` that returns what it is
given. -/
def isForwarding : List SourceFunction → Bool
  | [⟨_, "f", [⟨"a", ⟨"int8", _⟩, false, _⟩], [⟨"int64", _⟩], _⟩,
      ⟨_, "g", [⟨"b", ⟨"int32", _⟩, false, _⟩], [⟨"int64", _⟩], [.ret _ [.name _ "b"]]⟩] => true
  | _ => false

/-- The heads of `f(a int8) int64` and `g(b int32) int64`. -/
def forwardingHeads : List (Function Unit Unit) :=
  [⟨(), "f", [⟨"a", ⟨"int8", ⟨0, 0⟩⟩, false, ⟨0, 0⟩⟩], [⟨"int64", ⟨0, 0⟩⟩], []⟩,
    ⟨(), "g", [⟨"b", ⟨"int32", ⟨0, 0⟩⟩, false, ⟨0, 0⟩⟩], [⟨"int64", ⟨0, 0⟩⟩], []⟩]

theorem exists_of_isForwarding {functions : List SourceFunction} (h : isForwarding functions) :
    functions.map Function.shell = forwardingHeads ∧
      ∃ f, functions[1]? = some f ∧ f.body.map Stmt.bare = [.ret () [.name () "b"]] := by
  unfold isForwarding at h
  split at h
  · exact ⟨rfl, _, rfl, rfl⟩
  · cases h

theorem fix_bodies_independent_forwarding :
    ∃ tree tree' f f',
      parse
          "func f(a int8) int64 \x7b return a \x7d\nfunc g(b int32) int64 \x7b return b \x7d"
        = .ok tree ∧
      parse
          "func f(a int8) int64 \x7b\n\tvar x int32 = g(a, 1)\n\treturn x * y\n\x7d\n\n// again\nfunc g(b int32) int64 \x7b\n\treturn b\n\x7d\n"
        = .ok tree' ∧
      tree.functions.map Function.shell = tree'.functions.map Function.shell ∧
      tree.functions[1]? = some f ∧ tree'.functions[1]? = some f' ∧
      f.body.map Stmt.bare = f'.body.map Stmt.bare ∧
      let st := Store.ofProgram tree
      let st' := Store.ofProgram tree'
      st.program.bodyMessages 1 = st'.program.bodyMessages 1 ∧
        ∃ t report t' report' g g',
          repair .widening Classifier.standard.classify st.program.check.info.oracle st
            st.program.check.diagnostics = .ok (t, report) ∧
          repair .widening Classifier.standard.classify st'.program.check.info.oracle st'
            st'.program.check.diagnostics = .ok (t', report') ∧
          t.program.functions[1]? = some g ∧ t'.program.functions[1]? = some g' ∧
          g.body.map Stmt.bare = g'.body.map Stmt.bare := by
  obtain ⟨tree, h, hcheck⟩ := exists_parse (fun tree => isForwarding tree.functions)
    (by decide +kernel : (parse
      "func f(a int8) int64 \x7b return a \x7d\nfunc g(b int32) int64 \x7b return b \x7d").toOption.any
        (fun tree => isForwarding tree.functions) = true)
  obtain ⟨tree', h', hcheck'⟩ := exists_parse (fun tree => isForwarding tree.functions)
    (by decide +kernel : (parse
      "func f(a int8) int64 \x7b\n\tvar x int32 = g(a, 1)\n\treturn x * y\n\x7d\n\n// again\nfunc g(b int32) int64 \x7b\n\treturn b\n\x7d\n").toOption.any
        (fun tree => isForwarding tree.functions) = true)
  obtain ⟨heads, f, hf, hbody⟩ := exists_of_isForwarding hcheck
  obtain ⟨heads', f', hf', hbody'⟩ := exists_of_isForwarding hcheck'
  exact ⟨tree, tree', f, f', h, h', heads.trans heads'.symm, hf, hf', hbody.trans hbody'.symm,
    fix_bodies_independent h h' (heads.trans heads'.symm) hf hf' (hbody.trans hbody'.symm)
      .widening⟩

end Recast
