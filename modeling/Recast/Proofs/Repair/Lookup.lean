import Recast.Proofs.Repair.Contract
import Recast.Proofs.Store.Paths

/-!
# Looking up a position after repairs

A conversion that is put around an expression has the expression's span, and the type that it names
has an empty one. So a search for a position passes through the conversion just when it comes to the
expression, never turns to the type, and ends at the same node as before.
-/

namespace Recast

variable {τ : Type} [Spelled τ] {W : Insertions τ} {pos : Nat}

/-! ### One conversion -/

/-- What is put around the expression stands where the expression stands, and the type that it names
takes up no room. -/
def Insertions.Covers (W : Insertions τ) (e : PlacedExpr) : Prop :=
  ∀ i, W e.ref = some i →
    e.tag?.isSome ∧ i.call.span = e.span ∧ i.callee.span.start = i.callee.span.stop

/-- What a search passes where it passed an expression before, from outside. -/
def Insertions.layers (W : Insertions τ) (e : PlacedExpr) : List PlacedExpr :=
  match W e.ref with
  | some i => [i.around (e.wrapBelow W), e.wrapBelow W]
  | none => [e.wrapBelow W]

namespace Expr

variable {e : PlacedExpr} {es : List PlacedExpr}

theorem not_contains_of_empty {span : Span} (h : span.start = span.stop) :
    span.contains pos = false := by
  rw [Bool.eq_false_iff]
  intro hpos
  have := Span.contains_iff.1 hpos
  omega

@[simp] theorem encloses_wrapBelow (e : PlacedExpr) :
    (e.wrapBelow W).encloses pos = e.encloses pos := by
  cases e <;> rfl

theorem encloses_wrap (h : W.Covers e) : (e.wrap W).encloses pos = e.encloses pos := by
  cases hW : W e.ref with
  | none => rw [wrap_of_none hW, encloses_wrapBelow]
  | some i =>
    obtain ⟨htag, hspan, -⟩ := h i hW
    rw [wrap_of_some hW, encloses_eq_contains htag, ← hspan]
    rfl

theorem firstChain_wrap (covers : ∀ e ∈ es, W.Covers e)
    (h : ∀ e ∈ es, e.encloses pos → (e.wrap W).chain pos = (e.chain pos).flatMap W.layers) :
    firstChain pos (es.map (wrap W)) = (firstChain pos es).flatMap W.layers := by
  induction es with
  | nil => rfl
  | cons e es ih =>
    rw [List.map_cons, firstChain, firstChain, encloses_wrap (covers e List.mem_cons_self)]
    cases he : e.encloses pos with
    | true => exact h e List.mem_cons_self he
    | false =>
      exact ih (fun e he => covers e (List.mem_cons_of_mem _ he))
        fun e he => h e (List.mem_cons_of_mem _ he)

/-- A search passes what it passed before and the calls around it. -/
theorem chain_wrap (covers : ∀ part ∈ e.parts, W.Covers part) (he : e.encloses pos) :
    (e.wrap W).chain pos = (e.chain pos).flatMap W.layers := by
  induction e using inductChildren with
  | step e ih =>
    have child {c : PlacedExpr} (hc : c ∈ e.children) : ∀ part ∈ c.parts, W.Covers part :=
      fun part hp => covers part (mem_parts_of_child hc hp)
    have hbelow : (e.wrapBelow W).chain pos
        = e.wrapBelow W :: (firstChain pos e.children).flatMap W.layers := by
      rw [chain_eq, children_wrapBelow, firstChain_wrap (fun c hc => child hc c c.self_mem_parts)
        fun c hc hpos => ih c hc (child hc) hpos]
    rw [chain_eq pos e, List.flatMap_cons, Insertions.layers]
    cases hW : W e.ref with
    | none =>
      rw [wrap_of_none hW, hbelow]
      rfl
    | some i =>
      have hcallee : (Expr.name i.callee (Spelled.spelling i.type) : PlacedExpr).encloses pos
          = false := not_contains_of_empty (covers e e.self_mem_parts i hW).2.2
      rw [wrap_of_some hW, chain_eq, Insertion.around, children, firstChain, hcallee, firstChain,
        encloses_wrapBelow, he, if_pos rfl, hbelow]
      rfl

end Expr

/-- The path with the calls around its expressions. -/
def Path.wrap (W : Insertions τ) (path : Path ExprId Placed) : Path ExprId Placed :=
  ⟨path.function.wrap W, path.stmt?.map (Stmt.wrap W),
    path.exprs.flatMap fun e => (W.layers e).reverse⟩

theorem Stmt.encloses_wrap (s : PlacedStmt) : (s.wrap W).encloses pos = s.encloses pos := by
  cases s <;> rfl

/-- The path in the program with conversions is the path in the program, with the calls of the
conversions on it. -/
theorem Program.pathAt_wrap {p : PlacedProgram} (covers : ∀ e ∈ p.parts, W.Covers e) :
    (p.wrap W).pathAt pos = (p.pathAt pos).map (Path.wrap W) := by
  have hfunctions : (p.wrap W).functions.find? (·.encloses pos)
      = (p.functions.find? (·.encloses pos)).map (Function.wrap W) := List.find?_map
  unfold pathAt
  rw [hfunctions]
  cases hf : p.functions.find? (·.encloses pos) with
  | none => rfl
  | some f =>
    have hbody : (f.wrap W).body.find? (·.encloses pos)
        = (f.body.find? (·.encloses pos)).map (Stmt.wrap W) := by
      rw [Function.wrap, List.find?_map]
      exact congrArg (fun test => (f.body.find? test).map _) (funext Stmt.encloses_wrap)
    rw [Option.map_some, Option.map_some]
    dsimp only
    rw [hbody]
    cases hs : f.body.find? (·.encloses pos) with
    | none => rfl
    | some s =>
      have hmem : s ∈ p.stmts := List.mem_flatMap.2
        ⟨f, List.mem_of_find?_eq_some hf, List.mem_of_find?_eq_some hs⟩
      have hcovers {e : PlacedExpr} (he : e ∈ s.children) : ∀ part ∈ e.parts, W.Covers part :=
        fun part hp => covers part
          (List.mem_flatMap.2 ⟨e, List.mem_flatMap.2 ⟨s, hmem, he⟩, hp⟩)
      rw [Path.wrap, Option.map_some]
      dsimp only
      rw [Stmt.children_wrap, Expr.firstChain_wrap (fun e he => hcovers he e e.self_mem_parts)
        fun e he hpos => Expr.chain_wrap (hcovers he) hpos, List.reverse_flatMap]
      rfl

/-! ### The nodes of a path -/

/-- Whether a node is not an expression with a number from `base` on. -/
def NodeId.isOld (base : Nat) : NodeId → Bool
  | .expr id => decide (id < base)
  | _ => true

section Nodes

variable {s t : Store} {p : PlacedProgram} {base : Nat}

theorem Expr.filter_node_layers (fresh : ∀ id i, W id = some i → base ≤ i.call.id)
    (es : List PlacedExpr) :
    ((es.flatMap fun e => (W.layers e).reverse).map Expr.node).filter (·.1.isOld base)
      = (es.map Expr.node).filter (·.1.isOld base) := by
  induction es with
  | nil => rfl
  | cons e es ih =>
    have hnode : (e.wrapBelow W).node = e.node := by
      rw [node, node, ref_wrapBelow, span_wrapBelow]
    have hlayers : ((W.layers e).reverse.map Expr.node).filter (·.1.isOld base)
        = [e.node].filter (·.1.isOld base) := by
      rw [Insertions.layers]
      cases hW : W e.ref with
      | none =>
        rw [List.reverse_singleton, List.map_singleton, hnode]
      | some i =>
        have hcall : (i.around (e.wrapBelow W)).node.1.isOld base = false :=
          decide_eq_false (Nat.not_lt.2 (fresh _ i hW))
        simp [List.filter_cons, hnode, hcall]
    rw [List.flatMap_cons, List.map_append, List.filter_append, ih, hlayers, ← List.filter_append]
    rfl

/-- In a program with new calls, the path to a position has the same nodes and some of the calls
besides, and it begins with the same node. -/
theorem Program.nodesAt_wrap (hs : s.Represents p) (ht : t.Represents (p.wrap W))
    (covers : ∀ e ∈ p.parts, W.Covers e) (fresh : ∀ id i, W id = some i → base ≤ i.call.id) :
    ((p.wrap W).nodesAt pos).filter (·.1.isOld base) = (p.nodesAt pos).filter (·.1.isOld base) ∧
      ((p.wrap W).nodesAt pos).head? = (p.nodesAt pos).head? := by
  cases hpath : p.pathAt pos with
  | none =>
    have hwrap : (p.wrap W).pathAt pos = none := by
      rw [pathAt_wrap covers, hpath]
      rfl
    rw [nodesAt, nodesAt, hwrap, hpath]
    exact ⟨rfl, rfl⟩
  | some path =>
    have hwrap : (p.wrap W).pathAt pos = some (path.wrap W) := by
      rw [pathAt_wrap covers, hpath]
      rfl
    have hstmt : (path.wrap W).stmt?.toList.map Stmt.node = path.stmt?.toList.map Stmt.node := by
      cases h : path.stmt? with
      | none => simp [Path.wrap, h]
      | some st => simp [Path.wrap, h, Stmt.node]
    have hfunction : (path.wrap W).function.node = path.function.node := rfl
    rw [Store.nodesAt_of_passes hwrap, Store.nodesAt_of_passes hpath,
      (passes_of_pathAt hwrap).nodes_eq ht, (passes_of_pathAt hpath).nodes_eq hs, hstmt, hfunction]
    constructor
    · rw [List.filter_append, List.filter_append, List.filter_append, List.filter_append]
      rw [Path.wrap, Expr.filter_node_layers fresh]
    · rw [Path.wrap]
      dsimp only
      cases path.exprs with
      | nil => rfl
      | cons e es =>
        have hnode : (e.wrapBelow W).node = e.node := by
          rw [Expr.node, Expr.node, Expr.ref_wrapBelow, Expr.span_wrapBelow]
        have hhead : ((W.layers e).reverse).head? = some (e.wrapBelow W) := by
          rw [Insertions.layers]
          cases W e.ref <;> rfl
        obtain ⟨rest, hrest⟩ : ∃ rest, (W.layers e).reverse = e.wrapBelow W :: rest :=
          List.head?_eq_some_iff.1 hhead
        rw [List.flatMap_cons, hrest]
        simp [hnode]

end Nodes

/-! ### Runs of repairs -/

/-- A call of one argument by a name that takes up no room. -/
def Expr.IsConversion (e : PlacedExpr) : Prop :=
  ∃ tag callee arg, e = .call tag callee [arg] ∧ callee.span.start = callee.span.stop

/-- A name that takes up no room. -/
def Expr.IsBareName (e : PlacedExpr) : Prop :=
  ∃ tag text, e = .name tag text ∧ e.span.start = e.span.stop

theorem Expr.span_wrap {e : PlacedExpr} (h : W.Covers e) : (e.wrap W).span = e.span := by
  cases hW : W e.ref with
  | none => rw [wrap_of_none hW, span_wrapBelow]
  | some i =>
    rw [wrap_of_some hW]
    exact (h i hW).2.1

theorem Expr.IsConversion.wrapBelow {e : PlacedExpr} (h : e.IsConversion)
    (covers : ∀ child ∈ e.children, W.Covers child) : (e.wrapBelow W).IsConversion := by
  obtain ⟨tag, callee, arg, rfl, hempty⟩ := h
  refine ⟨tag, callee.wrap W, arg.wrap W, rfl, ?_⟩
  rwa [span_wrap (covers callee List.mem_cons_self)]

/-- The store has grown out of the program, and to a search it looks like the program but for some
calls on the paths. All that is new are conversions and the names of their types. -/
structure Store.Veils (s : Store) (base : Nat) (p : PlacedProgram) : Prop
    extends s.GrownFrom base p where
  nodes : ∀ pos, (s.program.nodesAt pos).filter (·.1.isOld base) = p.nodesAt pos
  innermost : ∀ pos, (s.program.nodesAt pos).head? = (p.nodesAt pos).head?
  fresh : ∀ e ∈ s.program.parts, base ≤ e.ref → e.IsConversion ∨ e.IsBareName

section Runs

variable {s t : Store} {p : PlacedProgram} {base : Nat} {rules : RuleTable} {q : TypeOracle}

/-- A store with old nodes only. -/
theorem Store.Holding.veils (h : s.Holding s.program) : s.Veils s.exprs.size s.program where
  toGrownFrom := h.grownFrom
  nodes pos := by
    refine List.filter_eq_self.2 fun n hn => ?_
    have hmem := (h.toRepresents.of_mem_nodesAt hn).1
    simp only [Program.nodes, List.mem_append, List.mem_map] at hmem
    rcases hmem with (⟨f, -, rfl⟩ | ⟨st, -, rfl⟩) | ⟨e, he, rfl⟩
    · rfl
    · rfl
    · exact decide_eq_true (h.exprs e he).ref_lt
  innermost _ := rfl
  fresh e he hbase := absurd (h.exprs e he).ref_lt (Nat.not_lt.2 hbase)

/-- A store keeps looking like the program when a repair changes it. -/
theorem Store.Veils.perform? (h : s.Veils base p) {repair : Repair}
    (ht : repair.perform? rules q s = some t) : t.Veils base p := by
  obtain ⟨v, hv, target, hholding, -, hprogram⟩ := h.holding.perform? ht
  have hs := h.holding.toRepresents
  let W : Insertions String := Insertions.insert .empty v.ref (s.insertion v target)
  have hself : ∀ id i, W id = some i → id = v.ref ∧ i = s.insertion v target := by
    intro id i hW
    by_cases hid : id = v.ref
    · subst hid
      exact ⟨rfl, Option.some.inj (hW.symm.trans (Insertions.insert_self ..))⟩
    · cases (Insertions.insert_other _ hid).symm.trans hW
  have hcovers : ∀ e ∈ s.program.parts, W.Covers e := by
    intro e he i hW
    obtain ⟨href, rfl⟩ := hself _ _ hW
    obtain rfl : e = v := by rw [← hs.expr he, href, hs.expr hv]
    exact ⟨(hs.exprs e he).isSome_tag?, rfl, rfl⟩
  have hfresh : ∀ id i, W id = some i → base ≤ i.call.id := by
    intro id i hW
    obtain ⟨-, rfl⟩ := hself _ _ hW
    exact Nat.le_succ_of_le h.base_le
  have hnodes (pos : Nat) : (t.program.nodesAt pos).filter (·.1.isOld base)
        = (s.program.nodesAt pos).filter (·.1.isOld base) ∧
      (t.program.nodesAt pos).head? = (s.program.nodesAt pos).head? := by
    rw [hprogram]
    exact Program.nodesAt_wrap hs (hprogram ▸ hholding.toRepresents) hcovers hfresh
  refine ⟨h.toGrownFrom.perform? ht, fun pos => (hnodes pos).1.trans (h.nodes pos),
    fun pos => (hnodes pos).2.trans (h.innermost pos), ?_⟩
  · rw [hprogram, Program.parts_wrap]
    refine List.forall_mem_flatMap.2 fun e he x hx hbase => ?_
    rcases Insertions.mem_nodes.1 hx with rfl | ⟨i, hW, rfl | rfl⟩
    · rw [Expr.ref_wrapBelow] at hbase
      rcases h.fresh e he hbase with hconversion | ⟨tag, text, rfl, hempty⟩
      · exact .inl (hconversion.wrapBelow fun child hc =>
          hcovers child (Program.mem_parts_of_child he hc))
      · exact .inr ⟨tag, text, rfl, hempty⟩
    · exact .inl ⟨_, _, _, rfl, (hcovers e he i hW).2.2⟩
    · exact .inr ⟨_, _, rfl, (hcovers e he i hW).2.2⟩

/-- New nodes on a path are conversions. -/
theorem Store.Veils.conversion (h : s.Veils base p) {pos : Nat} {n : NodeId × Span}
    (hn : n ∈ s.program.nodesAt pos) (hnew : n.1.isOld base = false) :
    ∃ id callee arg, n.1 = .expr id ∧ s.expr? id = some ⟨.call callee [arg], n.2⟩ := by
  obtain ⟨hmem, hpos⟩ := h.holding.toRepresents.of_mem_nodesAt hn
  simp only [Program.nodes, List.mem_append, List.mem_map] at hmem
  rcases hmem with (⟨f, -, rfl⟩ | ⟨st, -, rfl⟩) | ⟨e, he, rfl⟩
  · cases hnew
  · cases hnew
  · obtain ⟨shape, hshape, hnode⟩ := h.holding.exprs e he
    rcases h.fresh e he (Nat.not_lt.1 (of_decide_eq_false hnew)) with hconversion | hname
    · obtain ⟨tag, callee, arg, rfl, -⟩ := hconversion
      cases hshape
      exact ⟨tag.id, callee.ref, arg.ref, rfl, hnode.expr?⟩
    · obtain ⟨tag, text, rfl, hempty⟩ := hname
      exact absurd hpos (by rw [Expr.node, Expr.not_contains_of_empty hempty]; exact Bool.noConfusion)

/-- What a new call converts with is on no path. -/
theorem Store.Veils.callee_not_mem (h : s.Veils base p) {pos : Nat} {id callee : ExprId}
    {args : List ExprId} {span place : Span} (hnew : base ≤ id)
    (hcall : s.expr? id = some ⟨.call callee args, span⟩) :
    (.expr callee, place) ∉ s.program.nodesAt pos := by
  intro hn
  obtain ⟨hmem, hpos⟩ := h.holding.toRepresents.of_mem_nodesAt hn
  have hlt : id < s.exprs.size := by
    obtain ⟨node, hnode, -⟩ := Option.map_eq_some_iff.1 hcall
    exact (Array.getElem?_eq_some_iff.1 hnode).1
  obtain ⟨e, he, rfl⟩ := h.holding.covered id hlt
  obtain ⟨shape, hshape, hnode⟩ := h.holding.exprs e he
  obtain rfl : shape = .call callee args := by
    have := Option.some.inj (hnode.expr?.symm.trans hcall)
    exact congrArg Node.shape this
  rcases h.fresh e he hnew with ⟨tag, c, arg, rfl, hempty⟩ | ⟨tag, text, rfl, -⟩
  · obtain ⟨rfl, -⟩ := ExprShape.call.inj (Option.some.inj hshape)
    have hc : c ∈ s.program.parts := Program.mem_parts_of_child he List.mem_cons_self
    have hspan := h.holding.spanOf?_eq_some.2 hmem
    rw [(h.holding.exprs c hc).spanOf?] at hspan
    obtain rfl := Option.some.inj hspan
    rw [Expr.not_contains_of_empty hempty] at hpos
    cases hpos
  · cases hshape

end Runs

/-- After repairs of any kind, whatever is said about types, a search comes to the same nodes as
before and to calls that are new, and it ends at the same node. Without the new calls the path to a
position is the path in the original tree, and the one is exact if the other is. The types that the
new calls convert to are on no path. -/
theorem nodesAt_performAll (tree : SourceProgram) (rules : RuleTable) (q : TypeOracle)
    (repairs : List Repair) (pos : Nat) :
    let st := Store.ofProgram tree
    let t := (performAll rules q st repairs).1
    let before := st.program.nodesAt pos
    let after := t.program.nodesAt pos
    after.filter (·.1.isOld st.exprs.size) = before ∧
      after.head? = before.head? ∧
      pathIsExact (t.program.pathAt pos) pos = pathIsExact (st.program.pathAt pos) pos ∧
      (∀ n ∈ after, n.1.isOld st.exprs.size = false → ∃ id callee arg,
        n.1 = .expr id ∧ t.expr? id = some ⟨.call callee [arg], n.2⟩) ∧
      ∀ id callee args span, st.exprs.size ≤ id →
        t.expr? id = some ⟨.call callee args, span⟩ → ∀ place, (.expr callee, place) ∉ after := by
  intro st t before after
  have hs : st.Represents st.program := (stored_program tree).represents
  have hveils : t.Veils st.exprs.size st.program :=
    performAll_keeps (P := (·.Veils _ _)) repairs (fun h => h.perform?)
      (hs.holding (stored_program tree).numbers).veils
  refine ⟨hveils.nodes pos, hveils.innermost pos, ?_, fun n hn => hveils.conversion hn,
    fun id callee args span hnew hcall place => hveils.callee_not_mem hnew hcall⟩
  rw [Bool.eq_iff_iff, hveils.holding.toRepresents.pathIsExact_iff, hs.pathIsExact_iff,
    hveils.innermost pos]

end Recast
