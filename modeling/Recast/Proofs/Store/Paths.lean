import Recast.Proofs.Repair.Whole
import Recast.Proofs.Store.Parsed
import Recast.Proofs.Tree.Paths

/-!
# Looking up a position in a store

The nodes on the path to a position are all the nodes of the store that enclose it, from the innermost
outward, each one referred to by the next. The path is exact just when some node starts right at the
position, since that node is then on the path and nothing below it starts earlier.
-/

namespace Recast

/-- The nodes on the path to a position, innermost first; none where there is no path. -/
def Program.nodesAt (p : PlacedProgram) (pos : Nat) : List (NodeId × Span) :=
  ((p.pathAt pos).map Path.nodes).getD []

namespace Store

/-- Where a node of the store stands. -/
def spanOf? (s : Store) : NodeId → Option Span
  | .function id => s.functions[id]?.map Node.span
  | .stmt id => s.stmts[id]?.map Node.span
  | .expr id => s.exprs[id]?.map Node.span

/-- The statements to which a function refers. -/
def bodyOf (s : Store) (id : FunctionId) : List StmtId :=
  match s.function? id with
  | some node => node.shape.body
  | none => []

/-- The second node refers to the first. -/
def IsChild (s : Store) : NodeId → NodeId → Prop
  | .expr child, .expr parent => child ∈ s.childrenOf parent
  | .expr child, .stmt parent => child ∈ s.childrenOfStmt parent
  | .stmt child, .function parent => child ∈ s.bodyOf parent
  | _, _ => False

end Store

/-! ### The nodes of a program -/

/-- An expression among the nodes of a path. -/
def Expr.node (e : PlacedExpr) : NodeId × Span := (.expr e.ref, e.span)

/-- A statement among the nodes of a path. -/
def Stmt.node (s : PlacedStmt) : NodeId × Span := (.stmt s.ref, s.span)

/-- A function among the nodes of a path. -/
def Function.node (f : PlacedFunction) : NodeId × Span := (.function f.tag.id, f.span)

/-- All nodes of a program. -/
def Program.nodes (p : PlacedProgram) : List (NodeId × Span) :=
  p.functions.map Function.node ++ p.stmts.map Stmt.node ++ p.parts.map Expr.node

namespace Store

variable {s : Store} {p : PlacedProgram} {e : PlacedExpr} {st : PlacedStmt} {f : PlacedFunction}

theorem HasExpr.spanOf? (h : s.HasExpr e) : s.spanOf? (.expr e.ref) = some e.span := by
  obtain ⟨shape, -, hn⟩ := h
  cases shape with
  | literal | name | call =>
    obtain ⟨_, hn, -⟩ := hn
    rw [Store.spanOf?, hn]
    rfl
  | paren | neg | binary =>
    rw [Store.spanOf?, show _ = _ from hn]
    rfl

theorem HasStmt.spanOf? (h : s.HasStmt st) : s.spanOf? (.stmt st.ref) = some st.span := by
  obtain ⟨shape, -, hn⟩ := h
  rw [Store.spanOf?]
  cases shape with
  | var =>
    obtain ⟨_, _, _, _, hn, -⟩ := hn
    rw [hn]
    rfl
  | assign =>
    obtain ⟨_, _, hn, -⟩ := hn
    rw [hn]
    rfl
  | ret =>
    obtain ⟨_, hn, -⟩ := hn
    rw [hn]
    rfl
  | expr =>
    rw [show _ = _ from hn]
    rfl

theorem HasFunction.spanOf? {id : FunctionId} (h : s.HasFunction id f) :
    s.spanOf? (.function id) = some f.span := by
  obtain ⟨-, _, _, _, _, _, _, hn, -⟩ := h
  rw [Store.spanOf?, hn]
  rfl

theorem HasFunction.bodyOf {id : FunctionId} (h : s.HasFunction id f) :
    s.bodyOf id = f.body.map Stmt.ref := by
  obtain ⟨-, _, _, _, _, _, _, hn, -, -, -, hbody⟩ := h
  rw [Store.bodyOf, function?, hn]
  exact hbody.list

theorem Represents.hasFunction (h : s.Represents p) (hf : f ∈ p.functions) :
    s.HasFunction f.tag.id f := by
  obtain ⟨id, hid⟩ := List.mem_iff_getElem?.1 hf
  have hfun := h.function id f hid
  rwa [hfun.tag]

/-- The nodes of a store are the nodes of its program. -/
theorem Holding.spanOf?_eq_some (h : s.Holding p) {id : NodeId} {span : Span} :
    s.spanOf? id = some span ↔ (id, span) ∈ p.nodes := by
  simp only [Program.nodes, List.mem_append, List.mem_map, or_assoc]
  constructor
  · intro hspan
    cases id with
    | function id =>
      have hlt : id < p.functions.length := by
        obtain ⟨node, hnode, -⟩ := Option.map_eq_some_iff.1 hspan
        exact h.functions ▸ (Array.getElem?_eq_some_iff.1 hnode).1
      have hfun := h.function id _ (List.getElem?_eq_getElem hlt)
      refine .inl ⟨_, List.getElem_mem hlt, Prod.ext (congrArg NodeId.function hfun.tag) ?_⟩
      exact Option.some.inj (hfun.spanOf?.symm.trans hspan)
    | stmt id =>
      have hlt : id < s.stmts.size := by
        obtain ⟨node, hnode, -⟩ := Option.map_eq_some_iff.1 hspan
        exact (Array.getElem?_eq_some_iff.1 hnode).1
      obtain ⟨st, hst, rfl⟩ := h.coveredStmts id hlt
      refine .inr (.inl ⟨st, hst, Prod.ext rfl ?_⟩)
      exact Option.some.inj ((h.stmts st hst).spanOf?.symm.trans hspan)
    | expr id =>
      have hlt : id < s.exprs.size := by
        obtain ⟨node, hnode, -⟩ := Option.map_eq_some_iff.1 hspan
        exact (Array.getElem?_eq_some_iff.1 hnode).1
      obtain ⟨e, he, rfl⟩ := h.covered id hlt
      refine .inr (.inr ⟨e, he, Prod.ext rfl ?_⟩)
      exact Option.some.inj ((h.exprs e he).spanOf?.symm.trans hspan)
  · rintro (⟨f, hf, hnode⟩ | ⟨st, hst, hnode⟩ | ⟨e, he, hnode⟩)
    · cases hnode
      exact (h.hasFunction hf).spanOf?
    · cases hnode
      exact (h.stmts st hst).spanOf?
    · cases hnode
      exact (h.exprs e he).spanOf?

end Store

/-- No node of a program that is well placed has an empty span. -/
theorem Program.WellPlaced.nonempty_nodes {p : PlacedProgram} (h : p.WellPlaced) :
    ∀ n ∈ p.nodes, n.2.start < n.2.stop := by
  intro n hn
  simp only [nodes, List.mem_append, List.mem_map] at hn
  rcases hn with (⟨f, hf, rfl⟩ | ⟨st, hst, rfl⟩) | ⟨e, he, rfl⟩
  · exact (h.functions f hf).nonempty
  · obtain ⟨f, hf, hbody⟩ := List.mem_flatMap.1 hst
    exact ((h.functions f hf).body st hbody).nonempty
  · obtain ⟨root, hr, hp⟩ := List.mem_flatMap.1 he
    obtain ⟨st, hst, hr⟩ := List.mem_flatMap.1 hr
    obtain ⟨f, hf, hbody⟩ := List.mem_flatMap.1 hst
    exact ((((h.functions f hf).body st hbody).children root hr).part hp).sits.nonempty

/-! ### The nodes of a path -/

namespace Store

variable {s : Store} {e : PlacedExpr} {st : PlacedStmt}

theorem HasExpr.isSome_tag? (h : s.HasExpr e) : e.tag?.isSome := by
  obtain ⟨shape, hs, -⟩ := h
  cases e with
  | hole => cases hs
  | _ => rfl

theorem HasExpr.tag? (h : s.HasExpr e) :
    e.tag?.map (fun tag => (NodeId.expr tag.id, tag.span)) = some e.node := by
  have hsome := h.isSome_tag?
  cases e with
  | hole => cases hsome
  | _ => rfl

theorem HasStmt.tag? (h : s.HasStmt st) :
    st.tag?.map (fun tag => (NodeId.stmt tag.id, tag.span)) = some st.node := by
  obtain ⟨shape, hs, -⟩ := h
  cases st with
  | hole => cases hs
  | _ => rfl

end Store

namespace Program.Passes

variable {s : Store} {p : PlacedProgram} {pos : Nat} {path : Path ExprId Placed}

theorem function_mem (h : p.Passes pos path) : path.function ∈ p.functions := by
  cases h <;> assumption

theorem stmt_mem (h : p.Passes pos path) {st : PlacedStmt} (hst : path.stmt? = some st) :
    st ∈ path.function.body := by
  cases h <;> cases hst <;> assumption

theorem exprs_mem (h : p.Passes pos path) : ∀ e ∈ path.exprs, e ∈ p.parts := by
  cases h with
  | function | stmt => exact fun _ he => nomatch he
  | expr hf _ hs _ hr _ =>
    intro e he
    refine List.mem_flatMap.2 ⟨_, List.mem_flatMap.2 ⟨_, List.mem_flatMap.2 ⟨_, hf, hs⟩, hr⟩, ?_⟩
    exact (Expr.chain_sublist pos _).subset (List.mem_reverse.1 he)

theorem stmt_mem_stmts (h : p.Passes pos path) {st : PlacedStmt} (hst : path.stmt? = some st) :
    st ∈ p.stmts :=
  List.mem_flatMap.2 ⟨_, h.function_mem, h.stmt_mem hst⟩

/-- A store has all nodes of a path, so that none is left out. -/
theorem nodes_eq (h : p.Passes pos path) (hs : s.Represents p) :
    path.nodes = path.exprs.map Expr.node ++ path.stmt?.toList.map Stmt.node
      ++ [path.function.node] := by
  have hexprs : path.exprs.filterMap
      (fun e => e.tag?.map fun tag => (NodeId.expr tag.id, tag.span))
        = path.exprs.map Expr.node := by
    rw [← List.filterMap_eq_map]
    exact List.filterMap_congr fun e he => (hs.exprs e (h.exprs_mem e he)).tag?
  have hstmt : (path.stmt?.bind Stmt.tag?).toList.map
      (fun tag => (NodeId.stmt tag.id, tag.span)) = path.stmt?.toList.map Stmt.node := by
    cases hst : path.stmt? with
    | none => rfl
    | some st =>
      have htag := (hs.stmts st (h.stmt_mem_stmts hst)).tag?
      obtain ⟨tag, ht, hnode⟩ := Option.map_eq_some_iff.1 htag
      simp [ht, hnode]
  rw [Path.nodes, hexprs, hstmt]
  rfl

/-- Each node of a path is referred to by the next one and lies inside it. -/
theorem isChain_nodes (h : p.Passes pos path) (hs : s.Represents p) (hw : p.WellPlaced) :
    path.nodes.IsChain fun a b => s.IsChild a.1 b.1 ∧ a.2.Inside b.2 := by
  have hbody {f : PlacedFunction} {st : PlacedStmt} (hf : f ∈ p.functions) (hst : st ∈ f.body) :
      s.IsChild st.node.1 f.node.1 ∧ st.node.2.Inside f.node.2 := by
    refine ⟨?_, (hw.functions f hf).inside st hst⟩
    show st.ref ∈ s.bodyOf f.tag.id
    rw [(hs.hasFunction hf).bodyOf]
    exact List.mem_map_of_mem hst
  rw [h.nodes_eq hs]
  cases h with
  | function => exact .singleton _
  | stmt hf _ hst _ _ => exact (List.IsChain.singleton _).cons_cons (hbody hf hst)
  | @expr f st root hf _ hst _ hr _ =>
    have hws := (hw.functions f hf).body st hst
    have hmem : st ∈ p.stmts := List.mem_flatMap.2 ⟨f, hf, hst⟩
    have hroot : s.IsChild root.node.1 st.node.1 ∧ root.node.2.Inside st.node.2 := by
      refine ⟨?_, hws.inside root hr⟩
      show root.ref ∈ s.childrenOfStmt st.ref
      rw [(hs.stmts st hmem).childrenOf]
      exact List.mem_map_of_mem hr
    have hparts : ((root.chain pos).reverse.map Expr.node).IsChain fun a b =>
        s.IsChild a.1 b.1 ∧ a.2.Inside b.2 := by
      rw [List.isChain_map, List.isChain_reverse]
      refine Expr.isChain_chain fun part hp child hc => ⟨?_, ?_⟩
      · show child.ref ∈ s.childrenOf part.ref
        rw [(hs.exprs part (List.mem_flatMap.2 ⟨root,
          List.mem_flatMap.2 ⟨st, hmem, hr⟩, hp⟩)).childrenOf]
        exact List.mem_map_of_mem hc
      · exact ((hws.children root hr).part hp).sits.inside child hc
    refine (hparts.append (.singleton st.node) fun x hx y hy => ?_).append (.singleton f.node)
      fun x hx y hy => ?_
    · obtain rfl : root.node = x := by
        rw [Expr.chain_eq] at hx
        simpa using hx
      obtain rfl : st.node = y := by simpa using hy
      exact hroot
    · obtain rfl : st.node = x := by simpa using hx
      obtain rfl : f.node = y := by simpa using hy
      exact hbody hf hst

/-- No node is twice on a path. -/
theorem nodup_nodes (h : p.Passes pos path) (hs : s.Represents p) :
    (path.nodes.map Prod.fst).Nodup := by
  have hexprs : (path.exprs.map Expr.ref).Nodup := by
    cases h with
    | function | stmt => exact List.nodup_nil
    | @expr f st root hf _ hst _ hr _ =>
      have hroot : root ∈ p.parts :=
        Store.Program.mem_parts_of_mem_children (List.mem_flatMap.2 ⟨f, hf, hst⟩) hr
      have hdistinct := hs.distinct
      rw [Program.parts, List.map_flatMap] at hdistinct
      have := Store.nodup_of_mem_flatMap hdistinct
        (List.mem_flatMap.2 ⟨st, List.mem_flatMap.2 ⟨f, hf, hst⟩, hr⟩)
      rw [List.map_reverse, List.nodup_reverse]
      exact this.sublist ((Expr.chain_sublist pos root).map _)
  have hids : ((path.exprs.map Expr.node).map Prod.fst).Nodup := by
    have : (path.exprs.map Expr.node).map Prod.fst = (path.exprs.map Expr.ref).map NodeId.expr := by
      simp [Expr.node]
    rw [this]
    exact hexprs.map fun _ _ => NodeId.expr.inj
  rw [h.nodes_eq hs, List.map_append, List.map_append]
  cases path.stmt? with
  | none => simpa [List.nodup_append, Expr.node, Function.node] using hids
  | some st => simpa [List.nodup_append, Expr.node, Stmt.node, Function.node] using hids

end Program.Passes

/-! ### All nodes that enclose a position -/

namespace Store

variable {s : Store} {p : PlacedProgram} {pos : Nat}

theorem HasExpr.encloses {e : PlacedExpr} (h : s.HasExpr e) :
    e.encloses pos = e.span.contains pos :=
  Expr.encloses_eq_contains h.isSome_tag?

theorem HasStmt.encloses {st : PlacedStmt} (h : s.HasStmt st) :
    st.encloses pos = st.span.contains pos := by
  obtain ⟨shape, hs, -⟩ := h
  cases st with
  | hole => cases hs
  | _ => rfl

theorem nodesAt_of_passes {path : Path ExprId Placed} (h : p.pathAt pos = some path) :
    p.nodesAt pos = path.nodes := by
  rw [Program.nodesAt, h]
  rfl

/-- All nodes on the path to a position enclose it. -/
theorem Represents.of_mem_nodesAt (hs : s.Represents p) {n : NodeId × Span}
    (hn : n ∈ p.nodesAt pos) : n ∈ p.nodes ∧ n.2.contains pos := by
  cases hpath : p.pathAt pos with
  | none =>
    rw [Program.nodesAt, hpath] at hn
    cases hn
  | some path =>
    have h := Program.passes_of_pathAt hpath
    rw [nodesAt_of_passes hpath, h.nodes_eq hs] at hn
    simp only [Program.nodes, List.mem_append, List.mem_map, Option.mem_toList,
      List.mem_singleton] at hn ⊢
    rcases hn with (⟨e, he, rfl⟩ | ⟨st, hst, rfl⟩) | rfl
    · have hp := h.exprs_mem e he
      refine ⟨.inr ⟨e, hp, rfl⟩, (hs.exprs e hp).encloses.symm.trans ?_⟩
      cases h with
      | function | stmt => cases he
      | expr _ _ _ _ _ hroot =>
        exact Expr.encloses_of_mem_chain hroot (List.mem_reverse.1 he)
    · have hm := h.stmt_mem_stmts hst
      refine ⟨.inl (.inr ⟨st, hm, rfl⟩), (hs.stmts st hm).encloses.symm.trans ?_⟩
      cases h <;> cases hst <;> assumption
    · refine ⟨.inl (.inl ⟨_, h.function_mem, rfl⟩), ?_⟩
      cases h <;> assumption

/-- The path to a position has exactly the nodes that enclose it. -/
theorem Represents.mem_nodesAt (hs : s.Represents p) (hw : p.WellPlaced) {n : NodeId × Span} :
    n ∈ p.nodesAt pos ↔ n ∈ p.nodes ∧ n.2.contains pos := by
  constructor
  · exact hs.of_mem_nodesAt
  · rintro ⟨hn, hpos⟩
    simp only [Program.nodes, List.mem_append, List.mem_map] at hn
    rcases hn with (⟨f, hf, rfl⟩ | ⟨st, hst, rfl⟩) | ⟨e, he, rfl⟩
    · obtain ⟨path, hpath, rfl⟩ : ∃ path, p.pathAt pos = some path ∧ path.function = f := by
        rw [Program.pathAt, hw.find?_function hf hpos]
        exact ⟨_, rfl, rfl⟩
      rw [nodesAt_of_passes hpath, Path.nodes]
      exact List.mem_append_right _ List.mem_cons_self
    · obtain ⟨f, hf, hbody⟩ := List.mem_flatMap.1 hst
      have henc : st.encloses pos := (hs.stmts st hst).encloses.trans hpos
      have hwf := hw.functions f hf
      obtain ⟨path, hpath, hstmt⟩ : ∃ path, p.pathAt pos = some path ∧ path.stmt? = some st := by
        rw [Program.pathAt, hw.find?_function hf (hwf.encloses_of_stmt hbody henc)]
        exact ⟨_, rfl, hwf.find?_stmt hbody henc⟩
      rw [nodesAt_of_passes hpath, (Program.passes_of_pathAt hpath).nodes_eq hs, hstmt]
      simp
    · obtain ⟨root, hr, hp⟩ := List.mem_flatMap.1 he
      obtain ⟨st, hst, hr⟩ := List.mem_flatMap.1 hr
      obtain ⟨f, hf, hbody⟩ := List.mem_flatMap.1 hst
      have henc : e.encloses pos := (hs.exprs e he).encloses.trans hpos
      have hpath := hw.pathAt_part hf hbody hr hp henc
      have hroot := ((hw.functions f hf).body st hbody).children root hr
      have hmem : e ∈ root.chain pos :=
        (hroot.mem_chain (hroot.chain_part hp henc).1).2 ⟨hp, henc⟩
      rw [nodesAt_of_passes hpath, (Program.passes_of_pathAt hpath).nodes_eq hs]
      exact List.mem_append_left _ (List.mem_append_left _
        (List.mem_map_of_mem (List.mem_reverse.2 hmem)))

/-- The innermost node of a path is the first one. -/
theorem Represents.head?_nodes (hs : s.Represents p) {path : Path ExprId Placed}
    (h : p.Passes pos path) : path.nodes.head?.map Prod.snd = some path.innermostSpan := by
  rw [h.nodes_eq hs, Path.innermostSpan]
  cases path.exprs with
  | nil => cases path.stmt? <;> rfl
  | cons e es => rfl

theorem Represents.pathIsExact_iff (hs : s.Represents p) :
    pathIsExact (p.pathAt pos) pos = true ↔ ∃ n ∈ (p.nodesAt pos).head?, n.2.start = pos := by
  cases hpath : p.pathAt pos with
  | none => simp [Program.nodesAt, hpath, pathIsExact]
  | some path =>
    have hhead := hs.head?_nodes (Program.passes_of_pathAt hpath)
    obtain ⟨n, hn, hspan⟩ := Option.map_eq_some_iff.1 hhead
    rw [nodesAt_of_passes hpath, hn]
    simp [pathIsExact, ← hspan]

/-- Nothing on a path lies outside a node further out. -/
theorem Represents.pairwise_nodesAt (hs : s.Represents p) (hw : p.WellPlaced) :
    (p.nodesAt pos).Pairwise fun a b => a.2.Inside b.2 := by
  cases hpath : p.pathAt pos with
  | none =>
    rw [Program.nodesAt, hpath]
    exact .nil
  | some path =>
    have : IsTrans (NodeId × Span) fun a b => a.2.Inside b.2 := ⟨fun _ _ _ => Span.Inside.trans⟩
    rw [nodesAt_of_passes hpath]
    exact List.isChain_iff_pairwise.1
      (((Program.passes_of_pathAt hpath).isChain_nodes hs hw).imp fun _ _ => And.right)

/-- The first node of a path starts right at the position if any node does. -/
theorem Represents.exact_iff (hs : s.Represents p) (hw : p.WellPlaced) :
    pathIsExact (p.pathAt pos) pos = true ↔ ∃ n ∈ p.nodes, n.2.start = pos := by
  rw [hs.pathIsExact_iff]
  constructor
  · rintro ⟨n, hn, hstart⟩
    exact ⟨n, ((hs.mem_nodesAt hw).1 (List.mem_of_head? hn)).1, hstart⟩
  · rintro ⟨n, hn, hstart⟩
    have hpos : n.2.contains pos :=
      Span.contains_iff.2 ⟨Nat.le_of_eq hstart, hstart ▸ hw.nonempty_nodes n hn⟩
    have hmem := (hs.mem_nodesAt hw).2 ⟨hn, hpos⟩
    have hpairwise : (p.nodesAt pos).Pairwise fun a b => a.2.Inside b.2 :=
      hs.pairwise_nodesAt hw
    cases hnodes : p.nodesAt pos with
    | nil =>
      rw [hnodes] at hmem
      cases hmem
    | cons inner outer =>
      refine ⟨inner, rfl, ?_⟩
      have hinner := ((hs.mem_nodesAt hw).1 (hnodes ▸ List.mem_cons_self : inner ∈ _)).2
      rw [hnodes] at hmem hpairwise
      rcases List.mem_cons.1 hmem with rfl | hmem
      · exact hstart
      · have hstarts := ((List.pairwise_cons.1 hpairwise).1 n hmem).start
        have hbefore := (Span.contains_iff.1 hinner).1
        omega

end Store

/-! ### Stores of programs that were read -/

/-- The path to a position of a source text consists of exactly those functions, statements and
expressions whose spans contain the position, each one once. Each is followed by the node that refers
to it, from the innermost to the function; there is none just when no function contains the position.
The path is exact if and only if some node of the tree starts at the position. -/
theorem pathAt_complete {source : String} {tree : SourceProgram} (h : parse source = .ok tree)
    (pos : Nat) :
    let st := Store.ofProgram tree
    let nodes := st.program.nodesAt pos
    (∀ id span, (id, span) ∈ nodes ↔ st.spanOf? id = some span ∧ span.contains pos) ∧
      (nodes.map Prod.fst).Nodup ∧
      (nodes.map Prod.fst).IsChain st.IsChild ∧
      (∀ n ∈ nodes.getLast?, ∃ id, n.1 = .function id) ∧
      (nodes = [] ↔ ∀ id span, st.spanOf? (.function id) = some span → ¬ span.contains pos) ∧
      (pathIsExact (st.program.pathAt pos) pos ↔ ∃ id span, st.spanOf? id = some span ∧
        span.start = pos) := by
  intro st nodes
  have hstored : Stored tree st.program := stored_program tree
  have hs : st.Represents st.program := hstored.represents
  have hw : st.program.WellPlaced := hstored.wellPlaced h
  have hspan {id : NodeId} {span : Span} : st.spanOf? id = some span ↔ (id, span) ∈ _ :=
    (hs.holding hstored.numbers).spanOf?_eq_some
  have hmem (id : NodeId) (span : Span) :
      (id, span) ∈ nodes ↔ st.spanOf? id = some span ∧ span.contains pos := by
    rw [hspan]
    exact hs.mem_nodesAt hw
  have hlast : ∀ n ∈ nodes.getLast?, ∃ id, n.1 = .function id := by
    cases hpath : st.program.pathAt pos with
    | none => simp [nodes, Program.nodesAt, hpath]
    | some path =>
      rw [show nodes = _ from Store.nodesAt_of_passes hpath, Path.nodes, List.getLast?_concat]
      rintro n ⟨⟩
      exact ⟨_, rfl⟩
  refine ⟨hmem, ?_, ?_, hlast, ?_, ?_⟩
  · cases hpath : st.program.pathAt pos with
    | none => simp [nodes, Program.nodesAt, hpath]
    | some path =>
      rw [show nodes = _ from Store.nodesAt_of_passes hpath]
      exact (Program.passes_of_pathAt hpath).nodup_nodes hs
  · cases hpath : st.program.pathAt pos with
    | none => simp [nodes, Program.nodesAt, hpath]
    | some path =>
      rw [List.isChain_map, show nodes = _ from Store.nodesAt_of_passes hpath]
      exact ((Program.passes_of_pathAt hpath).isChain_nodes hs hw).imp fun _ _ => And.left
  · constructor
    · intro hnil id span hid hpos
      have := (hmem (.function id) span).2 ⟨hid, hpos⟩
      rw [hnil] at this
      cases this
    · intro hnone
      by_contra hne
      obtain ⟨n, hn⟩ := Option.isSome_iff_exists.1 (List.getLast?_isSome.2 hne)
      obtain ⟨id, hid⟩ := hlast n hn
      obtain ⟨hspan, hpos⟩ := (hmem n.1 n.2).1 (List.mem_of_getLast? hn)
      exact hnone id n.2 (hid ▸ hspan) hpos
  · rw [hs.exact_iff hw]
    simp only [hspan, Prod.exists]

theorem pathAt_complete_nested :
    ∃ tree, parse "func f(a int8) int8 \x7b\n\treturn (1 + a)\n\x7d\n" = .ok tree ∧
      let st := Store.ofProgram tree
      (.expr 1, ⟨35, 36⟩) ∈ st.program.nodesAt 35 ∧ (.expr 2, ⟨31, 36⟩) ∈ st.program.nodesAt 35 ∧
        pathIsExact (st.program.pathAt 35) 35 := by
  obtain ⟨tree, hp, hspans⟩ := exists_parse
    (fun tree => decide ((Store.ofProgram tree).spanOf? (.expr 1) = some ⟨35, 36⟩ ∧
      (Store.ofProgram tree).spanOf? (.expr 2) = some ⟨31, 36⟩))
    (by decide +kernel :
      (parse "func f(a int8) int8 \x7b\n\treturn (1 + a)\n\x7d\n").toOption.any _ = true)
  obtain ⟨hname, hsum⟩ := of_decide_eq_true hspans
  obtain ⟨hmem, -, -, -, -, hexact⟩ := pathAt_complete hp 35
  exact ⟨tree, hp, (hmem _ _).2 ⟨hname, rfl⟩, (hmem _ _).2 ⟨hsum, rfl⟩,
    hexact.2 ⟨_, _, hname, rfl⟩⟩

end Recast
