import Recast.Proofs.Grammar.Parts
import Recast.Proofs.Repair.Whole
import Recast.Proofs.Store.Parsed

/-!
# Spans are faithful to the text

A span says where the tokens of a node stand, the text in it reads back as the node, and the store
keeps the tree as it was read, with the children of a node numbered before it.
-/

namespace Recast

/-! ### Children come first -/

theorem Expr.postorder_sublist {root part : PlacedExpr} (h : part ∈ root.parts) :
    part.postorder.Sublist root.postorder := by
  refine forall_parts (P := fun e => e.postorder.Sublist root.postorder)
    (fun e he child hc => .trans ?_ he) (.refl _) h
  rw [postorder_eq e, List.flatMap_def]
  have hchild := List.sublist_flatten_of_mem (List.mem_map_of_mem (f := postorder) hc)
  exact hchild.trans (List.sublist_append_left _ _)

namespace Store

variable {s : Store} {p : PlacedProgram} {e child : PlacedExpr}

/-- A child of an expression is numbered before it. -/
theorem Numbers.ref_lt_of_child (h : s.Numbers p) (he : e ∈ p.parts) (hc : child ∈ e.children) :
    child.ref < e.ref := by
  obtain ⟨root, hr, he⟩ := List.mem_flatMap.1 he
  have hroot := List.sublist_flatten_of_mem (List.mem_map_of_mem (f := Expr.postorder) hr)
  rw [← List.flatMap_def] at hroot
  have hordered : (e.postorder.map Expr.ref).Pairwise (· < ·) := by
    refine .sublist (((Expr.postorder_sublist he).trans hroot).map Expr.ref) ?_
    rw [h.exprs]
    exact List.pairwise_lt_range
  rw [Expr.postorder_eq, List.map_append, List.pairwise_append] at hordered
  refine hordered.2.2 _ (List.mem_map_of_mem (List.mem_flatMap.2 ⟨child, hc, ?_⟩)) _ (by simp)
  rw [Expr.postorder_eq]
  simp

theorem Represents.childrenOf_lt (hs : s.Represents p) (h : s.Numbers p) {parent id : ExprId}
    (hid : id ∈ s.childrenOf parent) : id < parent := by
  have hparent : parent < s.exprs.size := by
    by_contra hge
    have hnone : s.exprs[parent]? = none := Array.getElem?_eq_none (Nat.le_of_not_lt hge)
    simp [Store.childrenOf, Store.expr?, hnone] at hid
  obtain ⟨e, he, rfl⟩ := (hs.holding h).covered parent hparent
  rw [((hs.holding h).exprs e he).childrenOf] at hid
  obtain ⟨child, hc, rfl⟩ := List.mem_map.1 hid
  exact h.ref_lt_of_child he hc

end Store

/-! ### Programs that were read -/

theorem Parser.Ordered.part {ts us : List Token} (h : Ordered ts) (hsub : us <:+: ts) :
    Ordered us :=
  ⟨fun t ht => h.nonempty t (hsub.subset ht), h.apart.sublist hsub.sublist⟩

theorem Lexed.containsParts {lexed : Lexed} {tree : SourceProgram} (h : lexed.parse = .ok tree) :
    ∀ e ∈ tree.parts, ∃ ts, ts <:+: lexed.tokens ∧ Parser.Reads 0 ts e := by
  intro e he
  obtain ⟨root, hr, he⟩ := List.mem_flatMap.1 he
  obtain ⟨st, hst, hr⟩ := List.mem_flatMap.1 hr
  obtain ⟨f, hf, hst⟩ := List.mem_flatMap.1 hst
  exact (Lexed.parse_eq_ok.1 h).1.containsParts f hf st hst root hr e he

/-- What the parser makes of a source text stands where its spans say. The spans of children lie in
that of their parent and one after the other, those of statements in that of their function, and
functions do not overlap. The span of an expression is not empty and runs from the start of its first
token to the end of its last one; what the source text has there is read as that expression alone,
with spans that differ by the start of it. The store holds this tree, with one parent for each
expression and with smaller ids for its children. -/
theorem parse_spans {source : String} {tree : SourceProgram} (h : parse source = .ok tree) :
    let st := Store.ofProgram tree
    tree.WellPlaced ∧
      (∃ lexed, lex source = .ok lexed ∧ ∀ e ∈ tree.parts, e.span.start < e.span.stop ∧
        ∃ ts, ts <:+: lexed.tokens ∧ Parser.Reads 0 ts e ∧ Parser.Covers ts e.span) ∧
      (∀ e ∈ tree.parts, ∃ text sliced e', e.span.Selects source text ∧ lex text = .ok sliced ∧
        Parser.expr (Parser.enoughFuel sliced.tokens) sliced.tokens = .ok (e', []) ∧
          e'.retag (Span.shift e.span.start) = e.retag id) ∧
      Stored tree st.program ∧
      st.IsTree ∧
      ∀ parent, ∀ child ∈ st.childrenOf parent, child < parent := by
  intro st
  have hstored : Stored tree st.program := stored_program tree
  have hs : st.Represents st.program := hstored.represents
  cases hl : lex source with
  | error e =>
    rw [parse, hl] at h
    cases h
  | ok lexed =>
    have hparse : lexed.parse = .ok tree := by rwa [parse, hl] at h
    have htokens : ∀ e ∈ tree.parts, ∃ ts, ts <:+: lexed.tokens ∧ Parser.Reads 0 ts e ∧
        Parser.Covers ts e.span ∧ e.span.start < e.span.stop := by
      intro e he
      obtain ⟨ts, hsub, hr⟩ := Lexed.containsParts hparse e he
      have ho : Parser.Ordered ts := (ordered_of_lex hl).1.part hsub
      exact ⟨ts, hsub, hr, (hr.placed ho).covers, (hr.placed ho).covers.nonempty ho⟩
    refine ⟨wellPlaced_of_parse h, ⟨lexed, rfl, fun e he => ?_⟩, fun e he => ?_, hstored,
      (hs.holding hstored.numbers).isTree, fun _ _ => hs.childrenOf_lt hstored.numbers⟩
    · obtain ⟨ts, hsub, hr, hc, hne⟩ := htokens e he
      exact ⟨hne, ts, hsub, hr, hc⟩
    · obtain ⟨ts, hsub, hr, hc, -⟩ := htokens e he
      obtain ⟨text, sliced, htext, hlex, rfl⟩ := lex_slice hl hsub hc
      obtain ⟨e', hexpr, ht⟩ := hr.expr_shift
      exact ⟨text, sliced, e', htext, hlex, hexpr, ht⟩

theorem parse_spans_operand :
    ∃ tree, parse "func f() \x7b\n\tg(1, -(x + 2) * y)\n\x7d\n" = .ok tree ∧
      ∃ e ∈ tree.parts, e.span = ⟨17, 25⟩ ∧ ∃ sliced e', lex "-(x + 2)" = .ok sliced ∧
        Parser.expr (Parser.enoughFuel sliced.tokens) sliced.tokens = .ok (e', []) ∧
          e'.retag (Span.shift 17) = e.retag id := by
  obtain ⟨tree, hp, hspan⟩ := exists_parse
    (fun tree => tree.parts.any fun e => decide (e.span = ⟨17, 25⟩))
    (by decide +kernel :
      (parse "func f() \x7b\n\tg(1, -(x + 2) * y)\n\x7d\n").toOption.any _ = true)
  obtain ⟨e, he, hspan⟩ := List.any_eq_true.1 hspan
  replace hspan := of_decide_eq_true hspan
  obtain ⟨-, -, hread, -⟩ := parse_spans hp
  obtain ⟨text, sliced, e', htext, hlex, hexpr, ht⟩ := hread e he
  rw [hspan] at htext ht
  obtain rfl : text = "-(x + 2)" := htext.unique
    ⟨"func f() \x7b\n\tg(1, ", " * y)\n\x7d\n", by decide +kernel, by decide +kernel,
      by decide +kernel⟩
  exact ⟨tree, hp, e, he, hspan, sliced, e', hlex, hexpr, ht⟩

end Recast
