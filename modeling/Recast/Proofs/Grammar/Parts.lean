import Recast.Proofs.Grammar.Program
import Recast.Proofs.Lexing.Slice

/-!
# Reading parts on their own

Each part of a tree is read from tokens in a row, and the parser reads the same part when it is given
those tokens alone, whatever stood around them and how tightly the operators there bind. Where the
tokens stand shows in the spans only.
-/

namespace Recast

namespace Parser

variable {m : Nat} {ts us : List Token} {e : SourceExpr} {es : List SourceExpr}

/-! ### The tokens of parts -/

/-- Each part of the expression is read from some of the tokens, all in a row. -/
def ContainsParts (ts : List Token) (root : SourceExpr) : Prop :=
  ∀ e ∈ root.parts, ∃ us, us <:+: ts ∧ Reads 0 us e

theorem ContainsParts.mono (h : ContainsParts us e) (hsub : us <:+: ts) : ContainsParts ts e := by
  intro part hp
  obtain ⟨ws, hws, hr⟩ := h part hp
  exact ⟨ws, hws.trans hsub, hr⟩

theorem ContainsParts.node (h : Reads m ts e) (hc : ∀ child ∈ e.children, ContainsParts ts child) :
    ContainsParts ts e := by
  intro part hp
  rcases Expr.mem_parts.1 hp with rfl | ⟨child, hchild, hp⟩
  · exact ⟨ts, List.infix_rfl, h.mono (Nat.zero_le m)⟩
  · exact hc child hchild part hp

theorem infix_middle (as bs cs : List Token) : bs <:+: as ++ bs ++ cs := ⟨as, cs, rfl⟩

theorem Reads.containsParts (h : Reads m ts e) : ContainsParts ts e := by
  refine @Reads.rec (fun _ ts e _ => ContainsParts ts e)
    (fun ts es _ => ∀ e ∈ es, ContainsParts ts e) ?literal ?name ?paren ?call ?neg ?binary ?none
    ?last ?cons _ _ _ h
  case literal => exact .node (m := 0) .literal (by simp [Expr.children])
  case name => exact .node (m := 0) .name (by simp [Expr.children])
  case paren =>
    rintro m x y start stop ts inner hr ih
    exact .node (.paren hr (m := m)) (List.forall_mem_singleton.2
      (ih.mono (infix_middle [_] ts [_])))
  case call =>
    rintro m x y start stop cs newlines as callee args hr hn ha hl ihc iha
    refine .node (.call hr hn ha hl (m := m)) (List.forall_mem_cons.2 ⟨ihc.mono ?_, fun arg harg =>
      (iha arg harg).mono (infix_middle _ as _)⟩)
    exact ⟨[], ⟨.leftParen, x, start⟩ :: newlines ++ as ++ [⟨.rightParen, y, stop⟩], by simp⟩
  case neg =>
    rintro m x span ts operand hm hr ih
    exact .node (.neg hm hr) (List.forall_mem_singleton.2
      (ih.mono (List.suffix_cons _ ts).isInfix))
  case binary =>
    rintro m op x span ls newlines rs left right hm hl hn hr ihl ihr
    refine .node (.binary hm hl hn hr) (List.forall_mem_cons.2 ⟨ihl.mono ?_,
      List.forall_mem_singleton.2 (ihr.mono (List.suffix_append _ rs).isInfix)⟩)
    exact ⟨[], ⟨.op op, x, span⟩ :: newlines ++ rs, by simp⟩
  case none => exact List.forall_mem_nil _
  case last =>
    rintro ts newlines e - - ih
    exact List.forall_mem_singleton.2 (ih.mono (List.prefix_append ts newlines).isInfix)
  case cons =>
    rintro ts before after as x s e es - - - - ih iha
    refine List.forall_mem_cons.2 ⟨ih.mono ?_, fun e' he => (iha e' he).mono
      (List.suffix_append _ as).isInfix⟩
    exact ⟨[], before ++ ⟨.comma, x, s⟩ :: after ++ as, by simp⟩

theorem ReadsExprs.containsParts (h : ReadsExprs ts es) : ∀ e ∈ es, ContainsParts ts e := by
  obtain ⟨h, -⟩ := h
  induction h with
  | one hr => exact List.forall_mem_singleton.2 hr.containsParts
  | @cons ts between us text span e es hr _ _ ih =>
    refine List.forall_mem_cons.2 ⟨hr.containsParts.mono ?_, fun e' he => (ih e' he).mono
      (List.suffix_append _ us).isInfix⟩
    exact ⟨[], ⟨.comma, text, span⟩ :: between ++ us, by simp⟩

theorem ReadsStmt.containsParts {s : SourceStmt} (h : ReadsStmt ts s) :
    ∀ e ∈ s.children, ContainsParts ts e := by
  cases h with
  | declared | done => exact nofun
  | @initialized x y start span ns names ty vs _ _ _ _ _ hvs =>
    exact fun e he => (hvs.containsParts e he).mono
      ⟨⟨.var, x, start⟩ :: ns ++ ty ++ [⟨.assign, y, span⟩], [], by simp⟩
  | ret hrs => exact fun e he => (hrs.containsParts e he).mono (List.suffix_cons _ _).isInfix
  | @assign x span us vs _ _ hus hvs =>
    refine List.forall_mem_append.2 ⟨fun e he => (hus.containsParts e he).mono
      (List.prefix_append us _).isInfix, fun e he => (hvs.containsParts e he).mono ?_⟩
    exact ⟨us ++ [⟨.assign, x, span⟩], [], by simp⟩
  | expr hr => exact List.forall_mem_singleton.2 hr.containsParts

theorem ReadsBlock.containsParts {body : List SourceStmt} {stop : Span}
    (h : ReadsBlock ts body stop) : ∀ s ∈ body, ∀ e ∈ s.children, ContainsParts ts e := by
  induction h with
  | close => exact nofun
  | stmt _ hs _ _ ih =>
    exact List.forall_mem_cons.2 ⟨fun e he => (hs.containsParts e he).mono (infix_middle _ _ _),
      fun s hs' e he => (ih s hs' e he).mono (List.suffix_append _ _).isInfix⟩

theorem ReadsFunctions.containsParts {fs : List SourceFunction} (h : ReadsFunctions ts fs) :
    ∀ f ∈ fs, ∀ s ∈ f.body, ∀ e ∈ s.children, ContainsParts ts e := by
  induction h with
  | done => exact nofun
  | function _ hf _ ih =>
    refine List.forall_mem_cons.2 ⟨fun s hs e he => ?_, fun f hf' s hs e he =>
      (ih f hf' s hs e he).mono (List.suffix_append _ _).isInfix⟩
    cases hf with
    | mk _ _ _ _ hb _ =>
      exact ((hb.containsParts s hs e he).mono (List.suffix_cons _ _).isInfix).mono
        ((List.suffix_append _ _).isInfix.trans (infix_middle _ _ _))

/-! ### The same tokens elsewhere -/

theorem Newlines.relocate (h : Newlines ts) (f : Span → Span) :
    Newlines (ts.map (Token.relocate f)) := List.forall_mem_map.2 h

/-- Tokens at other places are read in the same way. -/
theorem Reads.relocate {f : Span → Span} (hf : ∀ s t, f (s.merge t) = (f s).merge (f t))
    (h : Reads m ts e) : ∃ e', Reads m (ts.map (Token.relocate f)) e' ∧ e'.span = f e.span ∧
      e'.retag id = e.retag f := by
  refine @Reads.rec (fun m ts e _ => ∃ e', Reads m (ts.map (Token.relocate f)) e' ∧
      e'.span = f e.span ∧ e'.retag id = e.retag f)
    (fun ts es _ => ∃ es', ReadsArgs (ts.map (Token.relocate f)) es' ∧
      es'.map (Expr.retag id) = es.map (Expr.retag f)) ?literal ?name ?paren ?call ?neg ?binary
    ?none ?last ?cons _ _ _ h
  case literal => exact fun {_ kind text span} => ⟨.literal (f span) kind text, .literal, rfl, rfl⟩
  case name => exact fun {_ text span} => ⟨.name (f span) text, .name, rfl, rfl⟩
  case paren =>
    rintro m x y start stop ts inner - ⟨inner', hr, -, ht⟩
    refine ⟨.paren ((f start).merge (f stop)) inner', ?_, (hf start stop).symm, ?_⟩
    · rw [List.map_append, List.map_cons]
      exact .paren hr
    · rw [Expr.retag, Expr.retag, ht, hf]
      rfl
  case call =>
    rintro m x y start stop cs newlines as callee args - hn - hl ⟨callee', hc, hs, ht⟩
      ⟨args', ha, hts⟩
    refine ⟨.call (callee'.span.merge (f stop)) callee' args', ?_, ?_, ?_⟩
    · have hlen : args'.length = args.length := by simpa using congrArg List.length hts
      simp only [List.map_append, List.map_cons, List.map_nil]
      exact .call hc (hn.relocate f) ha (hlen ▸ hl)
    · rw [hs]
      exact (hf _ _).symm
    · rw [Expr.retag, Expr.retag, ht, hs, hf, Expr.retagAll_eq, Expr.retagAll_eq, hts]
      rfl
  case neg =>
    rintro m x span ts operand hm - ⟨operand', hr, hs, ht⟩
    refine ⟨.neg ((f span).merge operand'.span) operand', .neg hm hr, ?_, ?_⟩
    · rw [hs]
      exact (hf _ _).symm
    · rw [Expr.retag, Expr.retag, ht, hs, hf]
      rfl
  case binary =>
    rintro m op x span ls newlines rs left right hm - hn - ⟨left', hl, hsl, htl⟩
      ⟨right', hr, hsr, htr⟩
    refine ⟨.binary (left'.span.merge right'.span) op left' right', ?_, ?_, ?_⟩
    · simp only [List.map_append, List.map_cons]
      exact .binary hm hl (hn.relocate f) hr
    · rw [hsl, hsr]
      exact (hf _ _).symm
    · rw [Expr.retag, Expr.retag, htl, htr, hsl, hsr, hf]
      rfl
  case none => exact ⟨[], .none, rfl⟩
  case last =>
    rintro ts newlines e - hn ⟨e', hr, -, ht⟩
    refine ⟨[e'], ?_, by rw [List.map_singleton, List.map_singleton, ht]⟩
    rw [List.map_append]
    exact .last hr (hn.relocate f)
  case cons =>
    rintro ts before after as x s e es - hb ha - ⟨e', hr, -, ht⟩ ⟨es', hrs, hts⟩
    refine ⟨e' :: es', ?_, by rw [List.map_cons, List.map_cons, ht, hts]⟩
    simp only [List.map_append, List.map_cons]
    exact .cons hr (hb.relocate f) (ha.relocate f) hrs

/-! ### Reading again -/

/-- The parser reads an expression from its tokens alone. -/
theorem Reads.expr_eq_ok (h : Reads m ts e) : expr (enoughFuel ts) ts = .ok (e, []) := by
  have hend : Ends 0 [] := ⟨by simp [next?], by simp [next?]⟩
  have hread := (complete (h.mono (Nat.zero_le m))).result (Nat.le_refl 0) hend (enoughFuel ts)
    (by unfold enoughFuel; omega)
  rwa [List.append_nil] at hread

/-- Tokens are read as one expression only. -/
theorem Reads.unique {n : Nat} {e' : SourceExpr} (h : Reads m ts e) (h' : Reads n ts e') :
    e = e' := by
  have := h.expr_eq_ok.symm.trans h'.expr_eq_ok
  simpa using this

theorem shift_merge (n : Nat) (s t : Span) :
    (s.merge t).shift n = (s.shift n).merge (t.shift n) := by
  simp only [Span.shift, Span.merge, Span.mk.injEq]
  omega

/-- The parser reads an expression also from tokens that stand further to the left. -/
theorem Reads.expr_shift {n : Nat} (h : Reads m (us.map (Token.relocate (Span.shift n))) e) :
    ∃ e', expr (enoughFuel us) us = .ok (e', []) ∧ e'.retag (Span.shift n) = e.retag id := by
  let back (s : Span) : Span := ⟨s.start - n, s.stop - n⟩
  have hback : (us.map (Token.relocate (Span.shift n))).map (Token.relocate back) = us := by
    rw [List.map_map, List.map_congr_left (g := id), List.map_id]
    intro t _
    simp [Token.relocate, Span.shift, back]
  have hmerge (s t : Span) : back (s.merge t) = (back s).merge (back t) := by
    simp only [back, Span.merge, Span.mk.injEq]
    omega
  obtain ⟨e', hr, -, -⟩ := h.relocate hmerge
  rw [hback] at hr
  obtain ⟨e'', hr', -, ht⟩ := hr.relocate (shift_merge n)
  obtain rfl := hr'.unique h
  exact ⟨e', hr.expr_eq_ok, ht.symm⟩

end Parser

end Recast
