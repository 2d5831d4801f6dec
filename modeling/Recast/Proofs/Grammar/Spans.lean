import Recast.Proofs.Grammar.Program
import Recast.Proofs.Tree.Placement

/-!
# Where the parser puts trees

Tokens stand one after the other in the text, so the trees that the grammar gives for them are well
placed: each node runs from the start of its first token to the end of its last one.
-/

namespace Recast

namespace Parser

/-- The tokens stand one after the other, and none is empty. -/
structure Ordered (ts : List Token) : Prop where
  nonempty : ∀ t ∈ ts, t.span.start < t.span.stop
  apart : ts.Pairwise fun a b => a.span.stop ≤ b.span.start

/-- The span runs from the first to the last of the tokens. -/
structure Covers (ts : List Token) (s : Span) : Prop where
  start : (ts.head?.map fun t => t.span.start) = some s.start
  stop : (ts.getLast?.map fun t => t.span.stop) = some s.stop

/-- The span runs from one of the tokens to another. -/
structure Within (ts : List Token) (s : Span) : Prop where
  start : ∃ t ∈ ts, t.span.start = s.start
  stop : ∃ t ∈ ts, t.span.stop = s.stop

namespace Ordered

variable {ts us : List Token}

theorem append : Ordered (ts ++ us) ↔ Ordered ts ∧ Ordered us ∧
    ∀ t ∈ ts, ∀ u ∈ us, t.span.stop ≤ u.span.start := by
  constructor
  · rintro ⟨hn, ha⟩
    obtain ⟨h₁, h₂, h₃⟩ := List.pairwise_append.1 ha
    exact ⟨⟨fun t ht => hn t (by simp [ht]), h₁⟩, ⟨fun t ht => hn t (by simp [ht]), h₂⟩, h₃⟩
  · rintro ⟨⟨hn, h₁⟩, ⟨hn', h₂⟩, h₃⟩
    refine ⟨fun t ht => ?_, List.pairwise_append.2 ⟨h₁, h₂, h₃⟩⟩
    rcases List.mem_append.1 ht with ht | ht
    · exact hn t ht
    · exact hn' t ht

theorem cons {t : Token} : Ordered (t :: us) ↔ t.span.start < t.span.stop ∧ Ordered us ∧
    ∀ u ∈ us, t.span.stop ≤ u.span.start := by
  rw [← List.singleton_append, append]
  constructor
  · rintro ⟨h, hu, ha⟩
    exact ⟨h.nonempty t (by simp), hu, ha t (by simp)⟩
  · rintro ⟨h, hu, ha⟩
    exact ⟨⟨by simpa using h, by simp⟩, hu, by simpa using ha⟩

end Ordered

theorem Covers.singleton (t : Token) : Covers [t] t.span := ⟨rfl, rfl⟩

theorem Covers.within {ts : List Token} {s : Span} (h : Covers ts s) : Within ts s := by
  obtain ⟨t, ht, hs⟩ := Option.map_eq_some_iff.1 h.start
  obtain ⟨u, hu, hs'⟩ := Option.map_eq_some_iff.1 h.stop
  exact ⟨⟨t, List.mem_of_mem_head? ht, hs⟩, ⟨u, List.mem_of_getLast? hu, hs'⟩⟩

theorem Within.mono {ts us : List Token} {s : Span} (h : Within ts s) (hsub : ts ⊆ us) :
    Within us s := by
  obtain ⟨⟨t, ht, hs⟩, ⟨u, hu, hs'⟩⟩ := h
  exact ⟨⟨t, hsub ht, hs⟩, ⟨u, hsub hu, hs'⟩⟩

theorem Within.apart {ts us : List Token} {s s' : Span} (h : Within ts s) (h' : Within us s')
    (ho : ∀ t ∈ ts, ∀ u ∈ us, t.span.stop ≤ u.span.start) : s.stop ≤ s'.start := by
  obtain ⟨-, ⟨t, ht, e⟩⟩ := h
  obtain ⟨⟨u, hu, e'⟩, -⟩ := h'
  exact e ▸ e' ▸ ho t ht u hu

/-- The first of the tokens starts where the span does, the last stops where it does, and the others
stand between. -/
theorem Covers.inside {ts : List Token} {s : Span} (h : Covers ts s) (ho : Ordered ts) {t : Token}
    (ht : t ∈ ts) : s.start ≤ t.span.start ∧ t.span.stop ≤ s.stop := by
  obtain ⟨hn, ha⟩ := ho
  constructor
  · obtain ⟨first, hf, hs⟩ := Option.map_eq_some_iff.1 h.start
    obtain ⟨rest, rfl⟩ := List.head?_eq_some_iff.1 hf
    rcases List.mem_cons.1 ht with rfl | ht
    · omega
    · have := List.rel_of_pairwise_cons ha ht
      have := hn first (by simp)
      omega
  · obtain ⟨last, hl, hs⟩ := Option.map_eq_some_iff.1 h.stop
    obtain ⟨rest, rfl⟩ := List.getLast?_eq_some_iff.1 hl
    rcases List.mem_append.1 ht with ht | ht
    · have := (List.pairwise_append.1 ha).2.2 t ht last (by simp)
      have := hn last (by simp)
      omega
    · obtain rfl : t = last := by simpa using ht
      omega

theorem Covers.nonempty {ts : List Token} {s : Span} (h : Covers ts s) (ho : Ordered ts) :
    s.start < s.stop := by
  obtain ⟨⟨t, ht, -⟩, -⟩ := h.within
  have := h.inside ho ht
  have := ho.nonempty t ht
  omega

theorem Within.inside {ts us : List Token} {s s' : Span} (h : Within ts s) (h' : Covers us s')
    (ho : Ordered us) (hsub : ts ⊆ us) : s.Inside s' := by
  obtain ⟨⟨t, ht, e⟩, ⟨u, hu, e'⟩⟩ := h
  have := h'.inside ho (hsub ht)
  have := h'.inside ho (hsub hu)
  exact ⟨by omega, by omega⟩

/-- Two spans with the tokens between them make one span. -/
theorem Covers.merge (between : List Token) {ts us : List Token} {s s' : Span}
    (h : Covers ts s) (h' : Covers us s') (ho : Ordered (ts ++ between ++ us)) :
    Covers (ts ++ between ++ us) (s.merge s') ∧ (s.merge s').start = s.start ∧
      (s.merge s').stop = s'.stop := by
  obtain ⟨ho₁, ho₂, ho₃⟩ := Ordered.append.1 ho
  have hle := h.within.apart h'.within fun t ht u hu => ho₃ t (by simp [ht]) u hu
  have hn := h.nonempty (Ordered.append.1 ho₁).1
  have hn' := h'.nonempty ho₂
  have hstart : (s.merge s').start = s.start := by simp; omega
  have hstop : (s.merge s').stop = s'.stop := by simp; omega
  refine ⟨⟨?_, ?_⟩, hstart, hstop⟩
  · obtain ⟨first, hf, hs⟩ := Option.map_eq_some_iff.1 h.start
    rw [hstart, List.append_assoc, List.head?_append, hf]
    simpa using hs
  · obtain ⟨last, hl, hs⟩ := Option.map_eq_some_iff.1 h'.stop
    rw [hstop, List.getLast?_append, hl]
    simpa using hs

/-- What is known about the places of an expression and its tokens. -/
structure PlacedBy (ts : List Token) (e : SourceExpr) : Prop where
  placed : e.WellPlaced
  covers : Covers ts e.span

theorem PlacedBy.node {ts : List Token} {e : SourceExpr} (hc : Covers ts e.span) (ho : Ordered ts)
    (inside : ∀ child ∈ e.children, child.span.Inside e.span)
    (apart : e.children.Pairwise fun a b => a.span.stop ≤ b.span.start) (leads : e.Leads)
    (children : ∀ child ∈ e.children, child.WellPlaced) : PlacedBy ts e :=
  ⟨Expr.wellPlaced_iff.2 ⟨⟨hc.nonempty ho, inside, apart, leads⟩, children⟩, hc⟩

/-- What is known about the places of several expressions and their tokens. -/
structure PlacedAll (ts : List Token) (es : List SourceExpr) : Prop where
  placed : ∀ e ∈ es, e.WellPlaced ∧ Within ts e.span
  apart : es.Pairwise fun a b => a.span.stop ≤ b.span.start

theorem PlacedAll.cons {ts between us : List Token} {e : SourceExpr} {es : List SourceExpr}
    (h : PlacedBy ts e) (hs : PlacedAll us es) (ho : Ordered (ts ++ between ++ us)) :
    PlacedAll (ts ++ between ++ us) (e :: es) := by
  obtain ⟨-, -, ha⟩ := Ordered.append.1 ho
  constructor
  · intro e' he
    rcases List.mem_cons.1 he with rfl | he
    · exact ⟨h.placed, h.covers.within.mono (by simp)⟩
    · exact ⟨(hs.placed e' he).1, (hs.placed e' he).2.mono (by simp)⟩
  · exact List.pairwise_cons.2 ⟨fun e' he => h.covers.within.apart (hs.placed e' he).2
      fun t ht u hu => ha t (by simp [ht]) u hu, hs.apart⟩

/-- A minus sign and its operand. -/
theorem PlacedBy.neg {x : String} {span : Span} {ts : List Token} {operand : SourceExpr}
    (h : PlacedBy ts operand) (ho : Ordered (⟨.op .sub, x, span⟩ :: ts)) :
    PlacedBy (⟨.op .sub, x, span⟩ :: ts) (.neg (span.merge operand.span) operand) := by
  obtain ⟨hc, hstart, hstop⟩ := Covers.merge [] (.singleton ⟨.op .sub, x, span⟩)
    h.covers ho
  obtain ⟨hne, -, ha⟩ := Ordered.cons.1 ho
  have hlt : span.stop ≤ operand.span.start :=
    (Covers.singleton ⟨.op .sub, x, span⟩).within.apart h.covers.within (by simpa using ha)
  have hin : operand.span.Inside (span.merge operand.span) :=
    h.covers.within.inside hc ho (by simp)
  refine .node hc ho (List.forall_mem_singleton.2 hin) (by simp [Expr.children]) ?_
    (by simpa [Expr.children] using h.placed)
  calc (span.merge operand.span).start = span.start := hstart
    _ < span.stop := hne
    _ ≤ operand.span.start := hlt

/-- A pair of parentheses and what stands between them. -/
theorem PlacedBy.paren {x y : String} {start stop : Span} {ts : List Token} {inner : SourceExpr}
    (h : PlacedBy ts inner)
    (ho : Ordered (⟨.leftParen, x, start⟩ :: ts ++ [⟨.rightParen, y, stop⟩])) :
    PlacedBy (⟨.leftParen, x, start⟩ :: ts ++ [⟨.rightParen, y, stop⟩])
      (.paren (start.merge stop) inner) := by
  obtain ⟨hc, hstart, hstop⟩ := Covers.merge ts (.singleton ⟨.leftParen, x, start⟩)
    (.singleton ⟨.rightParen, y, stop⟩) ho
  obtain ⟨hne, -, ha⟩ := Ordered.cons.1 (Ordered.append.1 ho).1
  have hlt : start.stop ≤ inner.span.start :=
    (Covers.singleton ⟨.leftParen, x, start⟩).within.apart h.covers.within (by simpa using ha)
  have hin : inner.span.Inside (start.merge stop) := h.covers.within.inside hc ho (by simp)
  refine .node hc ho (List.forall_mem_singleton.2 hin) (by simp [Expr.children]) ?_
    (by simpa [Expr.children] using h.placed)
  calc (start.merge stop).start = start.start := hstart
    _ < start.stop := hne
    _ ≤ inner.span.start := hlt

/-- Two operands with an operator between them. -/
theorem PlacedBy.binary {op : BinaryOp} {ls between rs : List Token} {left right : SourceExpr}
    (hl : PlacedBy ls left) (hr : PlacedBy rs right) (ho : Ordered (ls ++ between ++ rs)) :
    PlacedBy (ls ++ between ++ rs) (.binary (left.span.merge right.span) op left right) := by
  obtain ⟨hc, hstart, hstop⟩ := hl.covers.merge _ hr.covers ho
  obtain ⟨-, -, ha⟩ := Ordered.append.1 ho
  have hin : left.span.Inside (left.span.merge right.span) :=
    hl.covers.within.inside hc ho (by simp)
  have hin' : right.span.Inside (left.span.merge right.span) :=
    hr.covers.within.inside hc ho (by simp)
  have hlt : left.span.stop ≤ right.span.start :=
    hl.covers.within.apart hr.covers.within fun t ht u hu => ha t (by simp [ht]) u hu
  exact .node hc ho (List.forall_mem_cons.2 ⟨hin, List.forall_mem_singleton.2 hin'⟩)
    (by simpa [Expr.children] using hlt) hstart.symm (by simpa [Expr.children] using ⟨hl.placed, hr.placed⟩)

/-- A callee and its arguments in parentheses. -/
theorem PlacedBy.call {cs opening as : List Token} {close : Token} {callee : SourceExpr}
    {args : List SourceExpr} (h : PlacedBy cs callee) (hs : PlacedAll as args)
    (ho : Ordered (cs ++ opening ++ as ++ [close])) :
    PlacedBy (cs ++ opening ++ as ++ [close])
      (.call (callee.span.merge close.span) callee args) := by
  have ho' : Ordered (cs ++ (opening ++ as) ++ [close]) := by simpa using ho
  obtain ⟨hc, hstart, hstop⟩ := h.covers.merge _ (.singleton close) ho'
  have hall := (PlacedAll.cons h hs (Ordered.append.1 ho).1).apart
  rw [show cs ++ opening ++ as ++ [close] = cs ++ (opening ++ as) ++ [close] by simp]
  refine .node hc ho' ?_ hall hstart.symm ?_
  · intro child hchild
    rcases List.mem_cons.1 hchild with rfl | hchild
    · exact h.covers.within.inside hc ho' (by simp)
    · exact (hs.placed child hchild).2.inside hc ho' fun t ht => by simp [ht]
  · intro child hchild
    rcases List.mem_cons.1 hchild with rfl | hchild
    · exact h.placed
    · exact (hs.placed child hchild).1

theorem Reads.placed {m : Nat} {ts : List Token} {e : SourceExpr} (h : Reads m ts e) :
    Ordered ts → PlacedBy ts e := by
  refine @Reads.rec (fun _ ts e _ => Ordered ts → PlacedBy ts e)
    (fun ts es _ => Ordered ts → PlacedAll ts es) ?literal ?name ?paren ?call ?neg
    ?binary ?none ?last ?cons _ _ _ h
  case literal =>
    rintro m kind text span ho
    exact .node (.singleton ⟨.literal kind, text, span⟩) ho (by simp [Expr.children])
      (by simp [Expr.children]) trivial (by simp [Expr.children])
  case name =>
    rintro m text span ho
    exact .node (.singleton ⟨.ident, text, span⟩) ho (by simp [Expr.children])
      (by simp [Expr.children]) trivial (by simp [Expr.children])
  case paren =>
    rintro m x y start stop ts inner - ih ho
    exact (ih (Ordered.cons.1 (Ordered.append.1 ho).1).2.1).paren ho
  case call =>
    rintro m x y start stop cs newlines as callee args - - - - ihc iha ho
    obtain ⟨ho₁, -, -⟩ := Ordered.append.1 ho
    obtain ⟨ho₂, ho₃, -⟩ := Ordered.append.1 ho₁
    exact (ihc (Ordered.append.1 ho₂).1).call (iha ho₃) ho
  case neg =>
    rintro m x span ts operand - - ih ho
    exact (ih (Ordered.cons.1 ho).2.1).neg ho
  case binary =>
    rintro m op x span ls newlines rs left right - - - - ihl ihr ho
    obtain ⟨ho₁, ho₂, -⟩ := Ordered.append.1 ho
    exact (ihl (Ordered.append.1 ho₁).1).binary (ihr ho₂) ho
  case none =>
    exact fun _ => ⟨by simp, by simp⟩
  case last =>
    rintro ts newlines e - - ih ho
    have he := ih (Ordered.append.1 ho).1
    exact ⟨by simpa using ⟨he.placed, he.covers.within.mono (by simp)⟩, by simp⟩
  case cons =>
    rintro ts before after as x s e es - - - - ih iha ho
    rw [show ts ++ before ++ ⟨.comma, x, s⟩ :: after ++ as
      = ts ++ (before ++ ⟨.comma, x, s⟩ :: after) ++ as by simp] at ho ⊢
    obtain ⟨ho₁, ho₂, -⟩ := Ordered.append.1 ho
    exact .cons (ih (Ordered.append.1 ho₁).1) (iha ho₂) ho

/-! ### Statements -/

/-- The expressions of a list stand where its tokens do, and its last one where the last tokens do.
-/
theorem CommaList.placed {ts : List Token} {es : List SourceExpr}
    (h : CommaList Newlines (Reads 0) ts es) (ho : Ordered ts) :
    PlacedAll ts es ∧ ∃ before last, ts = before ++ last ∧ Covers last (lastSpan es) := by
  induction h with
  | one hr =>
    have hp := hr.placed ho
    exact ⟨⟨by simpa using ⟨hp.placed, hp.covers.within⟩, by simp⟩, [], _, rfl, hp.covers⟩
  | @cons ts between us text span e es hr _ hrest ih =>
    rw [show ts ++ ⟨.comma, text, span⟩ :: between ++ us
      = ts ++ (⟨.comma, text, span⟩ :: between) ++ us by simp] at ho ⊢
    obtain ⟨ho₁, ho₂, -⟩ := Ordered.append.1 ho
    obtain ⟨hall, before, last, rfl, hl⟩ := ih ho₂
    refine ⟨.cons (hr.placed (Ordered.append.1 ho₁).1) hall ho,
      ts ++ (⟨.comma, text, span⟩ :: between) ++ before, last, by simp, ?_⟩
    obtain ⟨e', es', rfl⟩ := List.exists_cons_of_ne_nil hrest.ne_nil
    simpa [lastSpan] using hl

/-- What is known about the places of a statement and its tokens. -/
structure StmtPlacedBy (ts : List Token) (s : SourceStmt) : Prop where
  placed : s.WellPlaced
  covers : Covers ts s.span

theorem StmtPlacedBy.of_all {ts us : List Token} {s : SourceStmt} (hc : Covers ts s.span)
    (ho : Ordered ts) (hs : PlacedAll us s.children) (hsub : us ⊆ ts) : StmtPlacedBy ts s :=
  ⟨⟨hc.nonempty ho, fun e he => (hs.placed e he).2.inside hc ho hsub, hs.apart,
    fun e he => (hs.placed e he).1⟩, hc⟩

theorem PlacedAll.none {ts : List Token} : PlacedAll ts [] := ⟨by simp, by simp⟩

theorem PlacedAll.append {ts between us : List Token} {es fs : List SourceExpr}
    (h : PlacedAll ts es) (h' : PlacedAll us fs) (ho : Ordered (ts ++ between ++ us)) :
    PlacedAll (ts ++ between ++ us) (es ++ fs) := by
  obtain ⟨-, -, ha⟩ := Ordered.append.1 ho
  constructor
  · intro e he
    rcases List.mem_append.1 he with he | he
    · exact ⟨(h.placed e he).1, (h.placed e he).2.mono (by simp)⟩
    · exact ⟨(h'.placed e he).1, (h'.placed e he).2.mono (by simp)⟩
  · refine List.pairwise_append.2 ⟨h.apart, h'.apart, fun e he f hf => ?_⟩
    exact (h.placed e he).2.apart (h'.placed f hf).2 fun t ht u hu => ha t (by simp [ht]) u hu

theorem Covers.firstSpan {ts : List Token} {s : Span} (h : Covers ts s) :
    ∃ t rest, ts = t :: rest ∧ firstSpan ts = t.span := by
  obtain ⟨t, hf, -⟩ := Option.map_eq_some_iff.1 h.start
  obtain ⟨rest, rfl⟩ := List.head?_eq_some_iff.1 hf
  exact ⟨t, rest, rfl, rfl⟩

/-- The span of a text with the span of its first token is the same span. -/
theorem Covers.firstSpan_merge {ts : List Token} {s : Span} (h : Covers ts s) (ho : Ordered ts) :
    (Parser.firstSpan ts).merge s = s := by
  obtain ⟨t, rest, rfl, e⟩ := h.firstSpan
  have hs : t.span.start = s.start := by simpa using h.start
  have hin := h.inside ho (List.mem_cons_self ..)
  rw [e]
  simp only [Span.merge, hs, Nat.min_self, Nat.max_eq_right hin.2]

theorem ReadsStmt.placed {ts : List Token} {s : SourceStmt} (h : ReadsStmt ts s)
    (ho : Ordered ts) : StmtPlacedBy ts s := by
  cases h with
  | @declared x text start span ns names hn =>
    obtain ⟨hc, -⟩ := Covers.merge ns (.singleton ⟨.var, x, start⟩)
      (.singleton ⟨.ident, text, span⟩) ho
    exact .of_all hc ho .none (List.nil_subset _)
  | @initialized x y start span ns names ty vs type? values hn hl ht hv =>
    obtain ⟨ho₁, ho₂, -⟩ := Ordered.append.1 ho
    obtain ⟨hall, before, last, rfl, hlast⟩ := hv.1.placed (Ordered.cons.1 ho₂).2.1
    have hts : ⟨.var, x, start⟩ :: ns ++ ty ++ ⟨.assign, y, span⟩ :: (before ++ last)
        = [⟨.var, x, start⟩] ++ (ns ++ ty ++ ⟨.assign, y, span⟩ :: before) ++ last := by simp
    obtain ⟨hc, -⟩ := Covers.merge _ (.singleton ⟨.var, x, start⟩) hlast (hts ▸ ho)
    exact .of_all (hts ▸ hc) ho hall fun t ht =>
      List.mem_append_right _ (List.mem_cons_of_mem _ ht)
  | @done x start =>
    exact .of_all (.singleton ⟨.ret, x, start⟩) ho .none (List.nil_subset _)
  | @ret x start ts results hr =>
    obtain ⟨hall, before, last, rfl, hlast⟩ := hr.1.placed (Ordered.cons.1 ho).2.1
    obtain ⟨hc, -⟩ := Covers.merge before (.singleton ⟨.ret, x, start⟩) hlast
      (by simpa using ho)
    have hc : Covers (⟨.ret, x, start⟩ :: (before ++ last)) (start.merge (lastSpan results)) := by
      simpa using hc
    exact .of_all hc ho hall (List.subset_cons_self _ _)
  | @assign x span ts vs targets values ht hv =>
    obtain ⟨ho₁, ho₂, -⟩ := Ordered.append.1 ho
    obtain ⟨hall, -⟩ := ht.1.placed ho₁
    obtain ⟨hall', before, last, rfl, hlast⟩ := hv.1.placed (Ordered.cons.1 ho₂).2.1
    obtain ⟨t, rest, rfl, -⟩ := ht.starts
    have hts : t :: rest ++ ⟨.assign, x, span⟩ :: (before ++ last)
        = [t] ++ (rest ++ ⟨.assign, x, span⟩ :: before) ++ last := by simp
    obtain ⟨hc, -⟩ := Covers.merge _ (.singleton t) hlast (hts ▸ ho)
    have hts' : t :: rest ++ ⟨.assign, x, span⟩ :: (before ++ last)
        = t :: rest ++ [⟨.assign, x, span⟩] ++ (before ++ last) := by simp
    exact .of_all (hts ▸ hc) ho (hts' ▸ hall.append hall' (hts' ▸ ho)) (List.Subset.refl _)
  | @expr ts e hr =>
    have hp := hr.placed ho
    rw [hp.covers.firstSpan_merge ho]
    have hall : PlacedAll ts [e] := ⟨by simpa using ⟨hp.placed, hp.covers.within⟩, by simp⟩
    exact .of_all hp.covers ho hall (List.Subset.refl _)

/-! ### Functions -/

/-- What is known about the places of the statements of a block and its tokens, of which the last is
the closing brace. -/
structure BlockPlacedBy (ts : List Token) (body : List SourceStmt) (stop : Span) : Prop where
  placed : ∀ s ∈ body, s.WellPlaced ∧ Within ts s.span
  apart : body.Pairwise fun a b => a.span.stop ≤ b.span.start
  closed : ∃ before x, ts = before ++ [⟨.rightBrace, x, stop⟩] ∧
    ∀ s ∈ body, s.span.stop ≤ stop.start

theorem ReadsBlock.placed {ts : List Token} {body : List SourceStmt} {stop : Span}
    (h : ReadsBlock ts body stop) : Ordered ts → BlockPlacedBy ts body stop := by
  induction h with
  | @close ends x span he => exact fun _ => ⟨by simp, by simp, ends, x, rfl, by simp⟩
  | @stmt ends ts us s ss span he hs hend hrest ih =>
    intro ho
    obtain ⟨ho₁, ho₂, ha⟩ := Ordered.append.1 ho
    obtain ⟨hp, hap, before, x, rfl, hstop⟩ := ih ho₂
    have hs' := hs.placed (Ordered.append.1 ho₁).2.1
    refine ⟨fun s' hs₁ => ?_, List.pairwise_cons.2 ⟨fun s' hs₁ => ?_, hap⟩,
      ends ++ ts ++ before, x, by simp, fun s' hs₁ => ?_⟩
    · rcases List.mem_cons.1 hs₁ with rfl | hs₁
      · exact ⟨hs'.placed, hs'.covers.within.mono (by simp)⟩
      · exact ⟨(hp s' hs₁).1, (hp s' hs₁).2.mono (by simp)⟩
    · exact hs'.covers.within.apart (hp s' hs₁).2 fun t ht u hu => ha t (by simp [ht]) u hu
    · rcases List.mem_cons.1 hs₁ with rfl | hs₁
      · exact hs'.covers.within.apart (Covers.singleton ⟨.rightBrace, x, span⟩).within
          fun t ht u hu => ha t (by simp [ht]) u (List.mem_append_right _ hu)
      · exact hstop s' hs₁

/-- What is known about the places of a function and its tokens. -/
structure FunctionPlacedBy (ts : List Token) (f : SourceFunction) : Prop where
  placed : f.WellPlaced
  covers : Covers ts f.span

theorem ReadsFunction.placed {ts : List Token} {f : SourceFunction} (h : ReadsFunction ts f)
    (ho : Ordered ts) : FunctionPlacedBy ts f := by
  obtain @⟨x, name, y, z, w, start, span, open_, close, brace, stop, ps, rs, bs, params, results,
    body, hp, -, hr, -, hb, -⟩ := h
  obtain ⟨ho₁, ho₂, -⟩ := Ordered.append.1 ho
  obtain ⟨hplaced, hapart, before, v, rfl, -⟩ := hb.placed (Ordered.cons.1 ho₂).2.1
  have hts : ⟨.func, x, start⟩ :: ⟨.ident, name, span⟩ :: ⟨.leftParen, y, open_⟩ :: ps
      ++ ⟨.rightParen, z, close⟩ :: rs ++ ⟨.leftBrace, w, brace⟩ :: (before
        ++ [⟨.rightBrace, v, stop⟩])
      = [⟨.func, x, start⟩] ++ (⟨.ident, name, span⟩ :: ⟨.leftParen, y, open_⟩ :: ps
        ++ ⟨.rightParen, z, close⟩ :: rs ++ ⟨.leftBrace, w, brace⟩ :: before)
        ++ [⟨.rightBrace, v, stop⟩] := by simp
  obtain ⟨hc, -⟩ := Covers.merge _ (.singleton ⟨.func, x, start⟩)
    (.singleton ⟨.rightBrace, v, stop⟩) (hts ▸ ho)
  rw [← hts] at hc
  refine ⟨⟨hc.nonempty ho, fun s hs => ?_, hapart, fun s hs => (hplaced s hs).1⟩, hc⟩
  exact (hplaced s hs).2.inside hc ho fun t ht =>
    List.mem_append_right _ (List.mem_cons_of_mem _ ht)

theorem ReadsFunctions.placed {ts : List Token} {fs : List SourceFunction}
    (h : ReadsFunctions ts fs) : Ordered ts →
      (∀ f ∈ fs, f.WellPlaced ∧ Within ts f.span) ∧
        fs.Pairwise fun a b => a.span.stop ≤ b.span.start := by
  induction h with
  | done => exact fun _ => ⟨by simp, by simp⟩
  | @function ends ts us f fs he hf hrest ih =>
    intro ho
    obtain ⟨ho₁, ho₂, ha⟩ := Ordered.append.1 ho
    obtain ⟨hp, hap⟩ := ih ho₂
    have hf' := hf.placed (Ordered.append.1 ho₁).2.1
    refine ⟨fun f' h => ?_, List.pairwise_cons.2 ⟨fun f' h => ?_, hap⟩⟩
    · rcases List.mem_cons.1 h with rfl | h
      · exact ⟨hf'.placed, hf'.covers.within.mono (by simp)⟩
      · exact ⟨(hp f' h).1, (hp f' h).2.mono (by simp)⟩
    · exact hf'.covers.within.apart (hp f' h).2 fun t ht u hu => ha t (by simp [ht]) u hu

end Parser

/-- The parser puts trees where their tokens stand. -/
theorem Lexed.wellPlaced {lexed : Lexed} {p : SourceProgram} (h : lexed.parse = .ok p)
    (ho : Parser.Ordered lexed.tokens) : p.WellPlaced := by
  obtain ⟨hr, -⟩ := Lexed.parse_eq_ok.1 h
  obtain ⟨hf, ha⟩ := hr.placed ho
  exact ⟨ha, fun f hf' => (hf f hf').1⟩

end Recast
