import Recast.Proofs.Grammar.Program
import Recast.Proofs.Guard.Mirror
import Recast.Proofs.Store.Paths

/-!
# Parsing expressions into a store

The parser into a store reads the expressions that the parser on token lists reads, and puts them
into the store as they are put there when they have all been read.
-/

namespace Recast

open Recast.Parser

variable {α β γ : Type}

/-! ### Lists -/

namespace Store

variable {f : Store → α → β × Store} {s : Store}

theorem internAll_append (f : Store → α → β × Store) (xs ys : List α) : ∀ s,
    internAll f s (xs ++ ys) = ((internAll f s xs).1 ++ (internAll f (internAll f s xs).2 ys).1,
      (internAll f (internAll f s xs).2 ys).2) := by
  induction xs with
  | nil => exact fun _ => rfl
  | cons x xs ih =>
    intro s
    rw [List.cons_append, internAll_cons, internAll_cons, ih]
    rfl

theorem internAll_map (g : γ → α) (xs : List γ) : ∀ s,
    internAll f s (xs.map g) = internAll (fun s x => f s (g x)) s xs := by
  induction xs with
  | nil => exact fun _ => rfl
  | cons x xs ih =>
    intro s
    rw [List.map_cons, internAll_cons, internAll_cons, ih]

theorem length_internAll (f : Store → α → β × Store) (xs : List α) : ∀ s,
    (internAll f s xs).1.length = xs.length := by
  induction xs with
  | nil => exact fun _ => rfl
  | cons x xs ih =>
    intro s
    rw [internAll_cons, List.length_cons, ih, List.length_cons]

/-- One more item after those that have been found, last first. -/
theorem internAll_reverse_cons {found : List α} {ids : List β} {s s' : Store} {x : α}
    (h : internAll f s found.reverse = (ids.reverse, s')) :
    internAll f s (x :: found).reverse = (((f s' x).1 :: ids).reverse, (f s' x).2) := by
  rw [List.reverse_cons, internAll_append, h, internAll_cons, List.reverse_cons]
  rfl

theorem addExprTrees_eq (es : List SourceExpr) : ∀ (s : Store) (found : List ExprId),
    s.addExprTrees found es
      = (found.reverse ++ (internAll addExprTree s es).1, (internAll addExprTree s es).2) := by
  induction es with
  | nil =>
    intro s found
    rw [addExprTrees, show internAll addExprTree s [] = ([], s) from rfl, List.append_nil]
  | cons e es ih =>
    intro s found
    rw [addExprTrees]
    dsimp only
    rw [ih, internAll_cons, List.reverse_cons, List.append_assoc]
    rfl

/-- The node of an expression that was put into a store has its span. -/
theorem exists_node_addExprTree (s : Store) (e : SourceExpr) : ∃ node,
    (s.addExprTree e).2.exprs[(s.addExprTree e).1]? = some node ∧ node.span = e.span := by
  obtain ⟨e', hid, hstores, hretag⟩ := addExprTree_spec e s
  have hspan : e'.span = e.span := by
    have hplaced : (e'.retag Placed.span).span = e'.span := Expr.span_retag (f := Placed.span) (fun _ => rfl) e'
    have hsource : (e.retag id).span = e.span := Expr.span_retag (f := id) (fun _ => rfl) e
    rw [← hplaced, hretag, hsource]
  have hplace := (hstores.holds e' (by simp [e'.self_mem_parts])).spanOf?
  obtain ⟨node, hnode, hnodeSpan⟩ := Option.map_eq_some_iff.1 hplace
  rw [hid]
  exact ⟨node, hnode, hnodeSpan.trans hspan⟩

/-- Storing more expressions leaves those that are stored in place. -/
theorem extends_internAll_addExprTree (es : List SourceExpr) (s : Store) :
    Extends s (internAll addExprTree s es).2 := by
  obtain ⟨_, -, hstores, -⟩ := addExprTrees_spec es s
  rw [addExprTrees_eq] at hstores
  exact hstores.extends_

theorem extends_addExprTree (e : SourceExpr) (s : Store) : Extends s (s.addExprTree e).2 := by
  obtain ⟨_, -, hstores, -⟩ := addExprTree_spec e s
  exact hstores.extends_

end Store

/-! ### Lists of items -/

namespace Mirrors

variable {lexed : Lexed} {source : String} {ts : List Token} {s : Store}

/-- What the parser on token lists does not read is not next. -/
theorem next?_ne {kind : TokenKind} (h : ∀ text span rest, ts = ⟨kind, text, span⟩ :: rest → False) :
    next? ts ≠ some kind := by
  intro hnext
  obtain ⟨text, span, rest, hts⟩ := next?_eq_some.1 hnext
  exact h text span rest hts

theorem commaList {put : Store → α → β × Store} {item : Reading β}
    {item' : List Token → Step (α × List Token)} {gap : Reading Unit}
    {gap' : List Token → List Token}
    (hitem : ∀ ts s, Mirrors lexed ts s item (lexed.outcome put s (item' ts)))
    (hgap : ∀ ts s, Mirrors lexed ts s gap (.ok ((), gap' ts, s))) (fuel : Nat) :
    ∀ {found : List α} {ids : List β} {s₀ s : Store} (ts : List Token),
      Store.internAll put s₀ found.reverse = (ids.reverse, s) →
        Mirrors lexed ts s ((lexed.script source).commaList gap item fuel ids)
          (lexed.outcome (Store.internAll put) s₀
            (Parser.commaList gap' item' fuel found ts)) := by
  induction fuel with
  | zero => exact fun _ _ => unexpected _
  | succ fuel ih =>
    intro found ids s₀ s ts hfound
    have hitem := hitem ts s
    rw [Script.commaList, Parser.commaList]
    cases hx : item' ts with
    | error failure =>
      rw [hx] at hitem
      exact hitem.bind_error
    | ok r =>
      obtain ⟨x, rest⟩ := r
      rw [hx] at hitem
      refine hitem.bind ?_
      have hmore := Store.internAll_reverse_cons (x := x) hfound
      rw [ok_bind]
      dsimp only
      split
      · refine (eat?_some rfl).bind ((hgap _ _).bind (ih _ hmore))
      · rename_i hcomma
        refine (eat?_none (next?_ne hcomma)).bind ?_
        show Mirrors _ _ _ _ (Except.ok _)
        rw [hmore]
        exact pure _

end Mirrors

/-! ### Expressions -/

/-- What the parts of the parser into a store do with some amount of fuel. Those that read on after
an expression find it in the store. -/
structure Mirror (lexed : Lexed) (source : String) (fuel : Nat) : Prop where
  binary : ∀ m ts s, Mirrors lexed ts s ((lexed.script source).binary fuel m)
    (lexed.outcome Store.addExprTree s (binary fuel m ts))
  climb : ∀ m {left id ts s₀ s}, s₀.addExprTree left = (id, s) →
    Mirrors lexed ts s ((lexed.script source).climb fuel m id)
      (lexed.outcome Store.addExprTree s₀ (climb fuel m left ts))
  unary : ∀ ts s, Mirrors lexed ts s ((lexed.script source).unary fuel)
    (lexed.outcome Store.addExprTree s (unary fuel ts))
  operand : ∀ ts s, Mirrors lexed ts s ((lexed.script source).operand fuel)
    (lexed.outcome Store.addExprTree s (operand fuel ts))
  calls : ∀ {callee id ts s₀ s}, s₀.addExprTree callee = (id, s) →
    Mirrors lexed ts s ((lexed.script source).calls fuel id)
      (lexed.outcome Store.addExprTree s₀ (calls fuel callee ts))
  args : ∀ {found ids ts s₀ s}, Store.internAll Store.addExprTree s₀ found.reverse
      = (ids.reverse, s) →
    Mirrors lexed ts s ((lexed.script source).args fuel ids)
      (lexed.outcome (Store.internAll Store.addExprTree) s₀ (args fuel found ts))
  primary : ∀ ts s, Mirrors lexed ts s ((lexed.script source).primary fuel)
    (lexed.outcome Store.addExprTree s (primary fuel ts))

namespace Mirror

variable {lexed : Lexed} {source : String} {fuel : Nat}

theorem zero : Mirror lexed source 0 where
  binary _ _ _ := by
    rw [Script.binary, Parser.binary]
    exact .unexpected _
  climb _ _ _ _ _ _ _ := by
    rw [Script.climb, Parser.climb]
    exact .unexpected _
  unary _ _ := by
    rw [Script.unary, Parser.unary]
    exact .unexpected _
  operand _ _ := by
    rw [Script.operand, Parser.operand]
    exact .unexpected _
  calls _ := by
    rw [Script.calls, Parser.calls]
    exact .unexpected _
  args _ := by
    rw [Script.args, Parser.args]
    exact .unexpected _
  primary _ _ := by
    rw [Script.primary, Parser.primary]
    exact .unexpected _

variable (h : Mirror lexed source fuel)
include h

theorem binary_succ (m : Nat) (ts : List Token) (s : Store) :
    Mirrors lexed ts s ((lexed.script source).binary (fuel + 1) m)
      (lexed.outcome Store.addExprTree s (Parser.binary (fuel + 1) m ts)) := by
  have hleft := h.unary ts s
  rw [Script.binary, Parser.binary]
  cases hu : Parser.unary fuel ts with
  | error failure =>
    rw [hu] at hleft
    exact hleft.bind_error
  | ok r =>
    rw [hu] at hleft
    exact hleft.bind (h.climb m rfl)

theorem climb_succ (m : Nat) {left : SourceExpr} {id : ExprId} {ts : List Token} {s₀ s : Store}
    (hleft : s₀.addExprTree left = (id, s)) :
    Mirrors lexed ts s ((lexed.script source).climb (fuel + 1) m id)
      (lexed.outcome Store.addExprTree s₀ (Parser.climb (fuel + 1) m left ts)) := by
  have stop : Mirrors lexed ts s (pure id) (lexed.outcome Store.addExprTree s₀ (.ok (left, ts))) := by
    rw [Lexed.outcome, hleft]
    exact .pure id
  rw [Script.climb]
  refine Mirrors.current.bind ?_
  rw [Mirrors.next_kind?]
  split
  · rename_i op hop
    obtain ⟨text, span, rest, rfl⟩ := next?_eq_some.1 hop
    rw [Parser.climb]
    split
    · exact stop
    · refine Mirrors.advance.bind ((Mirrors.skipNewlines rest s).bind ?_)
      have hright := h.binary (op.precedence + 1) (Parser.skipNewlines rest) s
      cases hb : Parser.binary fuel (op.precedence + 1) (Parser.skipNewlines rest) with
      | error failure =>
        rw [hb] at hright
        exact hright.bind_error
      | ok r =>
        obtain ⟨right, rest⟩ := r
        rw [hb] at hright
        obtain ⟨node, hnode, hspan⟩ := Store.exists_node_addExprTree s₀ left
        rw [hleft] at hnode
        obtain ⟨node', hnode', hspan'⟩ := Store.exists_node_addExprTree s right
        have hkept := (Store.extends_addExprTree right s).exprs hnode
        refine hright.bind ((Mirrors.spanOf hkept).bind ((Mirrors.spanOf hnode').bind ?_))
        refine (Mirrors.build (.addExpr rfl _)).bind (h.climb m ?_)
        rw [Store.addExprTree, hleft, hspan, hspan']
  · rename_i hne
    rw [Parser.climb]
    · exact stop
    · rintro op text span rest rfl
      exact hne op rfl

theorem unary_succ (ts : List Token) (s : Store) :
    Mirrors lexed ts s ((lexed.script source).unary (fuel + 1))
      (lexed.outcome Store.addExprTree s (Parser.unary (fuel + 1) ts)) := by
  rw [Script.unary]
  by_cases hsub : next? ts = some (.op .sub)
  · obtain ⟨text, span, rest, rfl⟩ := next?_eq_some.1 hsub
    rw [Parser.unary]
    refine (Mirrors.eat?_some rfl).bind ?_
    have hoperand := h.unary rest s
    cases hu : Parser.unary fuel rest with
    | error failure =>
      rw [hu] at hoperand
      exact hoperand.bind_error
    | ok r =>
      obtain ⟨operand, rest⟩ := r
      rw [hu] at hoperand
      obtain ⟨node, hnode, hspan⟩ := Store.exists_node_addExprTree s operand
      refine hoperand.bind ((Mirrors.spanOf hnode).bind ?_)
      rw [hspan]
      exact .build (.addExpr rfl _)
  · rw [Parser.unary]
    · exact (Mirrors.eat?_none hsub).bind (h.operand ts s)
    · rintro text span rest rfl
      exact hsub rfl

theorem operand_succ (ts : List Token) (s : Store) :
    Mirrors lexed ts s ((lexed.script source).operand (fuel + 1))
      (lexed.outcome Store.addExprTree s (Parser.operand (fuel + 1) ts)) := by
  have hcallee := h.primary ts s
  rw [Script.operand, Parser.operand]
  cases hp : Parser.primary fuel ts with
  | error failure =>
    rw [hp] at hcallee
    exact hcallee.bind_error
  | ok r =>
    rw [hp] at hcallee
    exact hcallee.bind (h.calls rfl)

theorem calls_succ {callee : SourceExpr} {id : ExprId} {ts : List Token} {s₀ s : Store}
    (hcallee : s₀.addExprTree callee = (id, s)) :
    Mirrors lexed ts s ((lexed.script source).calls (fuel + 1) id)
      (lexed.outcome Store.addExprTree s₀ (Parser.calls (fuel + 1) callee ts)) := by
  rw [Script.calls]
  by_cases hparen : next? ts = some .leftParen
  · obtain ⟨text, span, rest, rfl⟩ := next?_eq_some.1 hparen
    rw [Parser.calls]
    refine (Mirrors.eat?_some rfl).bind ((Mirrors.skipNewlines rest s).bind ?_)
    have hargs : Mirrors lexed (Parser.skipNewlines rest) s ((lexed.script source).args fuel [])
        (lexed.outcome (Store.internAll Store.addExprTree) s
          (Parser.args fuel [] (Parser.skipNewlines rest))) := h.args rfl
    cases ha : Parser.args fuel [] (Parser.skipNewlines rest) with
    | error failure =>
      rw [ha] at hargs
      exact hargs.bind_error
    | ok r =>
      obtain ⟨args, rest⟩ := r
      rw [ha] at hargs
      refine hargs.bind ?_
      have hclose : Mirrors lexed rest _ ((lexed.script source).expect .rightParen) _ :=
        Mirrors.expect .rightParen rest (Store.internAll Store.addExprTree s args).2
      dsimp only
      cases hc : token .rightParen rest with
      | error failure =>
        rw [hc] at hclose
        exact hclose.bind_error
      | ok r =>
        obtain ⟨close, rest⟩ := r
        rw [hc] at hclose
        obtain ⟨node, hnode, hspan⟩ := Store.exists_node_addExprTree s₀ callee
        rw [hcallee] at hnode
        have hkept := (Store.extends_internAll_addExprTree args s).exprs hnode
        refine hclose.bind ((Mirrors.spanOf hkept).bind ?_)
        have hlength := Store.length_internAll Store.addExprTree args s
        rw [hspan]
        dsimp only
        by_cases hshort : args.length ≤ maxItems
        · rw [Parser.checkLength, if_pos hshort]
          rw [← hlength] at hshort
          have hrequire : Session.requireExpr (.call id (Store.internAll Store.addExprTree s args).1)
              = .ok () := if_pos hshort
          refine (Mirrors.checkLength hshort _).bind ?_
          refine (Mirrors.build (.addExpr hrequire _)).bind (h.calls ?_)
          rw [Store.addExprTree, hcallee]
          dsimp only
          rw [Store.addExprTrees_eq]
          rfl
        · rw [Parser.checkLength, if_neg hshort]
          rw [← hlength] at hshort
          exact (Mirrors.checkLength_error hshort _).bind_error
  · rw [Parser.calls]
    · refine (Mirrors.eat?_none hparen).bind ?_
      rw [Lexed.outcome, hcallee]
      exact .pure id
    · rintro text span rest rfl
      exact hparen rfl

theorem args_succ {found : List SourceExpr} {ids : List ExprId} {ts : List Token} {s₀ s : Store}
    (hfound : Store.internAll Store.addExprTree s₀ found.reverse = (ids.reverse, s)) :
    Mirrors lexed ts s ((lexed.script source).args (fuel + 1) ids)
      (lexed.outcome (Store.internAll Store.addExprTree) s₀
        (Parser.args (fuel + 1) found ts)) := by
  rw [Script.args, Parser.args]
  refine Mirrors.current.bind ?_
  rw [Mirrors.next_kind?]
  by_cases hparen : next? ts = some .rightParen
  · rw [if_pos hparen, if_pos hparen, Lexed.outcome, hfound]
    exact .pure _
  · rw [if_neg hparen, if_neg hparen]
    have harg := h.binary 0 ts s
    cases hb : Parser.binary fuel 0 ts with
    | error failure =>
      rw [hb] at harg
      exact harg.bind_error
    | ok r =>
      obtain ⟨arg, rest⟩ := r
      rw [hb] at harg
      refine harg.bind ((Mirrors.skipNewlines rest _).bind ?_)
      have hmore := Store.internAll_reverse_cons (x := arg) hfound
      dsimp only
      generalize Parser.skipNewlines rest = rest
      split
      · exact (Mirrors.eat?_some rfl).bind ((Mirrors.skipNewlines _ _).bind (h.args hmore))
      · rename_i hcomma
        refine (Mirrors.eat?_none (Mirrors.next?_ne hcomma)).bind ?_
        rw [Lexed.outcome, hmore]
        exact .pure _

theorem primary_succ (texts : ∀ t ∈ lexed.tokens, t.span.Selects source t.text) (ts : List Token)
    (s : Store) : Mirrors lexed ts s ((lexed.script source).primary (fuel + 1))
      (lexed.outcome Store.addExprTree s (Parser.primary (fuel + 1) ts)) := by
  refine Mirrors.of_suffix fun hts => ?_
  rw [Script.primary]
  refine Mirrors.current.bind ?_
  rw [Mirrors.next_kind?]
  split
  · rename_i kind hkind
    obtain ⟨text, span, rest, rfl⟩ := next?_eq_some.1 hkind
    have hmem := hts.mem List.mem_cons_self
    rw [Parser.primary]
    exact (Mirrors.text texts hmem).bind (Mirrors.advance.bind (.build (.addExpr rfl _)))
  · rename_i hkind
    obtain ⟨text, span, rest, rfl⟩ := next?_eq_some.1 hkind
    have hmem := hts.mem List.mem_cons_self
    rw [Parser.primary]
    exact (Mirrors.text texts hmem).bind (Mirrors.advance.bind (.build (.addExpr rfl _)))
  · rename_i hkind
    obtain ⟨text, span, rest, rfl⟩ := next?_eq_some.1 hkind
    rw [Parser.primary]
    refine Mirrors.advance.bind ?_
    have hinner := h.binary 0 rest s
    cases hb : Parser.binary fuel 0 rest with
    | error failure =>
      rw [hb] at hinner
      exact hinner.bind_error
    | ok r =>
      obtain ⟨inner, rest⟩ := r
      rw [hb] at hinner
      refine hinner.bind ?_
      have hclose : Mirrors lexed rest _ ((lexed.script source).expect .rightParen) _ :=
        Mirrors.expect .rightParen rest (s.addExprTree inner).2
      dsimp only
      cases hc : token .rightParen rest with
      | error failure =>
        rw [hc] at hclose
        exact hclose.bind_error
      | ok r =>
        rw [hc] at hclose
        exact hclose.bind (.build (.addExpr rfl _))
  · rename_i hliteral hident hparen
    rw [Parser.primary]
    · exact .unexpected _
    · rintro kind text span rest rfl
      exact hliteral kind rfl
    · rintro text span rest rfl
      exact hident rfl
    · rintro text span rest rfl
      exact hparen rfl

end Mirror

/-- The parser into a store reads expressions as the parser on token lists does. -/
theorem mirror {lexed : Lexed} {source : String}
    (texts : ∀ t ∈ lexed.tokens, t.span.Selects source t.text) (fuel : Nat) :
    Mirror lexed source fuel := by
  induction fuel with
  | zero => exact .zero
  | succ fuel h =>
    exact ⟨h.binary_succ, fun m _ _ _ _ _ => h.climb_succ m, h.unary_succ, h.operand_succ,
      h.calls_succ, h.args_succ, h.primary_succ texts⟩

end Recast
