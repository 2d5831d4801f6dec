import Recast.Proofs.Guard.ParseExpr

/-!
# Parsing programs into a store

The parser into a store puts statements, functions and trivia there one by one, as they are put there
when the whole text has been read.
-/

namespace Recast

open Recast.Parser

variable {α β γ : Type}

namespace Store

/-! ### Interning once more -/

/-- A string that has a name keeps it, and the store does not change. -/
theorem intern_of_string? {s : Store} {n : Name} {text : String} (h : s.string? n = some text) :
    s.intern text = (n, s) := by
  rw [intern, Interner.intern_of_get? (Interner.get?_eq_some_iff.2 h)]

theorem internAll_of_string? {s : Store} {ns : List Name} : ∀ {names : List String},
    ns.map s.string? = names.map some → internAll intern s names = (ns, s) := by
  induction ns with
  | nil =>
    rintro (_ | ⟨_, _⟩) h
    · rfl
    · cases h
  | cons n ns ih =>
    rintro (_ | ⟨name, names⟩) h
    · cases h
    · rw [List.map_cons, List.map_cons, List.cons.injEq] at h
      rw [internAll_cons, intern_of_string? h.1, ih h.2]

theorem internType?_of_type? {s : Store} {t? : Option (TypeRef Name)}
    {type? : Option (TypeRef String)} (h : t?.map s.type? = type?.map some) :
    s.internType? type? = (t?, s) := by
  cases type? with
  | none => cases t? with
    | none => rfl
    | some => cases h
  | some type => cases t? with
    | none => cases h
    | some t =>
      obtain ⟨text, ht, rfl⟩ := Option.map_eq_some_iff.1 (Option.some.inj h)
      rw [internType?, internType, intern_of_string? ht]

/-- The list of some values, for which nothing is stored if there are none. -/
def addValues (s : Store) (ids : List ExprId) : Slice ExprId × Store :=
  if ids.isEmpty then (.empty, s) else s.addExprList ids

/-- The names and the type of a declaration are interned before its values are stored. -/
theorem addStmtTree_var (s : Store) (span : Span) (names : List String)
    (type? : Option (TypeRef String)) (values : List SourceExpr) :
    let named := internAll intern s names
    let typed := named.2.internType? type?
    let stored := internAll addExprTree typed.2 values
    let listed := stored.2.addValues stored.1
    let declared := listed.2.addNameList named.1
    s.addStmtTree (.var span names type? values)
      = declared.2.pushStmt ⟨.var declared.1 typed.1 listed.1, span⟩ := by
  intro named typed stored listed declared
  obtain ⟨hnamed, hnames⟩ := internAll_spec adds_intern string?_intern (fun h => h.strings) names s
  obtain ⟨htyped, htype⟩ := internType?_spec named.2 type?
  have hstored : Extends typed.2 stored.2 := extends_internAll_addExprTree values typed.2
  have hnames' : named.1.map stored.2.string? = names.map some :=
    map_some_mono (htyped.extends_.trans hstored).strings hnames
  have htype' : typed.1.map stored.2.type? = type?.map some := hstored.map_type? htype
  have hagain : internAll intern stored.2 names = (named.1, stored.2) :=
    internAll_of_string? hnames'
  have hagain' : stored.2.internType? type? = (typed.1, stored.2) := internType?_of_type? htype'
  rw [addStmtTree]
  dsimp only
  rw [addExprTrees_eq]
  show (stored.2.addStmt (.var names type? stored.1) span) = _
  rw [addStmt, internStmt]
  dsimp only
  rw [hagain]
  dsimp only
  rw [hagain']
  rfl

/-- The last of some expressions that were put into a store has its node there. -/
theorem exists_node_getLast? (s : Store) {es : List SourceExpr} (h : es ≠ []) : ∃ id node,
    (internAll addExprTree s es).1.getLast? = some id ∧
      (internAll addExprTree s es).2.exprs[id]? = some node ∧
        es.getLast?.map Expr.span = some node.span := by
  obtain ⟨init, e, rfl⟩ := (List.eq_nil_or_concat es).resolve_left h
  obtain ⟨node, hnode, hspan⟩ := exists_node_addExprTree (internAll addExprTree s init).2 e
  rw [List.concat_eq_append, internAll_append, internAll_cons]
  exact ⟨_, node, List.getLast?_concat, hnode, by simp [hspan]⟩

/-- Stores a list of expressions; where the last one stands goes along. -/
def addExprs (s : Store) (r : List SourceExpr × Span) : (Slice ExprId × Span) × Store :=
  let (ids, s) := internAll addExprTree s r.1
  let (list, s) := s.addExprList ids
  ((list, r.2), s)

theorem addExprs_eq (s : Store) {values : List SourceExpr} (h : values ≠ []) (stop : Span) :
    let stored := internAll addExprTree s values
    let listed := stored.2.addValues stored.1
    s.addExprs (values, stop) = ((listed.1, stop), listed.2) := by
  intro stored listed
  have hne : stored.1 ≠ [] := by
    rw [← List.length_pos_iff, length_internAll]
    exact List.length_pos_iff.2 h
  have hlisted : listed = stored.2.addExprList stored.1 := if_neg (by simpa using hne)
  rw [hlisted]
  rfl

theorem addStmtTree_ret (s : Store) (span : Span) (results : List SourceExpr) :
    let stored := internAll addExprTree s results
    let listed := stored.2.addValues stored.1
    s.addStmtTree (.ret span results) = listed.2.pushStmt ⟨.ret listed.1, span⟩ := by
  intro stored listed
  rw [addStmtTree]
  dsimp only
  rw [addExprTrees_eq]
  rfl

theorem addStmtTree_assign (s : Store) (span stop stop' : Span) (targets values : List SourceExpr) :
    let left := s.addExprs (targets, stop)
    let right := left.2.addExprs (values, stop')
    s.addStmtTree (.assign span targets values)
      = right.2.pushStmt ⟨.assign left.1.1 right.1.1, span⟩ := by
  intro left right
  rw [addStmtTree]
  dsimp only
  rw [addExprTrees_eq, addExprTrees_eq]
  rfl

theorem addStmtTree_expr (s : Store) (span : Span) (e : SourceExpr) :
    let stored := internAll addExprTree s [e]
    s.addStmtTree (.expr span e)
      = (stored.2.addExprList stored.1).2.pushStmt ⟨.expr (s.addExprTree e).1, span⟩ := rfl

/-- Stores the statements of a block; where it ends goes along. -/
def addBlock (s : Store) (r : List SourceStmt × Span) : (List StmtId × Span) × Store :=
  let (ids, s) := internAll addStmtTree s r.1
  ((ids, r.2), s)

end Store

namespace Mirrors

variable {lexed : Lexed} {source : String}

/-! ### Lists of expressions -/

/-- Reading a list of expressions starts at a token and finds one expression at least. -/
theorem exists_of_commaList {fuel : Nat} {ts rest : List Token} {items : List SourceExpr}
    (h : Parser.commaList Parser.skipNewlines (Parser.expr fuel) fuel [] ts = .ok (items, rest)) :
    (∃ t more, ts = t :: more) ∧ items ≠ [] := by
  obtain ⟨used, more, rfl, rfl, hm, -⟩ := commaList_sound newlines_gap
    (fun hb => by
      obtain ⟨used, e, hr, -⟩ := binary_sound (by decide) hb
      exact ⟨used, e, hr⟩) h
  obtain ⟨t, used, rfl, -⟩ := hm.starts _ Reads.starts
  exact ⟨⟨t, used ++ rest, rfl⟩, by simpa using hm.ne_nil⟩

variable (texts : ∀ t ∈ lexed.tokens, t.span.Selects source t.text)
include texts

theorem exprList (fuel : Nat) (ts : List Token) (s : Store) :
    Mirrors lexed ts s ((lexed.script source).exprList fuel)
      (lexed.outcome Store.addExprs s (Parser.exprList fuel ts)) := by
  rw [Script.exprList, Parser.exprList]
  refine current.bind ?_
  refine seq (commaList ((mirror texts fuel).binary 0) skipNewlines fuel ts rfl) ?_
  intro items rest hitems
  obtain ⟨⟨t, more, rfl⟩, hne⟩ := exists_of_commaList hitems
  refine seq_checkLength (Store.length_internAll ..) _ fun hshort => ?_
  obtain ⟨id, node, hlast, hnode, hspan⟩ := Store.exists_node_getLast? s hne
  rw [hlast, hspan]
  exact (spanOf hnode).bind ((build (.addExprList hshort)).bind (pure _))

/-! ### Statements -/

theorem ident (ts : List Token) (s : Store) :
    Mirrors lexed ts s (lexed.script source).ident
      (lexed.outcome (fun s t => s.intern t.text) s (token .ident ts)) := by
  refine of_suffix fun hts => ?_
  have hexpect : Mirrors lexed ts s ((lexed.script source).expect .ident) _ := expect .ident ts s
  rw [Script.ident]
  cases htoken : token .ident ts with
  | error failure =>
    rw [htoken] at hexpect
    exact hexpect.bind_error
  | ok r =>
    obtain ⟨t, rest⟩ := r
    rw [htoken] at hexpect
    obtain ⟨rfl, -⟩ := token_eq_ok.1 htoken
    exact hexpect.bind (name texts (hts.mem List.mem_cons_self))

theorem typeRef (ts : List Token) (s : Store) :
    Mirrors lexed ts s (lexed.script source).typeRef
      (lexed.outcome Store.internType s (Parser.typeRef ts)) := by
  refine of_suffix fun hts => ?_
  rw [Script.typeRef, Parser.typeRef.eq_def]
  split
  · exact (eat?_some rfl).bind ((name texts (hts.mem List.mem_cons_self)).bind (pure _))
  · rename_i hident
    exact (eat?_none (next?_ne hident)).bind (unexpected _)

theorem typeRef? (ts : List Token) (s : Store) :
    Mirrors lexed ts s (lexed.script source).typeRef?
      (.ok ((s.internType? (Parser.typeRef? ts).1).1, (Parser.typeRef? ts).2,
        (s.internType? (Parser.typeRef? ts).1).2)) := by
  rw [Script.typeRef?]
  refine current.bind ?_
  rw [next_kind?]
  by_cases hident : next? ts = some .ident
  · rw [if_pos hident]
    obtain ⟨text, span, rest, rfl⟩ := next?_eq_some.1 hident
    exact (typeRef texts _ s).map some
  · rw [if_neg hident, Parser.typeRef?]
    · exact pure none
    · rintro text span rest rfl
      exact hident rfl

theorem varValues {fuel : Nat} {type? : Option (TypeRef Name)} {text : String} {span : Span}
    (ts : List Token) (s : Store) : Mirrors lexed (⟨.assign, text, span⟩ :: ts) s
      ((lexed.script source).varValues fuel type?)
      (lexed.outcome Store.addExprs s (Parser.exprList fuel ts)) :=
  (eat?_some rfl).bind (exprList texts fuel ts s)

omit texts in
theorem varValues_some {fuel : Nat} {type : TypeRef Name} {ts : List Token} {s : Store}
    (h : next? ts ≠ some .assign) :
    Mirrors lexed ts s ((lexed.script source).varValues fuel (some type))
      (.ok ((.empty, type.span), ts, s)) := (eat?_none h).bind (pure _)

omit texts in
theorem varValues_none {fuel : Nat} {ts : List Token} {s : Store}
    (h : next? ts ≠ some .assign) :
    Mirrors lexed ts s ((lexed.script source).varValues fuel none)
      (.error ((Failure.expected .typeOrAssign ts).toError lexed.stop)) :=
  (eat?_none h).bind (unexpected _)

omit texts in
/-- A declaration is stored when its names, its type and its values are. -/
theorem addVar (ts : List Token) (s : Store) (span : Span) {names : List String}
    (type? : Option (TypeRef String)) (values : List SourceExpr)
    (hshort : names.length ≤ maxItems) :
    let named := Store.internAll Store.intern s names
    let typed := named.2.internType? type?
    let stored := Store.internAll Store.addExprTree typed.2 values
    let listed := stored.2.addValues stored.1
    Mirrors lexed ts listed.2
      (do
        let names ← Reading.build fun s => Guarded.addNameList s named.1
        Reading.build fun s => Guarded.pushStmt s ⟨.var names typed.1 listed.1, span⟩)
      (lexed.outcome Store.addStmtTree s (.ok (.var span names type? values, ts))) := by
  intro named typed stored listed
  have hlength : named.1.length = names.length := Store.length_internAll ..
  refine of_put (Store.addStmtTree_var s span names type? values) ?_
  exact (build (.addNameList (hlength ▸ hshort))).bind (build (.pushStmt _ _))

theorem varStmt (fuel : Nat) (ts : List Token) (s : Store) :
    Mirrors lexed ts s ((lexed.script source).varStmt fuel)
      (lexed.outcome Store.addStmtTree s (Parser.varStmt fuel ts)) := by
  rw [Script.varStmt, Parser.varStmt]
  refine seq (expect .var ts s) fun start ts hstart => ?_
  refine seq (commaList (ident texts) (fun ts s => pure ()) fuel ts rfl) fun names ts hnames => ?_
  rw [← Store.internAll_map (f := Store.intern) Token.text names s]
  refine seq_checkLength ?_ _ fun hshort => ?_
  · rw [Store.length_internAll, List.length_map]
  rw [Store.length_internAll] at hshort
  refine (typeRef? texts ts _).bind ?_
  rcases Parser.typeRef? ts with ⟨type?, ts⟩
  dsimp only
  by_cases hassign : next? ts = some .assign
  · obtain ⟨text, span, rest, rfl⟩ := next?_eq_some.1 hassign
    refine seq (varValues texts rest _) fun values ts hvalues => ?_
    obtain ⟨values, stop⟩ := values
    obtain ⟨used, -, ⟨hcomma, -⟩, -⟩ := exprList_sound hvalues
    rw [Store.addExprs_eq _ hcomma.ne_nil]
    exact addVar ts s _ type? values hshort
  · split
    · exact absurd rfl hassign
    · rename_i type _
      exact (varValues_some hassign).bind (addVar _ s _ (some type) [] hshort)
    · exact (varValues_none hassign).bind_error

theorem returnStmt (fuel : Nat) (ts : List Token) (s : Store) :
    Mirrors lexed ts s ((lexed.script source).returnStmt fuel)
      (lexed.outcome Store.addStmtTree s (Parser.returnStmt fuel ts)) := by
  rw [Script.returnStmt, Parser.returnStmt]
  refine seq (expect .ret ts s) fun start ts hstart => ?_
  refine atTerminator.bind ?_
  dsimp only
  split
  · have hspan : start.span.merge start.span = start.span := by simp [Span.merge]
    refine (pure (Slice.empty, start.span)).bind ?_
    dsimp only
    rw [show (Token.mark start).span = start.span from rfl, hspan]
    exact (build (.pushStmt _ _)).of_put (Store.addStmtTree_ret s start.span [])
  · refine seq (exprList texts fuel ts s) fun results ts hresults => ?_
    obtain ⟨results, stop⟩ := results
    obtain ⟨used, -, ⟨hcomma, -⟩, -⟩ := exprList_sound hresults
    rw [Store.addExprs_eq _ hcomma.ne_nil]
    exact (build (.pushStmt _ _)).of_put (Store.addStmtTree_ret s _ results)

theorem simpleStmt (fuel : Nat) (ts : List Token) (s : Store) :
    Mirrors lexed ts s ((lexed.script source).simpleStmt fuel)
      (lexed.outcome Store.addStmtTree s (Parser.simpleStmt fuel ts)) := by
  rw [Script.simpleStmt, Parser.simpleStmt]
  refine current.bind ?_
  dsimp only
  refine seq (exprList texts fuel ts s) fun targets rest htargets => ?_
  obtain ⟨targets, stop⟩ := targets
  obtain ⟨used, rfl, hreads, -⟩ := exprList_sound htargets
  obtain ⟨t, used, rfl, -⟩ := hreads.starts
  dsimp only
  by_cases hassign : next? rest = some .assign
  · obtain ⟨text, span, rest, rfl⟩ := next?_eq_some.1 hassign
    refine (eat?_some rfl).bind ?_
    refine seq (exprList texts fuel rest _) fun values rest hvalues => ?_
    obtain ⟨values, stop'⟩ := values
    exact (build (.pushStmt _ _)).of_put (Store.addStmtTree_assign s _ stop stop' targets values)
  · refine (eat?_none hassign).bind (get_bind ?_)
    have hlist : (s.addExprs (targets, stop)).2.exprLists.Keeps (s.addExprs (targets, stop)).1.1
        (Store.internAll Store.addExprTree s targets).1 := .add _ _
    refine (guarded hlist.read).bind ?_
    have hlength := Store.length_internAll Store.addExprTree targets s
    split
    · rename_i id hid
      rw [hid] at hlength
      obtain ⟨e, rfl⟩ := List.length_eq_one_iff.1 hlength.symm
      obtain rfl : (s.addExprTree e).1 = id := List.singleton_inj.1 hid
      split
      · exact absurd rfl hassign
      · rename_i e' _ he
        obtain rfl := List.singleton_inj.1 he
        exact (build (.pushStmt _ _)).of_put (Store.addStmtTree_expr s _ e)
      · rename_i hsingle
        exact absurd rfl (hsingle e)
    · rename_i hmany
      split
      · exact absurd rfl hassign
      · rename_i e _
        exact absurd rfl (hmany (s.addExprTree e).1)
      · exact unexpected _

theorem stmt (fuel : Nat) (ts : List Token) (s : Store) :
    Mirrors lexed ts s ((lexed.script source).stmt fuel)
      (lexed.outcome Store.addStmtTree s (Parser.stmt fuel ts)) := by
  rw [Script.stmt, Parser.stmt]
  refine current.bind ?_
  rw [next_kind?]
  cases next? ts with
  | none => exact simpleStmt texts fuel ts s
  | some kind =>
    cases kind with
    | var => exact varStmt texts fuel ts s
    | ret => exact returnStmt texts fuel ts s
    | _ => exact simpleStmt texts fuel ts s

/-- The statements of a block are stored one by one. -/
theorem stmts (fuel opening : Nat) {steps : Nat} :
    ∀ {found : List SourceStmt} {ids : List StmtId} {s₀ s : Store} (ts : List Token),
      Store.internAll Store.addStmtTree s₀ found.reverse = (ids.reverse, s) →
        Mirrors lexed ts s ((lexed.script source).stmts fuel opening steps ids)
          (lexed.outcome Store.addBlock s₀ (Parser.stmts fuel opening steps found ts)) := by
  induction steps with
  | zero => exact fun _ _ => unexpected _
  | succ steps ih =>
    intro found ids s₀ s ts hfound
    rw [Script.stmts, Parser.stmts]
    refine (skipTerminators ts s).bind ?_
    generalize Parser.skipTerminators ts = ts
    have hlength : ids.length = found.length := by
      have := Store.length_internAll Store.addStmtTree found.reverse s₀
      rwa [hfound, List.length_reverse, List.length_reverse] at this
    by_cases hclose : next? ts = some .rightBrace
    · obtain ⟨text, span, rest, rfl⟩ := next?_eq_some.1 hclose
      refine (eat?_some rfl).bind ?_
      refine seq_checkLength hlength _ fun _ => ?_
      refine of_put (r := ((ids.reverse, span), s)) ?_ (pure _)
      rw [Store.addBlock, hfound]
    · refine (eat?_none hclose).bind ?_
      dsimp only
      split
      · exact absurd rfl hclose
      · refine seq (stmt texts fuel ts s) fun st rest hst => ?_
        refine atTerminator.bind ?_
        dsimp only
        split
        · exact ih rest (Store.internAll_reverse_cons hfound)
        · exact unexpected _

/-! ### Functions -/

theorem param (ts : List Token) (s : Store) :
    Mirrors lexed ts s (lexed.script source).param
      (lexed.outcome Store.internParam s (Parser.param ts)) := by
  refine of_suffix fun hts => ?_
  rw [Script.param, Parser.param]
  have hexpect : Mirrors lexed ts s ((lexed.script source).expect .ident) _ := expect .ident ts s
  cases htoken : token .ident ts with
  | error failure =>
    rw [htoken] at hexpect
    exact hexpect.bind_error
  | ok r =>
    obtain ⟨t, rest⟩ := r
    rw [htoken] at hexpect
    obtain ⟨rfl, -⟩ := token_eq_ok.1 htoken
    refine hexpect.bind ((name texts (hts.mem List.mem_cons_self)).bind ?_)
    rw [ok_bind]
    dsimp only
    by_cases hdots : next? rest = some .ellipsis
    · obtain ⟨text, span, rest, rfl⟩ := next?_eq_some.1 hdots
      refine (eat?_some rfl).bind ?_
      exact seq (typeRef texts rest _) fun type rest _ => pure _
    · refine (eat?_none hdots).bind ?_
      split
      · exact absurd rfl hdots
      · exact seq (typeRef texts rest _) fun type rest _ => pure _

theorem params (fuel : Nat) (ts : List Token) (s : Store) :
    Mirrors lexed ts s ((lexed.script source).params fuel)
      (lexed.outcome (Store.internAll Store.internParam) s (Parser.params fuel ts)) := by
  rw [Script.params, Parser.params]
  refine current.bind ?_
  rw [next_kind?]
  split
  · exact pure []
  · exact commaList (param texts) (fun ts s => pure ()) fuel ts rfl

theorem results (fuel : Nat) (ts : List Token) (s : Store) :
    Mirrors lexed ts s ((lexed.script source).results fuel)
      (lexed.outcome (Store.internAll Store.internType) s (Parser.results fuel ts)) := by
  rw [Script.results, Parser.results.eq_def]
  refine current.bind ?_
  rw [next_kind?]
  by_cases hident : next? ts = some .ident
  · obtain ⟨text, span, rest, rfl⟩ := next?_eq_some.1 hident
    rw [if_pos hident]
    exact (typeRef texts _ s).map fun t => [t]
  · rw [if_neg hident]
    by_cases hparen : next? ts = some .leftParen
    · obtain ⟨text, span, rest, rfl⟩ := next?_eq_some.1 hparen
      refine (eat?_some rfl).bind ?_
      refine seq (commaList (typeRef texts) (fun ts s => pure ()) fuel rest rfl) fun types ts _ => ?_
      exact seq (expect .rightParen ts _) fun _ ts _ => pure _
    · refine (eat?_none hparen).bind ?_
      dsimp only
      split
      · exact absurd rfl hident
      · exact absurd rfl hparen
      · exact pure []

theorem function (fuel : Nat) (ts : List Token) (s : Store) :
    Mirrors lexed ts s ((lexed.script source).function fuel)
      (lexed.outcome (fun s f => ((), s.addFunctionTree f)) s (Parser.function fuel ts)) := by
  rw [Script.function, Parser.function]
  refine seq (expect .func ts s) fun start ts _ => ?_
  refine seq (ident texts ts s) fun name ts _ => ?_
  refine seq (expect .leftParen ts _) fun _ ts _ => ?_
  refine seq (params texts fuel ts _) fun params ts _ => ?_
  refine seq (expect .rightParen ts _) fun _ ts _ => ?_
  refine seq_checkLength (Store.length_internAll ..) _ fun hparams => ?_
  refine (build (.addParams hparams)).bind ?_
  refine seq (results texts fuel ts _) fun results ts _ => ?_
  refine seq_checkLength (Store.length_internAll ..) _ fun hresults => ?_
  refine (build (.addTypeList hresults)).bind ?_
  refine seq (expect .leftBrace ts _) fun opening ts _ => ?_
  refine seq (stmts texts fuel opening.span.start ts rfl) fun body ts hbody => ?_
  obtain ⟨body, stop⟩ := body
  obtain ⟨-, -, -, -, -, hshort⟩ := stmts_sound hbody
  rw [← Store.length_internAll Store.addStmtTree] at hshort
  refine (build (.addStmtList hshort)).bind ?_
  exact (build (.pushFunction _ _)).bind (pure ())

/-- Functions are stored one by one. -/
theorem functions (fuel : Nat) {steps : Nat} :
    ∀ {found : List SourceFunction} {s₀ s : Store} (ts : List Token),
      found.reverse.foldl Store.addFunctionTree s₀ = s →
        Mirrors lexed ts s ((lexed.script source).functions fuel steps)
          (lexed.outcome (fun s fs => ((), fs.foldl Store.addFunctionTree s)) s₀
            ((Parser.functions fuel steps found ts).map fun fs => (fs, []))) := by
  induction steps with
  | zero => exact fun _ _ => unexpected _
  | succ steps ih =>
    intro found s₀ s ts hfound
    rw [Script.functions, Parser.functions]
    refine (skipTerminators ts s).bind (current.bind ?_)
    rw [next_kind?]
    generalize Parser.skipTerminators ts = ts
    cases ts with
    | nil => exact (pure ()).of_put (r := ((), s)) (congrArg (Prod.mk ()) hfound)
    | cons t ts =>
      have hfunction := function texts fuel (t :: ts) s
      dsimp only
      cases hf : Parser.function fuel (t :: ts) with
      | error failure =>
        rw [hf] at hfunction
        exact hfunction.bind_error
      | ok r =>
        obtain ⟨f, rest⟩ := r
        rw [hf] at hfunction
        refine hfunction.bind (ih rest ?_)
        rw [List.reverse_cons, List.foldl_append, hfound]
        rfl

end Mirrors

/-! ### Trivia -/

namespace Mirrors

variable {lexed : Lexed} {source : String}

/-- The comments are stored one by one. -/
theorem comments {ts : List Token} {cs : List (Comment String)} :
    ∀ {s : Store}, (∀ c ∈ cs, c.span.Selects source c.text) →
      Mirrors lexed ts s
        ((cs.map fun c => (c.span, c.trailing)).mapM (lexed.script source).comment)
        (.ok ((Store.internAll Store.internComment s cs).1, ts,
          (Store.internAll Store.internComment s cs).2)) := by
  induction cs with
  | nil => exact fun _ => pure []
  | cons c cs ih =>
    intro s hcs
    obtain ⟨hc, hcs⟩ := List.forall_mem_cons.1 hcs
    rw [List.map_cons, List.mapM_cons, Store.internAll_cons]
    have hname : Mirrors lexed ts s ((lexed.script source).name ⟨none, c.span⟩)
        (.ok ((s.intern c.text).1, ts, (s.intern c.text).2)) :=
      (guarded hc.sourceText).bind (build (.intern s c.text))
    have hcomment : Mirrors lexed ts s ((lexed.script source).comment (c.span, c.trailing))
        (.ok ((s.internComment c).1, ts, (s.internComment c).2)) := hname.bind (pure _)
    exact hcomment.bind ((ih hcs).bind (pure _))

theorem attachTrivia (h : lexed.ReadFrom source) (ts : List Token) (s : Store) :
    Mirrors lexed ts s (lexed.script source).attachTrivia
      (.ok ((), ts, s.setTrivia lexed.trivia)) := by
  refine (comments h.comments).bind fun hts => ⟨.pure _, fun _ _ _ he => ?_⟩
  cases he
  exact hts

theorem file (h : lexed.ReadFrom source) (fuel : Nat) (s : Store) :
    Mirrors lexed lexed.tokens s ((lexed.script source).file fuel)
      (lexed.outcome (fun s fs => ((), (fs.foldl Store.addFunctionTree s).setTrivia lexed.trivia)) s
        ((Parser.functions fuel fuel [] lexed.tokens).map fun fs => (fs, []))) := by
  have hfunctions : Mirrors lexed lexed.tokens s ((lexed.script source).functions fuel fuel)
      (lexed.outcome (fun s fs => ((), fs.foldl Store.addFunctionTree s)) s
        ((Parser.functions fuel fuel [] lexed.tokens).map fun fs => (fs, []))) :=
    functions h.tokens fuel lexed.tokens rfl
  rw [Script.file]
  cases hf : Parser.functions fuel fuel [] lexed.tokens with
  | error failure =>
    rw [hf] at hfunctions
    exact hfunctions.bind_error
  | ok fs =>
    rw [hf] at hfunctions
    exact hfunctions.bind (attachTrivia h [] _)

end Mirrors

/-- What an error quotes of a text is a character of it. -/
theorem Yields.lex (source : String) : Yields (Guarded.lex source) (Recast.lex source) := by
  rw [Guarded.lex]
  split
  · rename_i pos c hlex
    rw [hlex]
    exact (selects_of_lex_error hlex).sourceText.bind (pure _)
  · exact pure _

/-- Reading a text into a store crashes at most for want of room, and gives the store of the tree
that reading it gives, or the same error. -/
theorem Yields.parse (source : String) :
    Yields (Guarded.parse source) ((parse source).map Store.ofProgram) := by
  rw [Guarded.parse, Recast.parse]
  refine (lex source).bind ?_
  cases hlex : Recast.lex source with
  | error e => exact pure _
  | ok lexed =>
    obtain ⟨hfile, -⟩ := Mirrors.file (readFrom_of_lex hlex) (enoughFuel lexed.tokens) .empty
      (List.suffix_refl _)
    rw [Lexed.cursor, Nat.sub_self] at hfile
    refine bind hfile ?_
    show Yields _ ((lexed.parse).map Store.ofProgram)
    rw [Lexed.parse]
    dsimp only
    cases Parser.functions (enoughFuel lexed.tokens) (enoughFuel lexed.tokens) [] lexed.tokens with
    | error failure => exact pure _
    | ok fs => exact pure _

end Recast
