import Recast.Proofs.Printing.Writes

/-!
# Printed code reads back

The text of a printable tree is read as a tree that differs from it in tags and places only.
-/

namespace Recast

open Lexer (Spells)
open Recast.Parser (CommaList NoGap Newlines Reads ReadsArgs ReadsExprs ReadsFunction ReadsName
  ReadsParam ReadsParams ReadsResults ReadsStmt ReadsType ReadsType?)

variable {ε α : Type}

/-! ### Expressions -/

/-- The tokens are read as the expression where operators have to bind at least as tightly as `m`.
-/
def Rereads (m : Nat) (e : Expr ε α) (ts : List Token) : Prop :=
  ∃ e', Reads m ts e' ∧ e'.bare = e.bare

theorem Expr.listText_append (es : List (Expr ε α)) : ∀ written separator,
    listText written separator es = written ++ listText "" separator es := by
  induction es with
  | nil => simp [listText]
  | cons e es ih =>
    intro written separator
    rw [listText, listText, ih, ih (_ ++ _)]
    simp [String.append_assoc]

theorem Expr.commaText_eq (es : List (Expr ε α)) :
    commaText es = commaSeparated (es.map text) := by
  have hcons (es : List (Expr ε α)) : ∀ e : Expr ε α,
      listText "" "" (e :: es) = commaSeparated ((e :: es).map text) := by
    induction es with
    | nil =>
      intro e
      simp [listText, commaSeparated]
    | cons e' es ih =>
      intro e
      have ih := ih e'
      rw [listText, listText_append] at ih
      rw [listText, listText, listText_append]
      rw [commaSeparated, List.map_cons, List.map_cons, String.intercalate_cons_cons,
        ← List.map_cons, ← commaSeparated, ← ih]
      simp [String.append_assoc]
  cases es with
  | nil => rfl
  | cons e es => exact hcons es e

theorem Parser.ReadsArgs.of_commaList {ts : List Token} {es : List SourceExpr}
    (h : CommaList NoGap (Reads 0) ts es) : ReadsArgs ts es := by
  induction h with
  | @one ts e he =>
    have hlast : ReadsArgs (ts ++ []) [e] := .last he nofun
    simpa using hlast
  | @cons ts _ us text span e es he hb _ ih =>
    obtain rfl := hb
    have hcons : ReadsArgs (ts ++ [] ++ ⟨.comma, text, span⟩ :: [] ++ us) (e :: es) :=
      .cons he nofun nofun ih
    simpa using hcons

theorem Parser.CommaList.mono {β : Type} {gap gap' : List Token → Prop}
    {item : List Token → β → Prop} (hgap : ∀ ts, gap ts → gap' ts) {ts : List Token} {xs : List β}
    (h : CommaList gap item ts xs) : CommaList gap' item ts xs := by
  induction h with
  | one hx => exact .one hx
  | cons hx hb _ ih => exact .cons hx (hgap _ hb) ih

/-- Expressions with commas between are written one by one. -/
theorem Expr.writes_commaText {es : List (Expr ε α)} (hne : es ≠ [])
    (h : ∀ e ∈ es, Writes e.text (Rereads 0 e)) : Writes (commaText es) fun ts =>
      ∃ es' : List SourceExpr, CommaList NoGap (Reads 0) ts es' ∧ es'.map bare = es.map bare := by
  rw [commaText_eq]
  exact .commaSeparated hne h

/-- The text of a printable expression is read as that expression. -/
theorem Expr.Printable.writes {m : Nat} {e : Expr ε α} (h : e.Printable m) :
    Writes e.text (Rereads m e) := by
  induction e generalizing m with
  | hole => exact h.elim
  | literal _ kind lexeme =>
    refine (Writes.token h nofun).mono ?_
    rintro _ ⟨span, rfl⟩
    exact ⟨.literal span kind lexeme, .literal, rfl⟩
  | name _ text =>
    refine (Writes.token h nofun).mono ?_
    rintro _ ⟨span, rfl⟩
    exact ⟨.name span text, .name, rfl⟩
  | paren _ inner ih =>
    refine ((Closes.leftParen.then (ih h)).thenMark Closes.rightParen rfl).writes.mono ?_
    rintro _ ⟨_, _, rfl, ⟨_, ts, rfl, ⟨start, rfl⟩, inner', hr, hb⟩, ⟨stop, rfl⟩⟩
    refine ⟨.paren (start.merge stop) inner', .paren hr, ?_⟩
    exact congrArg (Expr.paren ()) hb
  | neg _ operand ih =>
    refine (Closes.minus.then (ih h.2)).mono ?_
    rintro _ ⟨_, ts, rfl, ⟨span, rfl⟩, operand', hr, hb⟩
    exact ⟨.neg (span.merge operand'.span) operand', .neg h.1 hr, congrArg (Expr.neg ()) hb⟩
  | binary _ op left right ihl ihr =>
    refine ((((ihl h.2.1).space.then (Writes.operator op)).space.then (ihr h.2.2))).mono ?_
    rintro _ ⟨_, rs, rfl, ⟨ls, _, rfl, ⟨left', hl, hlb⟩, ⟨span, rfl⟩⟩, right', hr, hrb⟩
    refine ⟨.binary (left'.span.merge right'.span) op left' right', ?_,
      congr (congrArg (Expr.binary () op) hlb) hrb⟩
    have hbinary : Reads m (ls ++ ⟨.op op, op.symbol, span⟩ :: [] ++ rs)
        (.binary (left'.span.merge right'.span) op left' right') := .binary h.1 hl nofun hr
    simpa using hbinary
  | call _ callee args ihc iha =>
    have hargs := allPrintable_iff.1 h.2.2
    have hlist : Writes (commaText args) fun ts => ∃ args' : List SourceExpr,
        ReadsArgs ts args' ∧ args'.map bare = args.map bare := by
      by_cases hne : args = []
      · subst hne
        refine Closes.empty.writes.mono ?_
        rintro _ rfl
        exact ⟨[], .none, rfl⟩
      · refine (writes_commaText hne fun e he => iha e he (hargs e he)).mono ?_
        rintro ts ⟨args', hr, hb⟩
        exact ⟨args', .of_commaList hr, hb⟩
    rw [text, listText_append]
    refine ((((ihc h.1).thenMark Closes.leftParen rfl).then hlist).thenMark Closes.rightParen rfl).writes.mono
      ?_
    rintro _ ⟨_, _, rfl, ⟨_, as, rfl, ⟨cs, _, rfl, ⟨callee', hc, hcb⟩, ⟨start, rfl⟩⟩, args', ha, hab⟩,
      ⟨stop, rfl⟩⟩
    have hlen : args'.length ≤ maxItems := by
      have := congrArg List.length hab
      simp only [List.length_map] at this
      exact this ▸ h.2.1
    refine ⟨.call (callee'.span.merge stop) callee' args', ?_, ?_⟩
    · have hcall : Reads m (cs ++ ⟨.leftParen, "(", start⟩ :: [] ++ as ++ [⟨.rightParen, ")", stop⟩])
          (.call (callee'.span.merge stop) callee' args') := .call hc nofun ha hlen
      simpa using hcall
    · rw [bare, bare, retag, retag, retagAll_eq, retagAll_eq]
      exact congr (congrArg (Expr.call ()) hcb) hab

/-! ### Statements -/

/-- The tokens are read as the statement. -/
def RereadsStmt (s : Stmt ε α) (ts : List Token) : Prop :=
  ∃ s', ReadsStmt ts s' ∧ s'.bare = s.bare

/-- The tokens are read as the expressions. -/
def RereadsList (es : List (Expr ε α)) (ts : List Token) : Prop :=
  ∃ es' : List SourceExpr, ReadsExprs ts es' ∧ es'.map Expr.bare = es.map Expr.bare

/-- The tokens are an equals sign and then read as the expressions. -/
def RereadsValues (es : List (Expr ε α)) : List Token → Prop :=
  Then (IsToken .assign "=") (RereadsList es)

theorem PrintableList.writes {es : List (Expr ε α)} (h : PrintableList es) (hne : es ≠ []) :
    Writes (Expr.commaText es) (RereadsList es) := by
  refine (Expr.writes_commaText hne fun e he => (h.printable e he).writes).mono ?_
  rintro ts ⟨es', hr, hb⟩
  have hlen : es'.length = es.length := by simpa using congrArg List.length hb
  exact ⟨es', ⟨hr.mono (by rintro _ rfl; nofun), hlen ▸ h.length⟩, hb⟩

/-- Values after an equals sign. -/
theorem PrintableList.writes_values {es : List (Expr ε α)} (h : PrintableList es) (hne : es ≠ []) :
    Writes (" = " ++ Expr.commaText es) (RereadsValues es) :=
  (Writes.assign.after_space.space).then (h.writes hne)

/-- Names with commas between. -/
theorem writes_names {names : List String} (hne : names ≠ []) (h : ∀ name ∈ names, IsName name) :
    Writes (commaSeparated names) fun ts =>
      ∃ names', CommaList NoGap ReadsName ts names' ∧ names'.map Token.text = names := by
  have hitem : ∀ name ∈ names, Writes (id name) fun ts =>
      ∃ t : Token, ReadsName ts t ∧ t.text = id name := by
    intro name hn
    refine (Writes.token (h name hn) nofun).mono ?_
    rintro _ ⟨span, rfl⟩
    exact ⟨_, ⟨rfl, rfl⟩, rfl⟩
  simpa using Writes.commaSeparated hne hitem

/-- The declared type of a declaration after its names. -/
theorem WritesBefore.thenType? {s : String} {P : List Token → Prop} (h : Writes s P)
    {type? : Option (TypeRef String)} : (∀ type ∈ type?, IsName type.name) →
      Writes (s ++ (match type? with | some type => " " ++ type.name | none => ""))
        (Then P fun ts => ∃ t? : Option (TypeRef String), ReadsType? ts t? ∧
          t?.map TypeRef.bare = type?.map TypeRef.bare) := by
  intro hn
  cases type? with
  | none =>
    simp only [String.append_empty]
    refine h.mono ?_
    exact fun ts hp => ⟨ts, [], by simp, hp, none, .none, rfl⟩
  | some type =>
    refine (h.thenMark ((Writes.token (hn type rfl) nofun).after_space) ?_).mono ?_
    · rw [String.toList_append]
      rfl
    · rintro _ ⟨us, _, rfl, hp, ⟨span, rfl⟩⟩
      exact ⟨us, _, rfl, hp, _, .some, rfl⟩

/-- The text of a printable statement is read as that statement. -/
theorem Stmt.Printable.writes {s : Stmt ε α} (h : s.Printable) : Writes s.text (RereadsStmt s) := by
  cases s with
  | hole => exact h.elim
  | var _ names type? values =>
    obtain ⟨⟨hne, hlen, hnames⟩, htype, hvalues, hlist⟩ := h
    have hvar : Writes "var" (IsToken .var "var") := .token ⟨_, _, rfl, rfl⟩ (by simp)
    have hhead := (hvar.space.then (writes_names hne hnames)).thenType? htype
    have hcount : ∀ {names' : List Token}, names'.map Token.text = names →
        names'.length ≤ maxItems := by
      rintro names' rfl
      simpa using hlen
    by_cases hv : values = []
    · subst hv
      cases type? with
      | none => exact absurd rfl (hvalues rfl)
      | some type =>
        simp only [Stmt.text, List.isEmpty_nil, if_true, String.append_empty]
        refine hhead.mono ?_
        rintro _ ⟨_, _, rfl, ⟨_, ns, rfl, ⟨start, rfl⟩, names', hns, hn⟩, t?, ht, hb⟩
        cases ht with
        | none => cases hb
        | @some text span =>
          have hdeclared : ReadsStmt (⟨.var, "var", start⟩ :: ns ++ [⟨.ident, text, span⟩])
              (.var (start.merge span) (names'.map Token.text) (some ⟨text, span⟩) []) :=
            .declared hns (hcount hn)
          refine ⟨_, hdeclared, ?_⟩
          rw [Stmt.bare, Stmt.bare, hn, hb]
          rfl
    · simp only [Stmt.text, List.isEmpty_eq_false_iff.2 hv, Bool.false_eq_true, if_false]
      refine (hhead.thenMark (hlist.writes_values hv) ?_).mono ?_
      · rw [String.toList_append]
        rfl
      · rintro _ ⟨_, _, rfl, ⟨_, ty, rfl, ⟨_, ns, rfl, ⟨start, rfl⟩, names', hns, hn⟩, t?, ht, hb⟩,
          ⟨_, vs, rfl, ⟨span, rfl⟩, values', hr, hvb⟩⟩
        refine ⟨.var (start.merge (Parser.lastSpan values')) (names'.map Token.text) t? values', ?_,
          ?_⟩
        · have hinitialized : ReadsStmt
              (⟨.var, "var", start⟩ :: ns ++ ty ++ ⟨.assign, "=", span⟩ :: vs)
              (.var (start.merge (Parser.lastSpan values')) (names'.map Token.text) t? values') :=
            .initialized hns (hcount hn) ht hr
          simpa using hinitialized
        · rw [Stmt.bare, Stmt.bare, hn, hb, hvb]
  | assign _ targets values =>
    obtain ⟨⟨hnt, ht⟩, hnv, hv⟩ := h
    rw [Stmt.text, String.append_assoc]
    refine ((ht.writes hnt).thenMark (hv.writes_values hnv) ?_).mono ?_
    · rw [String.toList_append]
      rfl
    · rintro _ ⟨ts, _, rfl, ⟨targets', htr, htb⟩, _, vs, rfl, ⟨span, rfl⟩, values', hvr, hvb⟩
      refine ⟨_, .assign htr hvr, ?_⟩
      rw [Stmt.bare, Stmt.bare, htb, hvb]
  | ret _ results =>
    have hret : Writes "return" (IsToken .ret "return") := .token ⟨_, _, rfl, rfl⟩ (by simp)
    by_cases hne : results = []
    · subst hne
      refine hret.mono ?_
      rintro _ ⟨span, rfl⟩
      exact ⟨.ret span [], .done, rfl⟩
    · simp only [Stmt.text, List.isEmpty_eq_false_iff.2 hne, Bool.false_eq_true, if_false]
      refine (hret.space.then (PrintableList.writes h hne)).mono ?_
      rintro _ ⟨_, ts, rfl, ⟨start, rfl⟩, results', hr, hb⟩
      refine ⟨.ret (start.merge (Parser.lastSpan results')) results', .ret hr, ?_⟩
      rw [Stmt.bare, Stmt.bare, hb]
  | expr _ e =>
    refine (Expr.Printable.writes h).mono ?_
    rintro ts ⟨e', hr, hb⟩
    refine ⟨_, .expr hr, ?_⟩
    rw [Stmt.bare, Stmt.bare, hb]

/-! ### Functions -/

theorem Param.writes {p : Param String} (hp : IsName p.name) (ht : IsName p.type.name) :
    Writes p.text fun ts => ∃ p', ReadsParam ts p' ∧ p'.bare = p.bare := by
  obtain ⟨name, type, variadic, span⟩ := p
  have hname := (Writes.token hp nofun).space
  have htype := Writes.token ht nofun
  cases variadic with
  | false =>
    rw [Param.text, if_neg nofun]
    refine ((hname.then Closes.empty).then htype).mono ?_
    rintro _ ⟨_, _, rfl, ⟨_, _, rfl, ⟨first, rfl⟩, rfl⟩, ⟨last, rfl⟩⟩
    exact ⟨_, .single, rfl⟩
  | true =>
    rw [Param.text, if_pos rfl]
    refine ((hname.then Closes.ellipsis).then htype).mono ?_
    rintro _ ⟨_, _, rfl, ⟨_, _, rfl, ⟨first, rfl⟩, ⟨dots, rfl⟩⟩, ⟨last, rfl⟩⟩
    exact ⟨_, .variadic, rfl⟩

theorem writes_params {ps : List (Param String)}
    (h : ∀ p ∈ ps, IsName p.name ∧ IsName p.type.name) :
    Writes (commaSeparated (ps.map Param.text)) fun ts =>
      ∃ ps', ReadsParams ts ps' ∧ ps'.map Param.bare = ps.map Param.bare := by
  by_cases hne : ps = []
  · subst hne
    refine Closes.empty.writes.mono ?_
    rintro _ rfl
    exact ⟨[], .none, rfl⟩
  · refine (Writes.commaSeparated hne fun p hp => Param.writes (h p hp).1 (h p hp).2).mono ?_
    rintro ts ⟨ps', hr, hb⟩
    exact ⟨ps', .some hr, hb⟩

theorem writes_results {rs : List (TypeRef String)} (h : ∀ t ∈ rs, IsName t.name) :
    Writes (resultsText rs) fun ts =>
      ∃ rs', ReadsResults ts rs' ∧ rs'.map TypeRef.bare = rs.map TypeRef.bare := by
  have hitem (t : TypeRef String) (ht : t ∈ rs) :
      Writes t.name fun ts => ∃ t', ReadsType ts t' ∧ t'.bare = t.bare := by
    refine (Writes.token (h t ht) nofun).mono ?_
    rintro _ ⟨span, rfl⟩
    exact ⟨_, .mk, rfl⟩
  unfold resultsText
  split
  · refine Closes.empty.writes.mono ?_
    rintro _ rfl
    exact ⟨[], .none, rfl⟩
  · rename_i t
    refine (hitem t (List.mem_singleton_self _)).after_space.mono ?_
    rintro _ ⟨t', ⟨⟩, hb⟩
    exact ⟨[_], .one, congrArg (fun t => [t]) hb⟩
  · rename_i hnil _
    have hopen := Closes.leftParen.after_space
    refine ((hopen.then (Writes.commaSeparated hnil hitem)).thenMark Closes.rightParen rfl).writes.mono ?_
    rintro _ ⟨_, _, rfl, ⟨_, ts, rfl, ⟨start, rfl⟩, rs', hr, hb⟩, ⟨stop, rfl⟩⟩
    exact ⟨rs', .many hr, hb⟩

/-- What the first line of a function says besides the name of the function, and where it starts. -/
structure Header where
  start : Span
  params : List (Param String)
  results : List (TypeRef String)

/-- The function with the first line and a body up to a closing brace. -/
def Header.function (h : Header) (name : String) (body : List SourceStmt) (close : Span) :
    SourceFunction :=
  ⟨h.start.merge close, name, h.params, h.results, body⟩

/-- The tokens are the first line of a function: with a block after them they make the function. -/
def ReadsHeader (name : String) (h : Header) (ts : List Token) : Prop :=
  (∃ first rest, ts = first :: rest ∧ first.span = h.start) ∧
    ∀ bs body close, Parser.ReadsBlock bs body close → body.length ≤ maxItems →
      ReadsFunction (ts ++ bs) (h.function name body close)

/-- The first line says what that of the function says. -/
def Header.Describes (h : Header) (f : Function ε α) : Prop :=
  h.params.map Param.bare = f.params.map Param.bare ∧
    h.results.map TypeRef.bare = f.results.map TypeRef.bare

/-- The first line of a printable function is read as that line. -/
theorem Function.Printable.writes {f : Function ε α} (h : f.Printable) :
    Closes f.header fun ts => ∃ h : Header, ReadsHeader f.name h ts ∧ h.Describes f := by
  have hfunc : Writes "func" (IsToken .func "func") := .token ⟨_, _, rfl, rfl⟩ (by simp)
  have hname := hfunc.space.then (Writes.token h.name nofun)
  have hparams := (hname.thenMark Closes.leftParen rfl).then (writes_params h.params.2)
  have hresults := (hparams.thenMark Closes.rightParen rfl).then (writes_results h.results.2)
  refine (hresults.thenMark Closes.leftBrace.after_space rfl).mono ?_
  rintro _ ⟨_, _, rfl, ⟨_, rs, rfl, ⟨_, _, rfl, ⟨_, ps, rfl, ⟨_, _, rfl, ⟨_, _, rfl, ⟨start, rfl⟩,
    ⟨span, rfl⟩⟩, ⟨opening, rfl⟩⟩, params, hps, hpb⟩, ⟨close, rfl⟩⟩, results, hrs, hrb⟩,
    ⟨brace, rfl⟩⟩
  have hplen : params.length = f.params.length := by simpa using congrArg List.length hpb
  have hrlen : results.length = f.results.length := by simpa using congrArg List.length hrb
  refine ⟨⟨start, params, results⟩, ⟨⟨_, _, rfl, rfl⟩, fun bs body stop hb hl => ?_⟩, hpb, hrb⟩
  have hfunction : ReadsFunction
      (⟨.func, "func", start⟩ :: ⟨.ident, f.name, span⟩ :: ⟨.leftParen, "(", opening⟩ :: ps
        ++ ⟨.rightParen, ")", close⟩ :: rs ++ ⟨.leftBrace, "\x7b", brace⟩ :: bs)
      ⟨start.merge stop, f.name, params, results, body⟩ :=
    .mk hps (hplen ▸ h.params.1) hrs (hrlen ▸ h.results.1) hb hl
  simpa [Header.function] using hfunction

end Recast
