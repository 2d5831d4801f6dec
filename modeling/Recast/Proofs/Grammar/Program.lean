import Recast.Proofs.Grammar.Expr

/-!
# The grammar of programs

What token lists are statements, blocks, functions and programs, and with what trees. As for
expressions, the parser finds these trees only (`functions_sound`), and finds them
(`functions_complete`).
-/

namespace Recast

namespace Parser

theorem bind_eq_ok {β γ : Type} {x : Step β} {f : β → Step γ} {r : γ} :
    (x >>= f) = .ok r ↔ ∃ a, x = .ok a ∧ f a = .ok r := by
  cases x with
  | error e => exact ⟨fun h => (nomatch h), fun ⟨a, h, _⟩ => (nomatch h)⟩
  | ok a => exact ⟨fun h => ⟨a, rfl, h⟩, fun ⟨b, h, h'⟩ => by cases h; exact h'⟩

theorem ok_bind {β γ : Type} (a : β) (f : β → Step γ) : ((.ok a : Step β) >>= f) = f a := rfl

/-! ### Lists -/

/-- The tokens are items with commas between, each comma followed by tokens of a gap. -/
inductive CommaList {β : Type} (gap : List Token → Prop) (item : List Token → β → Prop) :
    List Token → List β → Prop
  | one {ts : List Token} {x : β} : item ts x → CommaList gap item ts [x]
  | cons {ts between us : List Token} {text : String} {span : Span} {x : β} {xs : List β} :
      item ts x → gap between → CommaList gap item us xs →
        CommaList gap item (ts ++ ⟨.comma, text, span⟩ :: between ++ us) (x :: xs)

/-- The empty gap. -/
def NoGap (ts : List Token) : Prop := ts = []

section

variable {β : Type} {gap : List Token → List Token} {Gap : List Token → Prop}
  {item : List Token → Step (β × List Token)} {Item : List Token → β → Prop}

theorem commaList_sound (hgap : ∀ ts, ∃ between, Gap between ∧ ts = between ++ gap ts)
    (hitem : ∀ {ts x rest}, item ts = .ok (x, rest) → ∃ used, ts = used ++ rest ∧ Item used x) :
    ∀ {fuel found ts xs rest}, commaList gap item fuel found ts = .ok (xs, rest) →
      ∃ used more, ts = used ++ rest ∧ xs = found.reverse ++ more ∧ CommaList Gap Item used more ∧
        next? rest ≠ some .comma := by
  intro fuel
  induction fuel with
  | zero => exact fun h => nomatch h
  | succ fuel ih =>
    intro found ts xs rest hr
    obtain ⟨⟨x, ts'⟩, hi, h⟩ := bind_eq_ok.1 hr
    obtain ⟨used, rfl, hx⟩ := hitem hi
    dsimp only at h
    split at h
    · rename_i text span ts''
      obtain ⟨between, hb, e⟩ := hgap ts''
      obtain ⟨more, xs', e', rfl, hxs, hend⟩ := ih h
      refine ⟨used ++ ⟨.comma, text, span⟩ :: between ++ more, x :: xs', ?_, by simp,
        .cons hx hb hxs, hend⟩
      rw [e, e']
      simp
    · rename_i hne
      cases h
      refine ⟨used, [x], rfl, by simp, .one hx, fun hc => ?_⟩
      obtain ⟨text, span, rest', rfl⟩ := next?_eq_some.1 hc
      exact hne text span rest' rfl

theorem CommaList.starts (starts : TokenKind → Prop)
    (hstart : ∀ {ts x}, Item ts x → ∃ t rest, ts = t :: rest ∧ starts t.kind) {ts : List Token}
    {xs : List β} (h : CommaList Gap Item ts xs) : ∃ t rest, ts = t :: rest ∧ starts t.kind := by
  cases h with
  | one hx => exact hstart hx
  | cons hx =>
    obtain ⟨t, rest, rfl, ht⟩ := hstart hx
    exact ⟨t, _, rfl, ht⟩

theorem commaList_complete (starts : TokenKind → Prop) (ends : List Token → Prop)
    (hgap : ∀ {between t rest}, Gap between → starts t.kind →
      gap (between ++ t :: rest) = t :: rest)
    (hstart : ∀ {ts x}, Item ts x → ∃ t rest, ts = t :: rest ∧ starts t.kind)
    (hends : ∀ {text span rest}, ends (⟨.comma, text, span⟩ :: rest))
    {n : Nat} (hitem : ∀ {ts x rest}, Item ts x → ts.length ≤ n → ends rest →
      item (ts ++ rest) = .ok (x, rest))
    {ts : List Token} {xs : List β} (h : CommaList Gap Item ts xs) :
    ∀ {fuel found rest}, ts.length ≤ n → ts.length ≤ fuel → ends rest → next? rest ≠ some .comma →
      commaList gap item fuel found (ts ++ rest) = .ok (found.reverse ++ xs, rest) := by
  induction h with
  | one hx =>
    rintro (_ | fuel) found rest hn hf he hc
    · obtain ⟨t, rest, rfl, -⟩ := hstart hx
      simp at hf
    · rw [commaList, hitem hx hn he, ok_bind]
      dsimp only
      split
      · exact absurd rfl hc
      · simp
  | cons hx hb hxs ih =>
    rintro (_ | fuel) found rest hn hf he hc
    · obtain ⟨t, rest, rfl, -⟩ := hstart hx
      simp at hf
    · simp only [List.length_append, List.length_cons] at hn hf
      obtain ⟨t, us, rfl, ht⟩ := hxs.starts starts hstart
      simp only [List.append_assoc, List.cons_append]
      rw [commaList, hitem hx (by omega) hends, ok_bind]
      dsimp only
      rw [hgap hb ht, ← List.cons_append, ih (by omega) (by omega) he hc]
      simp

end

/-! ### Statements -/

/-- The tokens are a list of expressions that is not too long. -/
def ReadsExprs (ts : List Token) (es : List SourceExpr) : Prop :=
  CommaList Newlines (Reads 0) ts es ∧ es.length ≤ maxItems

/-- The token is the identifier of a name. -/
def ReadsName (ts : List Token) (t : Token) : Prop := ts = [t] ∧ t.kind = .ident

/-- The tokens are a written type, or none. -/
inductive ReadsType? : List Token → Option (TypeRef String) → Prop
  | none : ReadsType? [] none
  | some {text : String} {span : Span} : ReadsType? [⟨.ident, text, span⟩] (some ⟨text, span⟩)

/-- Where the last of some expressions stands. -/
def lastSpan (es : List SourceExpr) : Span := (es.getLast?.map Expr.span).getD ⟨0, 0⟩

/-- Where the first of some tokens stands. -/
def firstSpan (ts : List Token) : Span := (ts.head?.map Token.span).getD ⟨0, 0⟩

/-- The tokens are a statement. -/
inductive ReadsStmt : List Token → SourceStmt → Prop
  | declared {x text : String} {start span : Span} {ns names : List Token} :
      CommaList NoGap ReadsName ns names → names.length ≤ maxItems →
        ReadsStmt (⟨.var, x, start⟩ :: ns ++ [⟨.ident, text, span⟩])
          (.var (start.merge span) (names.map Token.text) (some ⟨text, span⟩) [])
  | initialized {x y : String} {start span : Span} {ns names ty vs : List Token}
      {type? : Option (TypeRef String)} {values : List SourceExpr} :
      CommaList NoGap ReadsName ns names → names.length ≤ maxItems → ReadsType? ty type? →
        ReadsExprs vs values →
          ReadsStmt (⟨.var, x, start⟩ :: ns ++ ty ++ ⟨.assign, y, span⟩ :: vs)
            (.var (start.merge (lastSpan values)) (names.map Token.text) type? values)
  | done {x : String} {start : Span} : ReadsStmt [⟨.ret, x, start⟩] (.ret start [])
  | ret {x : String} {start : Span} {ts : List Token} {results : List SourceExpr} :
      ReadsExprs ts results →
        ReadsStmt (⟨.ret, x, start⟩ :: ts) (.ret (start.merge (lastSpan results)) results)
  | assign {x : String} {span : Span} {ts vs : List Token} {targets values : List SourceExpr} :
      ReadsExprs ts targets → ReadsExprs vs values →
        ReadsStmt (ts ++ ⟨.assign, x, span⟩ :: vs)
          (.assign ((firstSpan ts).merge (lastSpan values)) targets values)
  | expr {ts : List Token} {e : SourceExpr} :
      Reads 0 ts e → ReadsStmt ts (.expr ((firstSpan ts).merge e.span) e)

theorem newlines_gap (ts : List Token) :
    ∃ between, Newlines between ∧ ts = between ++ skipNewlines ts := skipNewlines_eq ts

theorem no_gap (ts : List Token) : ∃ between, NoGap between ∧ ts = between ++ id ts :=
  ⟨[], rfl, rfl⟩

theorem token_ident_sound {ts rest : List Token} {t : Token} (h : token .ident ts = .ok (t, rest)) :
    ∃ used, ts = used ++ rest ∧ ReadsName used t := by
  obtain ⟨rfl, hk⟩ := token_eq_ok.1 h
  exact ⟨[t], rfl, rfl, hk⟩

theorem CommaList.ne_nil {β : Type} {gap : List Token → Prop} {item : List Token → β → Prop}
    {ts : List Token} {xs : List β} (h : CommaList gap item ts xs) : xs ≠ [] := by
  cases h <;> simp

theorem exprList_sound {fuel : Nat} {ts rest : List Token} {items : List SourceExpr} {stop : Span}
    (h : exprList fuel ts = .ok ((items, stop), rest)) :
    ∃ used, ts = used ++ rest ∧ ReadsExprs used items ∧ stop = lastSpan items ∧
      next? rest ≠ some .comma := by
  unfold exprList at h
  obtain ⟨⟨items', ts'⟩, hc, h₁⟩ := bind_eq_ok.1 h
  obtain ⟨⟨⟩, hl, h₂⟩ := bind_eq_ok.1 h₁
  cases h₂
  obtain ⟨used, more, rfl, rfl, hm, hend⟩ := commaList_sound newlines_gap
    (fun hb => by
      obtain ⟨used, e, hr, -⟩ := binary_sound (by decide) hb
      exact ⟨used, e, hr⟩) hc
  refine ⟨used, rfl, ⟨by simpa using hm, checkLength_eq_ok.1 hl⟩, ?_, hend⟩
  have hne := hm.ne_nil
  simp [lastSpan, List.getLast?_eq_some_getLast hne]

theorem typeRef?_sound (ts : List Token) :
    ∃ ty, ts = ty ++ (typeRef? ts).2 ∧ ReadsType? ty (typeRef? ts).1 := by
  unfold typeRef?
  split
  · exact ⟨[_], rfl, .some⟩
  · exact ⟨[], rfl, .none⟩

theorem varStmt_sound {fuel : Nat} {ts rest : List Token} {s : SourceStmt}
    (h : varStmt fuel ts = .ok (s, rest)) : ∃ used, ts = used ++ rest ∧ ReadsStmt used s := by
  unfold varStmt at h
  obtain ⟨⟨start, ts₁⟩, hv, h₁⟩ := bind_eq_ok.1 h
  obtain ⟨rfl, hk⟩ := token_eq_ok.1 hv
  obtain ⟨kind, x, start⟩ := start
  obtain rfl : kind = .var := hk
  obtain ⟨⟨names, ts₂⟩, hn, h₂⟩ := bind_eq_ok.1 h₁
  obtain ⟨ns, names, rfl, rfl, hns, -⟩ := commaList_sound no_gap token_ident_sound hn
  obtain ⟨⟨⟩, hl, h₃⟩ := bind_eq_ok.1 h₂
  obtain ⟨ty, e, hty⟩ := typeRef?_sound ts₂
  have hlen := checkLength_eq_ok.1 hl
  dsimp only at h₃
  split at h₃
  · rename_i y span ts₃ e₃
    obtain ⟨⟨⟨values, stop⟩, ts₄⟩, he, h₄⟩ := bind_eq_ok.1 h₃
    cases h₄
    obtain ⟨vs, rfl, hvs, rfl, -⟩ := exprList_sound he
    refine ⟨⟨.var, x, start⟩ :: ns ++ ty ++ ⟨.assign, y, span⟩ :: vs, ?_,
      .initialized hns hlen hty hvs⟩
    rw [e, e₃]
    simp
  · rename_i type ht hne
    cases h₃
    rw [ht] at hty ⊢
    cases hty
    refine ⟨_, ?_, .declared (x := x) hns hlen⟩
    conv => lhs; rw [e]
    simp
  · cases h₃

theorem returnStmt_sound {fuel : Nat} {ts rest : List Token} {s : SourceStmt}
    (h : returnStmt fuel ts = .ok (s, rest)) : ∃ used, ts = used ++ rest ∧ ReadsStmt used s := by
  unfold returnStmt at h
  obtain ⟨⟨start, ts₁⟩, hv, h₁⟩ := bind_eq_ok.1 h
  obtain ⟨rfl, hk⟩ := token_eq_ok.1 hv
  obtain ⟨kind, x, start⟩ := start
  obtain rfl : kind = .ret := hk
  dsimp only at h₁
  split at h₁
  · cases h₁
    exact ⟨[_], rfl, .done⟩
  · obtain ⟨⟨⟨results, stop⟩, ts₂⟩, he, h₂⟩ := bind_eq_ok.1 h₁
    cases h₂
    obtain ⟨us, rfl, hus, rfl, -⟩ := exprList_sound he
    exact ⟨⟨.ret, x, start⟩ :: us, rfl, .ret hus⟩

theorem ReadsExprs.starts {ts : List Token} {es : List SourceExpr} (h : ReadsExprs ts es) :
    ∃ t rest, ts = t :: rest ∧ Parser.starts 0 t.kind :=
  h.1.starts _ Reads.starts

theorem simpleStmt_sound {fuel : Nat} {ts rest : List Token} {s : SourceStmt}
    (h : simpleStmt fuel ts = .ok (s, rest)) : ∃ used, ts = used ++ rest ∧ ReadsStmt used s := by
  unfold simpleStmt at h
  obtain ⟨⟨⟨targets, stop⟩, ts₁⟩, ht, h₁⟩ := bind_eq_ok.1 h
  obtain ⟨us, rfl, hus, rfl, -⟩ := exprList_sound ht
  have hfirst : ((us ++ ts₁).head?.map Token.span).getD ⟨0, 0⟩ = firstSpan us := by
    obtain ⟨t, us, rfl, -⟩ := hus.starts
    rfl
  rw [hfirst] at h₁
  dsimp only at h₁
  split at h₁
  · rename_i y span ts₂
    obtain ⟨⟨⟨values, stop⟩, ts₃⟩, hv, h₂⟩ := bind_eq_ok.1 h₁
    cases h₂
    obtain ⟨vs, rfl, hvs, rfl, -⟩ := exprList_sound hv
    exact ⟨us ++ ⟨.assign, y, span⟩ :: vs, by simp, .assign hus hvs⟩
  · rename_i e hne
    cases h₁
    refine ⟨us, rfl, ?_⟩
    obtain ⟨hc, -⟩ := hus
    cases hc with
    | one he => exact .expr he
    | cons _ _ hc => exact absurd rfl hc.ne_nil
  · cases h₁

theorem stmt_sound {fuel : Nat} {ts rest : List Token} {s : SourceStmt}
    (h : stmt fuel ts = .ok (s, rest)) : ∃ used, ts = used ++ rest ∧ ReadsStmt used s := by
  unfold stmt at h
  split at h
  · exact varStmt_sound h
  · exact returnStmt_sound h
  · exact simpleStmt_sound h

/-! ### Blocks, functions and programs -/

/-- Tokens that may stand between statements. -/
def Terminators (ts : List Token) : Prop := ∀ t ∈ ts, t.kind = .newline ∨ t.kind = .semicolon

/-- The tokens are the rest of a block; the span is that of the closing brace. -/
inductive ReadsBlock : List Token → List SourceStmt → Span → Prop
  | close {ends : List Token} {x : String} {span : Span} :
      Terminators ends → ReadsBlock (ends ++ [⟨.rightBrace, x, span⟩]) [] span
  | stmt {ends ts us : List Token} {s : SourceStmt} {ss : List SourceStmt} {span : Span} :
      Terminators ends → ReadsStmt ts s → atTerminator us → ReadsBlock us ss span →
        ReadsBlock (ends ++ ts ++ us) (s :: ss) span

/-- The tokens are a parameter. -/
inductive ReadsParam : List Token → Param String → Prop
  | single {x t : String} {first last : Span} :
      ReadsParam [⟨.ident, x, first⟩, ⟨.ident, t, last⟩] ⟨x, ⟨t, last⟩, false, first.merge last⟩
  | variadic {x y t : String} {first span last : Span} :
      ReadsParam [⟨.ident, x, first⟩, ⟨.ellipsis, y, span⟩, ⟨.ident, t, last⟩]
        ⟨x, ⟨t, last⟩, true, first.merge last⟩

/-- The tokens are a written type. -/
inductive ReadsType : List Token → TypeRef String → Prop
  | mk {text : String} {span : Span} : ReadsType [⟨.ident, text, span⟩] ⟨text, span⟩

/-- The tokens are the parameters of a function. -/
inductive ReadsParams : List Token → List (Param String) → Prop
  | none : ReadsParams [] []
  | some {ts : List Token} {ps : List (Param String)} :
      CommaList NoGap ReadsParam ts ps → ReadsParams ts ps

/-- The tokens are the result types of a function. -/
inductive ReadsResults : List Token → List (TypeRef String) → Prop
  | none : ReadsResults [] []
  | one {text : String} {span : Span} : ReadsResults [⟨.ident, text, span⟩] [⟨text, span⟩]
  | many {x y : String} {start stop : Span} {ts : List Token} {types : List (TypeRef String)} :
      CommaList NoGap ReadsType ts types →
        ReadsResults (⟨.leftParen, x, start⟩ :: ts ++ [⟨.rightParen, y, stop⟩]) types

/-- The tokens are a function declaration. -/
inductive ReadsFunction : List Token → SourceFunction → Prop
  | mk {x name y z w : String} {start span open_ close brace stop : Span}
      {ps rs bs : List Token} {params : List (Param String)} {results : List (TypeRef String)}
      {body : List SourceStmt} :
      ReadsParams ps params → params.length ≤ maxItems → ReadsResults rs results →
        results.length ≤ maxItems → ReadsBlock bs body stop → body.length ≤ maxItems →
          ReadsFunction (⟨.func, x, start⟩ :: ⟨.ident, name, span⟩ :: ⟨.leftParen, y, open_⟩ :: ps
              ++ ⟨.rightParen, z, close⟩ :: rs ++ ⟨.leftBrace, w, brace⟩ :: bs)
            ⟨start.merge stop, name, params, results, body⟩

/-- The tokens are the functions of a program. -/
inductive ReadsFunctions : List Token → List SourceFunction → Prop
  | done {ends : List Token} : Terminators ends → ReadsFunctions ends []
  | function {ends ts us : List Token} {f : SourceFunction} {fs : List SourceFunction} :
      Terminators ends → ReadsFunction ts f → ReadsFunctions us fs →
        ReadsFunctions (ends ++ ts ++ us) (f :: fs)

theorem skipTerminators_eq (ts : List Token) :
    ∃ ends, Terminators ends ∧ ts = ends ++ skipTerminators ts := by
  refine ⟨ts.takeWhile fun t => t.kind = .newline || t.kind = .semicolon, fun t ht => ?_,
    List.takeWhile_append_dropWhile.symm⟩
  simpa using List.all_eq_true.1 List.all_takeWhile t ht

theorem ReadsBlock.ne_nil {ts : List Token} {body : List SourceStmt} {stop : Span}
    (h : ReadsBlock ts body stop) : ts ≠ [] := by
  induction h with
  | close => simp
  | stmt _ _ _ _ ih => simp [ih]

theorem ReadsBlock.atTerminator_append {ts : List Token} {body : List SourceStmt} {stop : Span}
    (h : ReadsBlock ts body stop) (rest : List Token) :
    atTerminator (ts ++ rest) = atTerminator ts := by
  obtain ⟨t, ts, rfl⟩ := List.exists_cons_of_ne_nil h.ne_nil
  rfl

theorem stmts_sound {fuel opening steps : Nat} :
    ∀ {found : List SourceStmt} {ts rest : List Token} {body : List SourceStmt} {stop : Span},
      stmts fuel opening steps found ts = .ok ((body, stop), rest) →
        ∃ used more, ts = used ++ rest ∧ body = found.reverse ++ more ∧
          ReadsBlock used more stop ∧ body.length ≤ maxItems := by
  induction steps with
  | zero => exact fun h => nomatch h
  | succ steps ih =>
    intro found ts rest body stop h
    unfold stmts at h
    obtain ⟨ends, ht, e⟩ := skipTerminators_eq ts
    split at h
    · rename_i x span ts' hs
      obtain ⟨⟨⟩, hl, h₁⟩ := bind_eq_ok.1 h
      cases h₁
      exact ⟨ends ++ [⟨.rightBrace, x, stop⟩], [], by rw [e, hs]; simp, by simp, .close ht,
        by simpa using checkLength_eq_ok.1 hl⟩
    · obtain ⟨⟨s, ts'⟩, hs, h₁⟩ := bind_eq_ok.1 h
      obtain ⟨used, e', hr⟩ := stmt_sound hs
      dsimp only at h₁
      split at h₁
      · rename_i hat
        obtain ⟨us, more, rfl, rfl, hb, hl⟩ := ih h₁
        rw [hb.atTerminator_append] at hat
        exact ⟨ends ++ used ++ us, s :: more, by rw [e, e']; simp, by simp, .stmt ht hr hat hb, hl⟩
      · cases h₁

theorem typeRef_sound {ts rest : List Token} {type : TypeRef String}
    (h : typeRef ts = .ok (type, rest)) : ∃ used, ts = used ++ rest ∧ ReadsType used type := by
  unfold typeRef at h
  split at h
  · cases h
    exact ⟨[_], rfl, .mk⟩
  · cases h

theorem param_sound {ts rest : List Token} {p : Param String} (h : param ts = .ok (p, rest)) :
    ∃ used, ts = used ++ rest ∧ ReadsParam used p := by
  unfold param at h
  obtain ⟨⟨name, ts₁⟩, hn, h₁⟩ := bind_eq_ok.1 h
  obtain ⟨used, rfl, rfl, hk⟩ := token_ident_sound hn
  obtain ⟨kind, x, first⟩ := name
  obtain rfl : kind = .ident := hk
  dsimp only at h₁
  split at h₁
  · obtain ⟨⟨type, ts₂⟩, ht, h₂⟩ := bind_eq_ok.1 h₁
    cases h₂
    obtain ⟨used, rfl, ⟨⟩⟩ := typeRef_sound ht
    exact ⟨[_, _, _], rfl, .variadic⟩
  · obtain ⟨⟨type, ts₂⟩, ht, h₂⟩ := bind_eq_ok.1 h₁
    cases h₂
    obtain ⟨used, rfl, ⟨⟩⟩ := typeRef_sound ht
    exact ⟨[_, _], rfl, .single⟩

theorem params_sound {fuel : Nat} {ts rest : List Token} {ps : List (Param String)}
    (h : params fuel ts = .ok (ps, rest)) : ∃ used, ts = used ++ rest ∧ ReadsParams used ps := by
  unfold params at h
  split at h
  · cases h
    exact ⟨[], rfl, .none⟩
  · obtain ⟨used, more, rfl, rfl, hc, -⟩ := commaList_sound no_gap param_sound h
    exact ⟨used, rfl, .some (by simpa using hc)⟩

theorem results_sound {fuel : Nat} {ts rest : List Token} {rs : List (TypeRef String)}
    (h : results fuel ts = .ok (rs, rest)) : ∃ used, ts = used ++ rest ∧ ReadsResults used rs := by
  unfold results at h
  split at h
  · cases h
    exact ⟨[_], rfl, .one⟩
  · rename_i x start ts₁
    obtain ⟨⟨types, ts₂⟩, hc, h₁⟩ := bind_eq_ok.1 h
    obtain ⟨⟨close, ts₃⟩, ht, h₂⟩ := bind_eq_ok.1 h₁
    cases h₂
    obtain ⟨used, more, rfl, rfl, hts, -⟩ := commaList_sound no_gap typeRef_sound hc
    obtain ⟨rfl, hk⟩ := token_eq_ok.1 ht
    obtain ⟨kind, y, stop⟩ := close
    obtain rfl : kind = .rightParen := hk
    exact ⟨⟨.leftParen, x, start⟩ :: used ++ [⟨.rightParen, y, stop⟩], by simp,
      .many (by simpa using hts)⟩
  · cases h
    exact ⟨[], rfl, .none⟩

theorem function_sound {fuel : Nat} {ts rest : List Token} {f : SourceFunction}
    (h : function fuel ts = .ok (f, rest)) : ∃ used, ts = used ++ rest ∧ ReadsFunction used f := by
  unfold function at h
  obtain ⟨⟨⟨kf, x, start⟩, ts₁⟩, hf, h₁⟩ := bind_eq_ok.1 h
  obtain ⟨rfl, rfl⟩ := token_eq_ok.1 hf
  obtain ⟨⟨⟨kn, name, span⟩, ts₂⟩, hn, h₂⟩ := bind_eq_ok.1 h₁
  obtain ⟨rfl, rfl⟩ := token_eq_ok.1 hn
  obtain ⟨⟨⟨ko, y, open_⟩, ts₃⟩, ho, h₃⟩ := bind_eq_ok.1 h₂
  obtain ⟨rfl, rfl⟩ := token_eq_ok.1 ho
  obtain ⟨⟨ps, ts₄⟩, hp, h₄⟩ := bind_eq_ok.1 h₃
  obtain ⟨pts, rfl, hps⟩ := params_sound hp
  obtain ⟨⟨⟨kc, z, close⟩, ts₅⟩, hc, h₅⟩ := bind_eq_ok.1 h₄
  obtain ⟨rfl, rfl⟩ := token_eq_ok.1 hc
  obtain ⟨⟨⟩, hl, h₆⟩ := bind_eq_ok.1 h₅
  obtain ⟨⟨rs, ts₆⟩, hr, h₇⟩ := bind_eq_ok.1 h₆
  obtain ⟨rts, rfl, hrs⟩ := results_sound hr
  obtain ⟨⟨⟩, hl', h₈⟩ := bind_eq_ok.1 h₇
  obtain ⟨⟨⟨kb, w, brace⟩, ts₇⟩, hb, h₉⟩ := bind_eq_ok.1 h₈
  obtain ⟨rfl, rfl⟩ := token_eq_ok.1 hb
  obtain ⟨⟨⟨body, stop⟩, ts₈⟩, hs, h₁₀⟩ := bind_eq_ok.1 h₉
  cases h₁₀
  obtain ⟨bts, more, rfl, rfl, hbs, hlb⟩ := stmts_sound hs
  exact ⟨⟨.func, x, start⟩ :: ⟨.ident, name, span⟩ :: ⟨.leftParen, y, open_⟩ :: pts
      ++ ⟨.rightParen, z, close⟩ :: rts ++ ⟨.leftBrace, w, brace⟩ :: bts, by simp,
    .mk hps (checkLength_eq_ok.1 hl) hrs (checkLength_eq_ok.1 hl') hbs hlb⟩

theorem functions_sound {fuel steps : Nat} :
    ∀ {found : List SourceFunction} {ts : List Token} {fs : List SourceFunction},
      functions fuel steps found ts = .ok fs →
        ∃ more, fs = found.reverse ++ more ∧ ReadsFunctions ts more := by
  induction steps with
  | zero => exact fun h => nomatch h
  | succ steps ih =>
    intro found ts fs h
    unfold functions at h
    obtain ⟨ends, ht, e⟩ := skipTerminators_eq ts
    split at h
    · rename_i hs
      cases h
      rw [hs, List.append_nil] at e
      exact ⟨[], by simp, e ▸ .done ht⟩
    · obtain ⟨⟨f, us⟩, hf, h₁⟩ := bind_eq_ok.1 h
      obtain ⟨used, e', hr⟩ := function_sound hf
      obtain ⟨more, rfl, hm⟩ := ih h₁
      rw [e, e', ← List.append_assoc]
      exact ⟨f :: more, by simp, .function ht hr hm⟩

/-! ### Completeness -/

/-- Nothing follows that a list of expressions could go on with. -/
structure EndsList (rest : List Token) : Prop where
  ends : Ends 0 rest
  comma : next? rest ≠ some .comma

theorem EndsList.of_next? {rest : List Token} {kind : TokenKind} (h : next? rest = some kind)
    (hp : kind ≠ .leftParen) (hc : kind ≠ .comma) (ho : ∀ op, kind ≠ .op op) : EndsList rest :=
  ⟨⟨by simp [h, hp], by simp [h, ho]⟩, by simp [h, hc]⟩

theorem exprList_complete {ts : List Token} {es : List SourceExpr} (h : ReadsExprs ts es)
    {rest : List Token} (hend : EndsList rest) {fuel : Nat} (hf : 4 * ts.length + 1 ≤ fuel) :
    exprList fuel (ts ++ rest) = .ok ((es, lastSpan es), rest) := by
  have hlist : commaList skipNewlines (expr fuel) fuel [] (ts ++ rest)
      = .ok ([].reverse ++ es, rest) := by
    refine commaList_complete (Parser.starts 0) (Ends 0) (fun {between t rest} hb ht => ?_)
      Reads.starts ⟨by simp [next?], by simp [next?]⟩ (fun hr hl he => ?_) h.1 (Nat.le_refl _)
      (by omega) hend.ends hend.comma
    · refine skipNewlines_append hb fun h => ?_
      simp only [next?, List.head?_cons, Option.map_some, Option.some.injEq] at h
      simp [h, Parser.starts] at ht
    · exact (complete hr).result (Nat.le_refl 0) he fuel (by omega)
  have hne := h.1.ne_nil
  unfold exprList
  rw [hlist, ok_bind]
  simp only [checkLength, List.reverse_nil, List.nil_append, h.2, if_true]
  simp only [lastSpan, List.getLast?_eq_some_getLast hne, Option.map_some, Option.getD_some]
  rfl

/-- Lists without gaps after the commas, of items that one step reads whatever follows. -/
theorem commaList_id_complete {β : Type} {item : List Token → Step (β × List Token)}
    {Item : List Token → β → Prop} (hne : ∀ {ts x}, Item ts x → ts ≠ [])
    (hitem : ∀ {ts x rest}, Item ts x → item (ts ++ rest) = .ok (x, rest)) {ts : List Token}
    {xs : List β} (h : CommaList NoGap Item ts xs) {rest : List Token}
    (hc : next? rest ≠ some .comma) {fuel : Nat} (hf : ts.length ≤ fuel) :
    commaList id item fuel [] (ts ++ rest) = .ok (xs, rest) :=
  commaList_complete (fun _ => True) (fun _ => True)
    (fun hb _ => by rw [hb]; rfl)
    (fun hx => by
      obtain ⟨t, rest, rfl⟩ := List.exists_cons_of_ne_nil (hne hx)
      exact ⟨t, rest, rfl, trivial⟩)
    trivial (fun hx _ _ => hitem hx) h (Nat.le_refl _) hf trivial hc

theorem names_complete {ns names rest : List Token} (h : CommaList NoGap ReadsName ns names)
    (hc : next? rest ≠ some .comma) {fuel : Nat} (hf : ns.length ≤ fuel) :
    commaList id (token .ident) fuel [] (ns ++ rest) = .ok (names, rest) :=
  commaList_id_complete (fun h => by simp [h.1])
    (fun h => by obtain ⟨rfl, hk⟩ := h; exact token_eq_ok.2 ⟨rfl, hk⟩) h hc hf

theorem atTerminator_iff {ts : List Token} : atTerminator ts ↔
    ts = [] ∨ ∃ kind, next? ts = some kind ∧
      (kind = .newline ∨ kind = .semicolon ∨ kind = .rightBrace) := by
  rcases ts with _ | ⟨⟨kind, text, span⟩, ts⟩
  · simp [atTerminator, next?]
  · cases kind <;> simp [atTerminator, next?]

theorem EndsList.of_atTerminator {ts : List Token} (h : atTerminator ts) : EndsList ts := by
  rcases atTerminator_iff.1 h with rfl | ⟨kind, hk, rfl | rfl | rfl⟩
  · exact ⟨⟨by simp [next?], by simp [next?]⟩, by simp [next?]⟩
  · exact .of_next? hk (by simp) (by simp) (by simp)
  · exact .of_next? hk (by simp) (by simp) (by simp)
  · exact .of_next? hk (by simp) (by simp) (by simp)

theorem next?_ne_of_atTerminator {ts : List Token} (h : atTerminator ts) :
    next? ts ≠ some .assign ∧ next? ts ≠ some .ident := by
  rcases atTerminator_iff.1 h with rfl | ⟨kind, hk, rfl | rfl | rfl⟩
  · simp [next?]
  all_goals rw [hk]; simp

theorem typeRef?_complete {ty rest : List Token} {type? : Option (TypeRef String)}
    (h : ReadsType? ty type?) (hr : next? rest ≠ some .ident) :
    typeRef? (ty ++ rest) = (type?, rest) := by
  cases h with
  | some => rfl
  | none =>
    rw [List.nil_append, typeRef?]
    rintro text span ts rfl
    exact hr rfl

theorem not_atTerminator {ts rest : List Token} {es : List SourceExpr} (h : ReadsExprs ts es) :
    ¬ atTerminator (ts ++ rest) := by
  obtain ⟨t, us, rfl, ht⟩ := h.starts
  intro hat
  rcases atTerminator_iff.1 hat with h | ⟨kind, hk, h⟩
  · cases h
  · obtain rfl : t.kind = kind := by simpa [next?] using hk
    rcases h with h | h | h <;> simp [h, Parser.starts] at ht

theorem stmt_eq_simpleStmt {ts rest : List Token} {es : List SourceExpr} (h : ReadsExprs ts es)
    (fuel : Nat) : stmt fuel (ts ++ rest) = simpleStmt fuel (ts ++ rest) := by
  obtain ⟨⟨kind, text, span⟩, us, rfl, ht⟩ := h.starts
  cases kind <;> first | rfl | simp [Parser.starts] at ht

theorem firstSpan_append {ts rest : List Token} {es : List SourceExpr} (h : ReadsExprs ts es) :
    ((ts ++ rest).head?.map Token.span).getD ⟨0, 0⟩ = firstSpan ts := by
  obtain ⟨t, us, rfl, -⟩ := h.starts
  rfl

theorem stmt_complete {ts : List Token} {s : SourceStmt} (h : ReadsStmt ts s) {rest : List Token}
    (hat : atTerminator rest) {fuel : Nat} (hf : 4 * ts.length + 1 ≤ fuel) :
    stmt fuel (ts ++ rest) = .ok (s, rest) := by
  have hend := EndsList.of_atTerminator hat
  obtain ⟨hna, hni⟩ := next?_ne_of_atTerminator hat
  cases h with
  | @declared x text start span ns names hns hl =>
    simp only [List.length_cons, List.length_append] at hf
    have hn : commaList id (token .ident) fuel [] (ns ++ (⟨.ident, text, span⟩ :: rest))
        = .ok (names, ⟨.ident, text, span⟩ :: rest) :=
      names_complete hns (by simp [next?]) (by omega)
    show varStmt fuel _ = _
    simp only [varStmt, List.cons_append, List.append_assoc, List.nil_append, token, if_true,
      ok_bind, hn, checkLength, hl, typeRef?]
    split
    · exact absurd rfl hna
    · rename_i h₁ h₂
      cases h₂
      rfl
    · rename_i h₁
      cases h₁
  | @initialized x y start span ns names ty vs type? values hns hl hty hvs =>
    simp only [List.length_cons, List.length_append] at hf
    have hn : commaList id (token .ident) fuel [] (ns ++ (ty ++ (⟨.assign, y, span⟩ :: (vs ++ rest))))
        = .ok (names, ty ++ (⟨.assign, y, span⟩ :: (vs ++ rest))) :=
      names_complete hns (by cases hty <;> simp [next?]) (by omega)
    have ht : typeRef? (ty ++ (⟨.assign, y, span⟩ :: (vs ++ rest)))
        = (type?, ⟨.assign, y, span⟩ :: (vs ++ rest)) :=
      typeRef?_complete hty (by simp [next?])
    have hvalues : exprList fuel (vs ++ rest) = .ok ((values, lastSpan values), rest) :=
      exprList_complete hvs hend (by omega)
    show varStmt fuel _ = _
    simp only [varStmt, List.cons_append, List.append_assoc, token, if_true,
      ok_bind, hn, checkLength, hl, ht, hvalues]
    rfl
  | @done x start =>
    show returnStmt fuel _ = _
    simp only [returnStmt, List.cons_append, List.nil_append, token, if_true, ok_bind, hat]
    rfl
  | @ret x start ts results hts =>
    simp only [List.length_cons] at hf
    have hresults : exprList fuel (ts ++ rest) = .ok ((results, lastSpan results), rest) :=
      exprList_complete hts hend (by omega)
    show returnStmt fuel _ = _
    simp only [returnStmt, List.cons_append, token, if_true, ok_bind, not_atTerminator hts, hresults]
    rfl
  | @assign x span ts vs targets values hts hvs =>
    simp only [List.length_cons, List.length_append] at hf
    have htargets : exprList fuel (ts ++ ⟨.assign, x, span⟩ :: (vs ++ rest))
        = .ok ((targets, lastSpan targets), ⟨.assign, x, span⟩ :: (vs ++ rest)) :=
      exprList_complete hts (.of_next? rfl (by simp) (by simp) (by simp)) (by omega)
    have hvalues : exprList fuel (vs ++ rest) = .ok ((values, lastSpan values), rest) :=
      exprList_complete hvs hend (by omega)
    rw [List.append_assoc, List.cons_append, stmt_eq_simpleStmt hts]
    simp only [simpleStmt, htargets, firstSpan_append hts, ok_bind, hvalues]
    rfl
  | @expr _ e he =>
    have hts : ReadsExprs ts [e] := ⟨.one he, by simp [maxItems]⟩
    rw [stmt_eq_simpleStmt hts]
    simp only [simpleStmt, exprList_complete hts hend hf, firstSpan_append hts, ok_bind]
    split
    · exact absurd rfl hna
    · rename_i h
      cases h
      rfl
    · rename_i h
      exact absurd rfl (h e)

/-! ### Completeness of blocks, functions and programs -/

theorem skipTerminators_append {ends rest : List Token} (h : Terminators ends)
    (hr : ∀ kind, next? rest = some kind → kind ≠ .newline ∧ kind ≠ .semicolon) :
    skipTerminators (ends ++ rest) = rest := by
  unfold skipTerminators
  rw [List.dropWhile_append_of_pos fun t ht => by simpa using h t ht]
  cases rest with
  | nil => rfl
  | cons t rest =>
    obtain ⟨hn, hs⟩ := hr t.kind rfl
    simp [hn, hs]

/-- Kinds of token with which a statement starts. -/
def startsStmt (kind : TokenKind) : Prop := kind = .var ∨ kind = .ret ∨ starts 0 kind

theorem ReadsStmt.starts {ts : List Token} {s : SourceStmt} (h : ReadsStmt ts s) :
    ∃ t rest, ts = t :: rest ∧ startsStmt t.kind := by
  cases h with
  | declared | initialized => exact ⟨_, _, rfl, .inl rfl⟩
  | done | ret => exact ⟨_, _, rfl, .inr (.inl rfl)⟩
  | assign hts =>
    obtain ⟨t, us, rfl, ht⟩ := hts.starts
    exact ⟨t, _, rfl, .inr (.inr ht)⟩
  | expr he =>
    obtain ⟨t, us, rfl, ht⟩ := he.starts
    exact ⟨t, us, rfl, .inr (.inr ht)⟩

theorem stmts_complete {us : List Token} {body : List SourceStmt} {stop : Span}
    (h : ReadsBlock us body stop) {fuel opening : Nat} (hf : 4 * us.length + 1 ≤ fuel) :
    ∀ {steps : Nat} {found : List SourceStmt} {rest : List Token}, us.length ≤ steps →
      (found.reverse ++ body).length ≤ maxItems →
        stmts fuel opening steps found (us ++ rest) = .ok ((found.reverse ++ body, stop), rest) := by
  induction h with
  | @close ends x span he =>
    rintro (_ | steps) found rest hs hl
    · simp at hs
    · rw [stmts, List.append_assoc, skipTerminators_append he (by simp [next?])]
      simp only [List.singleton_append, checkLength]
      rw [if_pos (by simpa using hl), ok_bind]
      simp
      rfl
  | @stmt ends ts us s ss span he hs hat hb ih =>
    rintro (_ | steps) found rest hst hl
    · have := hb.ne_nil
      simp at hst
      simp_all
    · simp only [List.length_append] at hf hst
      obtain ⟨t, ts', rfl, ht⟩ := hs.starts
      rw [stmts, List.append_assoc, List.append_assoc, skipTerminators_append he (by
        rintro kind hk
        obtain rfl : t.kind = kind := by simpa [next?] using hk
        rcases ht with h | h | h
        · simp [h]
        · simp [h]
        · constructor <;> rintro e <;> simp [e, Parser.starts] at h)]
      have hstmt : stmt fuel (t :: ts' ++ (us ++ rest)) = .ok (s, us ++ rest) :=
        stmt_complete hs (by rwa [hb.atTerminator_append]) (by omega)
      split
      · rename_i h
        simp at h
        simp [h.1, startsStmt, Parser.starts] at ht
      · rw [hstmt, ok_bind]
        simp only [hb.atTerminator_append, hat, if_true]
        rw [ih (by omega) (by simp at hst; omega) (by simpa using hl)]
        simp

theorem typeRef_complete {ts rest : List Token} {type : TypeRef String} (h : ReadsType ts type) :
    typeRef (ts ++ rest) = .ok (type, rest) := by
  cases h
  rfl

theorem param_complete {ts rest : List Token} {p : Param String} (h : ReadsParam ts p) :
    param (ts ++ rest) = .ok (p, rest) := by
  cases h <;> rfl

theorem params_complete {ts rest : List Token} {ps : List (Param String)} (h : ReadsParams ts ps)
    (hr : next? rest = some .rightParen) {fuel : Nat} (hf : ts.length ≤ fuel) :
    params fuel (ts ++ rest) = .ok (ps, rest) := by
  cases h with
  | none => simp [params, hr]
  | some hc =>
    have hlist : commaList id param fuel [] (ts ++ rest) = .ok (ps, rest) :=
      commaList_id_complete (fun h => by cases h <;> simp) param_complete hc (by simp [hr]) hf
    have hne : next? (ts ++ rest) ≠ some .rightParen := by
      obtain ⟨t, us, rfl, ht⟩ := hc.starts (fun kind => kind = .ident) fun h => by
        cases h <;> exact ⟨_, _, rfl, rfl⟩
      simp [next?, ht]
    rw [params, if_neg hne, hlist]

theorem results_complete {ts rest : List Token} {rs : List (TypeRef String)}
    (h : ReadsResults ts rs) (hr : next? rest = some .leftBrace) {fuel : Nat}
    (hf : ts.length ≤ fuel) : results fuel (ts ++ rest) = .ok (rs, rest) := by
  cases h with
  | none =>
    obtain ⟨text, span, rest, rfl⟩ := next?_eq_some.1 hr
    rfl
  | one => rfl
  | @many x y start stop ts types hc =>
    have hlist : commaList id typeRef fuel [] (ts ++ ⟨.rightParen, y, stop⟩ :: rest)
        = .ok (rs, ⟨.rightParen, y, stop⟩ :: rest) :=
      commaList_id_complete (fun h => by cases h; simp) typeRef_complete hc (by simp [next?])
        (by simp only [List.length_append, List.length_cons] at hf; omega)
    simp only [results, List.cons_append, List.append_assoc, List.nil_append, hlist, ok_bind, token,
      if_true]
    rfl

theorem function_complete {ts rest : List Token} {f : SourceFunction} (h : ReadsFunction ts f)
    {fuel : Nat} (hf : 4 * ts.length + 1 ≤ fuel) : function fuel (ts ++ rest) = .ok (f, rest) := by
  cases h with
  | @mk x name y z w start span open_ close brace stop pts rts bts params results body hps hlp hrs
      hlr hbs hlb =>
    simp only [List.length_append, List.length_cons] at hf
    have hparams : Parser.params fuel (pts ++ ⟨.rightParen, z, close⟩ :: (rts
        ++ ⟨.leftBrace, w, brace⟩ :: (bts ++ rest))) = .ok (params, ⟨.rightParen, z, close⟩ :: (rts
        ++ ⟨.leftBrace, w, brace⟩ :: (bts ++ rest))) :=
      params_complete hps rfl (by omega)
    have hresults : Parser.results fuel (rts ++ ⟨.leftBrace, w, brace⟩ :: (bts ++ rest))
        = .ok (results, ⟨.leftBrace, w, brace⟩ :: (bts ++ rest)) :=
      results_complete hrs rfl (by omega)
    have hbody : stmts fuel brace.start fuel [] (bts ++ rest) = .ok ((body, stop), rest) :=
      stmts_complete hbs (by omega) (by omega) hlb
    simp only [function, List.cons_append, List.append_assoc, token, if_true, ok_bind, hparams,
      hresults, hbody, checkLength, hlp, hlr]
    rfl

theorem functions_complete {ts : List Token} {fs : List SourceFunction}
    (h : ReadsFunctions ts fs) {fuel : Nat} (hf : 4 * ts.length + 1 ≤ fuel) :
    ∀ {steps : Nat} {found : List SourceFunction}, ts.length + 1 ≤ steps →
      functions fuel steps found ts = .ok (found.reverse ++ fs) := by
  induction h with
  | @done ends he =>
    rintro (_ | steps) found hs
    · omega
    · have hskip : skipTerminators (ends ++ []) = [] := skipTerminators_append he (by simp [next?])
      rw [List.append_nil] at hskip
      simp only [functions, hskip]
      simp
      rfl
  | @function ends ts us f fs he hts hus ih =>
    rintro (_ | steps) found hs
    · omega
    · simp only [List.length_append] at hf hs
      have hstart : ∃ t rest, ts = t :: rest ∧ t.kind = .func := by
        cases hts
        exact ⟨_, _, rfl, rfl⟩
      obtain ⟨t, ts', rfl, ht⟩ := hstart
      have hfun : function fuel (t :: ts' ++ us) = .ok (f, us) :=
        function_complete hts (by omega)
      rw [functions, List.append_assoc, skipTerminators_append he (by simp [next?, ht])]
      split
      · rename_i h
        simp at h
      · rw [hfun, ok_bind]
        simp only
        rw [ih (by omega) (by simp at hs; omega)]
        simp

end Parser

/-- The parser gives a program just when its grammar does. -/
theorem Lexed.parse_eq_ok {lexed : Lexed} {p : SourceProgram} :
    lexed.parse = .ok p ↔ Parser.ReadsFunctions lexed.tokens p.functions ∧
      p.trivia = lexed.trivia := by
  unfold Lexed.parse
  constructor
  · intro h
    dsimp only at h
    split at h
    · rename_i functions hf
      cases h
      obtain ⟨more, rfl, hr⟩ := Parser.functions_sound hf
      exact ⟨hr, rfl⟩
    · cases h
  · rintro ⟨hr, ht⟩
    have hall : Parser.functions (Parser.enoughFuel lexed.tokens) (Parser.enoughFuel lexed.tokens) []
        lexed.tokens = .ok ([].reverse ++ p.functions) :=
      Parser.functions_complete hr (by unfold Parser.enoughFuel; omega)
        (by unfold Parser.enoughFuel; omega)
    simp only [hall]
    rw [← ht]
    rfl

end Recast
