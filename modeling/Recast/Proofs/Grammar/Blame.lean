import Recast.Proofs.Grammar.Follows
import Recast.Proofs.Lexing.Scan

/-!
# What the parser accepts and where it stops

The parser follows the table through statements, functions and files. So a text without long lists is
read exactly if its tokens are a file of the grammar, and otherwise the error stands at the first token
that no file has after the tokens before it (`parse_blames`).
-/

namespace Recast

open Grammar (Symbol Stack stuck stuck_step stuck_pop stuck_here)

namespace Parser

section Lists

variable {β γ : Type} {N M : Stack} {P : β → Stack} {Q : γ → Stack} {ts us rest : List Token}

theorem Follows.bind {x : Step (β × List Token)} {f : β × List Token → Step (γ × List Token)}
    (h : Follows N P ts x)
    (hf : ∀ a us, x = .ok (a, us) → Reaches N (P a) ts us → Follows N Q ts (f (a, us))) :
    Follows N Q ts (x >>= f) := by
  match x, h with
  | .ok (a, us), h => exact hf a us rfl h
  | .error e, h => exact h.error

/-- A check of a length fails where there is a long list only. -/
theorem Follows.checkLength {items : List γ} {pos : Nat} {f : Unit → Step (β × List Token)}
    (hl : maxItems < items.length → Long ts) (hf : Follows N P ts (f ())) :
    Follows N P ts (Parser.checkLength items pos >>= f) := by
  unfold Parser.checkLength
  split
  · exact hf
  · exact hl (Nat.lt_of_not_le ‹_›)

theorem Follows.congr {P' : β → Stack} {x : Step (β × List Token)} (h : Follows N P ts x)
    (hP : ∀ a us, x = .ok (a, us) → P a = P' a) : Follows N P' ts x := by
  match x, h with
  | .ok (a, us), h =>
    show Reaches N (P' a) ts us
    rw [← hP a us rfl]
    exact h
  | .error e, h => exact h.error

variable {gap : List Token → List Token} {Gap : List Token → Prop}
  {item : List Token → Step (β × List Token)} {Item : List Token → β → Prop} {I G : Stack}
  {m m₀ : Symbol} {n : Nat}

/-- A list of items is read as the table has it; `m` stands for the further items. -/
theorem follows_commaList (hm : m.after .comma = some (G ++ (I ++ [m])))
    (hgap : ∀ ts, Reaches G [] ts (gap ts))
    (hitem : ∀ {ts}, ts.length ≤ n → Follows I (fun _ => []) ts (item ts))
    (hlt : ∀ {ts x rest}, item ts = .ok (x, rest) → rest.length < ts.length) :
    ∀ {fuel found ts}, ts.length ≤ n → ts.length + 1 ≤ fuel →
      Follows (I ++ [m]) (fun _ => [m]) ts (commaList gap item fuel found ts) := by
  intro fuel
  induction fuel with
  | zero => exact fun _ hf => absurd hf (by omega)
  | succ fuel ih =>
    intro found ts hn hf
    rw [commaList]
    refine ((hitem hn).frame [m]).bind fun x us hx hr => ?_
    have hlen := hlt hx
    dsimp only
    split
    · rename_i _ text span us'
      have hcomma : Reaches [m] (G ++ (I ++ [m])) (⟨.comma, text, span⟩ :: us') us' :=
        .step fun K => by simp [Grammar.step, hm]
      have hnext := (hgap us').frame (I ++ [m])
      have hsuffix := hnext.isSuffix.length_le
      rw [List.length_cons] at hlen
      exact ((hr.trans hcomma).trans hnext).follows (ih (by omega) (by omega))
    · exact hr

/-- The same if another symbol stands for the further items of a list of one. -/
theorem follows_commaList_first (hm₀ : m₀.after .comma = some (G ++ (I ++ [m])))
    (hm : m.after .comma = some (G ++ (I ++ [m]))) (hgap : ∀ ts, Reaches G [] ts (gap ts))
    (hitem : ∀ {ts}, ts.length ≤ n → Follows I (fun _ => []) ts (item ts))
    (hlt : ∀ {ts x rest}, item ts = .ok (x, rest) → rest.length < ts.length)
    (hgap' : ∀ ts, ∃ between, Gap between ∧ ts = between ++ gap ts)
    (hitem' : ∀ {ts x rest}, item ts = .ok (x, rest) → ∃ used, ts = used ++ rest ∧ Item used x)
    {fuel : Nat} {ts : List Token} (hn : ts.length ≤ n) (hf : ts.length + 1 ≤ fuel) :
    Follows (I ++ [m₀]) (fun xs => if xs.length = 1 then [m₀] else [m]) ts
      (commaList gap item fuel [] ts) := by
  obtain _ | fuel := fuel
  · omega
  rw [commaList]
  refine ((hitem hn).frame [m₀]).bind fun x us hx hr => ?_
  have hlen := hlt hx
  dsimp only
  split
  · rename_i _ text span us'
    have hcomma : Reaches [m₀] (G ++ (I ++ [m])) (⟨.comma, text, span⟩ :: us') us' :=
      .step fun K => by simp [Grammar.step, hm₀]
    have hnext := (hgap us').frame (I ++ [m])
    have hsuffix := hnext.isSuffix.length_le
    rw [List.length_cons] at hlen
    refine (((hr.trans hcomma).trans hnext).follows
      (follows_commaList hm hgap hitem hlt (by omega) (by omega))).congr fun xs _ hxs => ?_
    obtain ⟨_, more, _, rfl, hmore, -⟩ := commaList_sound hgap' hitem' hxs
    have hpos := List.length_pos_iff.2 hmore.ne_nil
    have hne : ([x].reverse ++ more).length ≠ 1 := by
      simp only [List.length_append, List.length_reverse, List.length_singleton]
      omega
    exact (if_neg hne).symm
  · exact hr

/-- A list with nothing but commas between its items is read to its end. -/
theorem follows_items {Item : List Token → β → Prop} (hm : m.after .comma = some (I ++ [m]))
    (hopt : m.optional) (hend : ∀ {kind}, kind ≠ .comma → m.after kind = none)
    (hitem : ∀ ts, Follows I (fun _ => []) ts (item ts))
    (hlt : ∀ {ts x rest}, item ts = .ok (x, rest) → rest.length < ts.length)
    (hsound : ∀ {ts x rest}, item ts = .ok (x, rest) → ∃ used, ts = used ++ rest ∧ Item used x)
    {fuel : Nat} {ts : List Token} (hf : ts.length + 1 ≤ fuel) :
    Follows (I ++ [m]) (fun _ => []) ts (commaList id item fuel [] ts) := by
  have hlist : Follows (I ++ [m]) (fun _ => [m]) ts (commaList id item fuel [] ts) :=
    follows_commaList (G := []) hm (fun us => .refl _ us) (fun _ => hitem _) hlt (Nat.le_refl _) hf
  match hx : commaList id item fuel [] ts with
  | .error e => exact (hx ▸ hlist).error
  | .ok (xs, rest) =>
    rw [hx] at hlist
    obtain ⟨-, -, -, -, -, hcomma⟩ := commaList_sound no_gap hsound hx
    refine Reaches.trans hlist (.pop hopt fun kind hk => hend ?_)
    rintro rfl
    exact hcomma hk

end Lists

/-! ### Words of trees -/

theorem NoGap.kinds {ts : List Token} (h : NoGap ts) : Grammar.NoGap (kinds ts) := by
  cases h
  rfl

theorem Terminators.kinds {ts : List Token} (h : Terminators ts) :
    Grammar.Terminators (kinds ts) := by
  rintro _ hk
  obtain ⟨t, ht, rfl⟩ := List.mem_map.1 hk
  exact h t ht

theorem ReadsName.identifier {ts : List Token} {t : Token} (h : ReadsName ts t) :
    Grammar.Identifier (kinds ts) := by
  obtain ⟨rfl, hk⟩ := h
  simp [Grammar.Identifier, hk]

theorem ReadsType.identifier {ts : List Token} {type : TypeRef String} (h : ReadsType ts type) :
    Grammar.Identifier (kinds ts) := by
  cases h
  rfl

theorem ReadsType?.word {ts : List Token} {type? : Option (TypeRef String)} (h : ReadsType? ts type?) :
    kinds ts = [] ∨ Grammar.Identifier (kinds ts) := by
  cases h with
  | none => exact .inl rfl
  | some => exact .inr rfl

theorem ReadsParam.parameter {ts : List Token} {p : Param String} (h : ReadsParam ts p) :
    Grammar.Parameter (kinds ts) := by
  cases h with
  | single => exact .single
  | variadic => exact .variadic

theorem ReadsExprs.expressions {ts : List Token} {es : List SourceExpr} (h : ReadsExprs ts es) :
    Grammar.Expressions es.length (kinds ts) :=
  h.1.separated Newlines.kinds fun h => h.worded.expression

/-! ### Lists of expressions -/

theorem expr_sound {fuel : Nat} {ts rest : List Token} {e : SourceExpr}
    (h : expr fuel ts = .ok (e, rest)) : ∃ used, ts = used ++ rest ∧ Reads 0 used e := by
  obtain ⟨used, hts, hr, -⟩ := binary_sound (by decide) h
  exact ⟨used, hts, hr⟩

/-- Of a list of expressions `m₀` is left if there is one, and `m` if there are several. -/
theorem follows_exprList (m₀ m : Symbol) (hm₀ : m₀.after .comma = some [.gap, .operand, m])
    (hm : m.after .comma = some [.gap, .operand, m]) {fuel : Nat} {ts : List Token}
    (hf : 4 * ts.length + 4 ≤ fuel) :
    Follows [.operand, m₀] (fun p => if p.1.length = 1 then [m₀] else [m]) ts
      (exprList fuel ts) := by
  have hitem {us : List Token} (h : us.length ≤ ts.length) :
      Follows [.operand] (fun _ => []) us (expr fuel us) := follows_expr (by omega)
  have hlt {us rest : List Token} {e : SourceExpr} (h : expr fuel us = .ok (e, rest)) :
      rest.length < us.length := by
    obtain ⟨used, hus, hr⟩ := expr_sound h
    exact hr.length_lt hus
  unfold exprList
  refine (follows_commaList_first hm₀ hm reaches_skipNewlines hitem hlt newlines_gap expr_sound
    (Nat.le_refl _) (by omega)).bind fun items us hx hr => ?_
  refine .checkLength (fun hl => ?_) hr
  obtain ⟨used, more, hts, rfl, hmore, -⟩ := commaList_sound newlines_gap expr_sound hx
  exact ⟨used, ⟨[], us, by simp [hts]⟩,
    .expressions (hmore.separated Newlines.kinds fun h => h.worded.expression) (by simpa using hl)⟩

/-- Where nothing else may follow, nothing is left of a list of expressions. -/
theorem follows_exprs {fuel : Nat} {ts : List Token} (hf : 4 * ts.length + 4 ≤ fuel) :
    Follows [.operand, .moreExprs] (fun _ => []) ts (exprList fuel ts) := by
  have h := follows_exprList .moreExprs .moreExprs rfl rfl hf
  match hx : exprList fuel ts with
  | .error e => exact (hx ▸ h).error
  | .ok ((items, stop), rest) =>
    obtain ⟨-, -, -, -, hcomma⟩ := exprList_sound hx
    rw [hx] at h
    simp only [Follows, ite_self] at h
    refine h.trans (.pop rfl fun kind hk => Grammar.after_moreExprs ?_)
    rintro rfl
    exact hcomma hk

/-! ### Statements -/

/-- What may not be left over at the start of a statement. -/
def atStatement (ts : List Token) : Prop :=
  next? ts ≠ some .newline ∧ next? ts ≠ some .semicolon ∧ next? ts ≠ some .rightBrace

theorem next?_of_atTerminator {ts : List Token} (h : atTerminator ts) {kind : TokenKind}
    (hk : next? ts = some kind) : Grammar.Terminator kind ∨ kind = .rightBrace := by
  rcases atTerminator_iff.1 h with rfl | ⟨kind', hk', h⟩
  · cases hk
  · obtain rfl := Option.some.inj (hk.symm.trans hk')
    exact or_assoc.2 h

/-- A written type is read if there is one. -/
theorem typeRef?_cases (ts : List Token) :
    (∃ text span rest, ts = ⟨.ident, text, span⟩ :: rest ∧
      typeRef? ts = (some ⟨text, span⟩, rest)) ∨
    (next? ts ≠ some .ident ∧ typeRef? ts = (none, ts)) := by
  unfold typeRef?
  split
  · exact .inl ⟨_, _, _, rfl, rfl⟩
  · rename_i hne
    refine .inr ⟨fun h => ?_, rfl⟩
    obtain ⟨text, span, rest, rfl⟩ := next?_eq_some.1 h
    exact hne text span rest rfl

theorem next?_assign {ts : List Token}
    (h : ∀ text span rest, ts = ⟨.assign, text, span⟩ :: rest → False) :
    next? ts ≠ some .assign := by
  intro hc
  obtain ⟨text, span, rest, rfl⟩ := next?_eq_some.1 hc
  exact h text span rest rfl

/-- What is left of a declaration after its type, or after its names if it has none. -/
def afterType : Option (TypeRef String) → Symbol
  | some _ => .values
  | none => .declared

theorem reaches_typeRef? (ts : List Token) :
    Reaches [.declared] [afterType (typeRef? ts).1] ts (typeRef? ts).2 := by
  rcases typeRef?_cases ts with ⟨text, span, rest, rfl, htype⟩ | ⟨-, htype⟩
  · rw [htype]
    exact Reaches.step fun _ => rfl
  · rw [htype]
    exact .refl _ _

/-- The names of a declaration are read. -/
theorem follows_names {fuel : Nat} {ts : List Token} (hf : ts.length + 1 ≤ fuel) :
    Follows [.word .ident, .moreIdents] (fun _ => []) ts
      (commaList id (token .ident) fuel [] ts) := by
  refine follows_items (I := [.word .ident]) rfl rfl Grammar.after_moreIdents
    (follows_token .ident) (fun h => ?_) token_ident_sound hf
  obtain ⟨rfl, -⟩ := token_eq_ok.1 h
  exact Nat.lt_succ_self _

theorem follows_varStmt {fuel : Nat} {t : Token} {ts : List Token} (ht : t.kind = .var)
    (hf : 4 * (t :: ts).length + 4 ≤ fuel) :
    Follows [.body] (fun _ => [.moreBody]) (t :: ts) (varStmt fuel (t :: ts)) := by
  rw [List.length_cons] at hf
  have hstart : Reaches [.body] [.word .ident, .moreIdents, .declared, .moreBody] (t :: ts) ts :=
    .step fun K => by rw [ht]; rfl
  unfold varStmt
  simp only [token, ht, if_true, ok_bind]
  refine (hstart.follows ((follows_names (by omega)).frame [.declared, .moreBody])).bind
    fun names us hx hnames => ?_
  refine .checkLength (fun hl => ?_) ?_
  · obtain ⟨ns, names, hts, rfl, hns, -⟩ := commaList_sound no_gap token_ident_sound hx
    exact ⟨ns, ⟨[t], us, by simp [hts]⟩,
      .identifiers (hns.separated NoGap.kinds ReadsName.identifier) hl⟩
  have htype := hnames.trans ((reaches_typeRef? us).frame [.moreBody])
  have hlen := htype.isSuffix.length_le
  rw [List.length_cons] at hlen
  have hident : (typeRef? us).1 = none → next? (typeRef? us).2 ≠ some .ident := by
    rcases typeRef?_cases us with ⟨_, _, _, _, h⟩ | ⟨hident, h⟩
    · rw [h]
      exact fun hnone => absurd hnone (by simp)
    · rw [h]
      exact fun _ => hident
  revert htype hlen hident
  rcases typeRef? us with ⟨type?, vs⟩
  intro htype hlen hident
  dsimp only at htype hlen hident ⊢
  split
  · rename_i _ _ text span vs'
    rw [List.length_cons] at hlen
    have hassign : Reaches [afterType type?, .moreBody] [.operand, .moreExprs, .moreBody]
        (⟨.assign, text, span⟩ :: vs') vs' := .step fun _ => by cases type? <;> rfl
    exact ((htype.trans hassign).follows ((follows_exprs (by omega)).frame [.moreBody])).bind
      fun _ _ _ h => h
  · rename_i hne
    refine htype.trans ((Reaches.pop rfl fun kind hk => ?_).frame [.moreBody])
    cases kind with
    | assign => exact absurd hk (next?_assign hne)
    | _ => rfl
  · rename_i hne
    refine htype.follows (P := fun _ => [.moreBody]) (Halts.here rfl fun kind hk => ?_)
    cases kind with
    | ident => exact absurd hk (hident rfl)
    | assign => exact absurd hk (next?_assign hne)
    | _ => rfl

/-- Where a result of a `return` may stand there is one, except at the end of the statement. -/
theorem reaches_returned {ts : List Token} (h : ¬ atTerminator ts) :
    Reaches [.returned, .moreBody, .word .rightBrace]
      [.operand, .moreExprs, .moreBody, .word .rightBrace] ts ts := by
  refine reaches_operand (L := [.moreExprs]) rfl (fun _ _ => rfl) rfl fun kind hk _ K => ?_
  obtain ⟨text, span, rest, rfl⟩ := next?_eq_some.1 hk
  cases kind <;> first | rfl | exact absurd rfl h

theorem follows_returnStmt {fuel : Nat} {t : Token} {ts : List Token} (ht : t.kind = .ret)
    (hf : 4 * (t :: ts).length + 4 ≤ fuel) :
    Follows [.body, .word .rightBrace] (fun _ => [.moreBody, .word .rightBrace]) (t :: ts)
      (returnStmt fuel (t :: ts)) := by
  rw [List.length_cons] at hf
  have hstart : Reaches [.body, .word .rightBrace] [.returned, .moreBody, .word .rightBrace]
      (t :: ts) ts := .step fun K => by rw [ht]; rfl
  unfold returnStmt
  simp only [token, ht, if_true, ok_bind]
  split
  · rename_i hat
    refine hstart.trans ((Reaches.pop rfl fun kind hk => ?_).frame [.moreBody, .word .rightBrace])
    rcases next?_of_atTerminator hat hk with (rfl | rfl) | rfl <;> rfl
  · rename_i hat
    exact ((hstart.trans (reaches_returned hat)).follows
      ((follows_exprs (by omega)).frame [.moreBody, .word .rightBrace])).bind fun _ _ _ h => h

/-- Where a statement starts that is no declaration and no `return` there is an expression. -/
theorem reaches_statement {ts : List Token} (hat : atStatement ts)
    (hvar : next? ts ≠ some .var) (hret : next? ts ≠ some .ret) :
    Reaches [.body, .word .rightBrace] [.operand, .targets, .moreBody, .word .rightBrace] ts ts := by
  obtain ⟨hn, hs, hb⟩ := hat
  refine reaches_operand (L := [.targets, .moreBody]) rfl (fun kind hk => ?_) rfl
    fun kind hk _ K => ?_
  · cases kind with
    | newline => exact absurd hk hn
    | semicolon => exact absurd hk hs
    | var => exact absurd hk hvar
    | ret => exact absurd hk hret
    | op op => cases op <;> rfl
    | _ => rfl
  · cases kind with
    | rightBrace => exact absurd hk hb
    | _ => rfl

theorem follows_simpleStmt {fuel : Nat} {ts : List Token} (hf : 4 * ts.length + 4 ≤ fuel) :
    Follows [.operand, .targets] (fun _ => []) ts (simpleStmt fuel ts) := by
  unfold simpleStmt
  refine (follows_exprList .targets .moreTargets rfl rfl hf).bind fun p us hx hr => ?_
  obtain ⟨targets, stop⟩ := p
  obtain ⟨used, hts, hes, -, hcomma⟩ := exprList_sound hx
  have hlen := hr.isSuffix.length_le
  dsimp only at hr ⊢
  split
  · rename_i _ _ y span us'
    rw [List.length_cons] at hlen
    have hassign : Reaches (if targets.length = 1 then [Symbol.targets] else [.moreTargets])
        [.operand, .moreExprs] (⟨.assign, y, span⟩ :: us') us' :=
      .step fun K => by split <;> rfl
    exact ((hr.trans hassign).follows (follows_exprs (by omega))).bind fun _ _ _ h => h
  · rename_i e hne
    refine hr.trans (.pop rfl fun kind hk => ?_)
    cases kind with
    | comma => exact absurd hk hcomma
    | assign => exact absurd hk (next?_assign hne)
    | _ => rfl
  · rename_i hne hsingle
    have hlength : targets.length ≠ 1 := fun h => by
      obtain ⟨e, rfl⟩ := List.length_eq_one_iff.1 h
      exact hsingle e rfl
    rw [if_neg hlength] at hr
    refine hr.follows (P := fun _ => []) (Halts.here rfl fun kind hk => ?_)
    cases kind with
    | comma => exact absurd hk hcomma
    | assign => exact absurd hk (next?_assign hne)
    | _ => rfl

/-- A statement is read as the table has it. -/
theorem follows_stmt {fuel : Nat} {ts : List Token} (hat : atStatement ts)
    (hf : 4 * ts.length + 4 ≤ fuel) :
    Follows [.body, .word .rightBrace] (fun _ => [.moreBody, .word .rightBrace]) ts
      (stmt fuel ts) := by
  unfold stmt
  split
  · rename_i hk
    obtain ⟨text, span, rest, rfl⟩ := next?_eq_some.1 hk
    exact (follows_varStmt rfl hf).frame [.word .rightBrace]
  · rename_i hk
    obtain ⟨text, span, rest, rfl⟩ := next?_eq_some.1 hk
    exact follows_returnStmt rfl hf
  · rename_i hvar hret
    exact (reaches_statement hat hvar hret).follows
      ((follows_simpleStmt hf).frame [.moreBody, .word .rightBrace])

/-! ### Blocks -/

theorem skipTerminators_cons_of_pos {t : Token} (ht : t.kind = .newline ∨ t.kind = .semicolon)
    (ts : List Token) : skipTerminators (t :: ts) = skipTerminators ts :=
  List.dropWhile_cons_of_pos (by simpa)

theorem skipTerminators_cons_of_neg {t : Token} (ht : ¬ (t.kind = .newline ∨ t.kind = .semicolon))
    (ts : List Token) : skipTerminators (t :: ts) = t :: ts :=
  List.dropWhile_cons_of_neg (by simpa [not_or] using ht)

theorem reaches_skipTerminators {s : Symbol} (hn : s.after .newline = some [s])
    (hs : s.after .semicolon = some [s]) (ts : List Token) :
    Reaches [s] [s] ts (skipTerminators ts) := by
  induction ts with
  | nil => exact .refl _ _
  | cons t ts ih =>
    by_cases ht : t.kind = .newline ∨ t.kind = .semicolon
    · have hstep : Reaches [s] [s] (t :: ts) ts := by
        refine .step fun K => ?_
        rcases ht with ht | ht
        · simp [Grammar.step, ht, hn]
        · simp [Grammar.step, ht, hs]
      rw [skipTerminators_cons_of_pos ht]
      exact hstep.trans ih
    · rw [skipTerminators_cons_of_neg ht]
      exact .refl _ _

theorem next?_skipTerminators (ts : List Token) {kind : TokenKind}
    (h : next? (skipTerminators ts) = some kind) : kind ≠ .newline ∧ kind ≠ .semicolon := by
  induction ts with
  | nil => cases h
  | cons t ts ih =>
    by_cases ht : t.kind = .newline ∨ t.kind = .semicolon
    · rw [skipTerminators_cons_of_pos ht] at h
      exact ih h
    · rw [skipTerminators_cons_of_neg ht] at h
      obtain rfl : t.kind = kind := Option.some.inj h
      exact not_or.1 ht

/-- In a block there is a statement after the terminators, unless the block is closed there. -/
theorem atStatement_skipTerminators {ts : List Token}
    (h : next? (skipTerminators ts) ≠ some .rightBrace) : atStatement (skipTerminators ts) :=
  ⟨fun hk => (next?_skipTerminators ts hk).1 rfl, fun hk => (next?_skipTerminators ts hk).2 rfl, h⟩

/-- After a statement that has ended a block goes on as at its start. -/
theorem reaches_moreBody {ts : List Token} (h : atTerminator ts) :
    Reaches [.moreBody, .word .rightBrace] [.body, .word .rightBrace] ts ts := by
  refine ⟨List.suffix_rfl, fun K => ?_⟩
  rcases atTerminator_iff.1 h with rfl | ⟨kind, hk, hkind⟩
  · simp [stuck, Symbol.optional]
  · obtain ⟨text, span, rest, rfl⟩ := next?_eq_some.1 hk
    clear h
    rcases hkind with rfl | rfl | rfl <;> rfl

/-- After a statement that has not ended no token fits. -/
theorem halts_moreBody {ts : List Token} (h : ¬ atTerminator ts) :
    Halts [.moreBody, .word .rightBrace] ts ts := by
  refine ⟨List.suffix_rfl, fun K => ?_⟩
  rcases ts with _ | ⟨⟨kind, text, span⟩, rest⟩
  · exact absurd rfl h
  · cases kind <;> first | rfl | exact absurd rfl h

/-- A block may be closed where a statement may start. -/
theorem reaches_rightBrace {text : String} {span : Span} {ts : List Token} :
    Reaches [.body, .word .rightBrace] [] (⟨.rightBrace, text, span⟩ :: ts) ts := by
  have hpop : Reaches [.body] [] (⟨.rightBrace, text, span⟩ :: ts)
      (⟨.rightBrace, text, span⟩ :: ts) := .pop rfl (by rintro _ ⟨⟩; rfl)
  exact (hpop.frame [.word .rightBrace]).trans (.step fun _ => rfl)

/-- The tokens start with a block of so many statements that with `found` more the list is too
long. -/
def LongBlock (found : Nat) (ts : List Token) : Prop :=
  ∃ used body stop rest, ts = used ++ rest ∧ ReadsBlock used body stop ∧
    maxItems < found + body.length

/-- A statement before a block takes the place of one that was found. -/
theorem LongBlock.stmt {found : Nat} {ends used ts : List Token} {s : SourceStmt}
    (h : LongBlock (found + 1) ts) (he : Terminators ends) (hs : ReadsStmt used s)
    (hterm : atTerminator ts) : LongBlock found (ends ++ (used ++ ts)) := by
  obtain ⟨us, body, stop, rest, rfl, hb, hl⟩ := h
  rw [hb.atTerminator_append] at hterm
  refine ⟨ends ++ used ++ us, s :: body, stop, rest, by simp, .stmt he hs hterm hb, ?_⟩
  rw [List.length_cons]
  omega

/-- The statements of a block and its closing brace are read as the table has it; it fails where the
block is too long with the statements that were found before. -/
def FollowsBlock (found : Nat) (ts : List Token) :
    Step ((List SourceStmt × Span) × List Token) → Prop
  | .ok (_, rest) => Reaches [.body, .word .rightBrace] [] ts rest
  | .error (.expected _ rest) => Halts [.body, .word .rightBrace] ts rest
  | .error (.tooManyItems _) => Long ts ∨ LongBlock found ts

theorem Follows.block {β : Type} {P : β → Stack} {found : Nat} {ts : List Token} {e : Failure}
    (h : Follows [.body, .word .rightBrace] P ts (.error e)) : FollowsBlock found ts (.error e) := by
  match e, h with
  | .expected _ _, h => exact h
  | .tooManyItems _, h => exact .inl h

/-- The rest of a block is read after what is read before it. -/
theorem Reaches.followsBlock {found found' : Nat} {ts us : List Token}
    {x : Step ((List SourceStmt × Span) × List Token)}
    (h : Reaches [.body, .word .rightBrace] [.body, .word .rightBrace] ts us)
    (hlong : LongBlock found' us → LongBlock found ts) (hx : FollowsBlock found' us x) :
    FollowsBlock found ts x := by
  match x, hx with
  | .ok (_, _), hx => exact h.trans hx
  | .error (.expected _ _), hx =>
    exact ⟨hx.isSuffix.trans h.isSuffix, fun K => (h.stuck_eq K).trans (hx.stuck_eq K)⟩
  | .error (.tooManyItems _), hx => exact hx.imp (fun hx => hx.mono h.isSuffix) hlong

theorem follows_stmts {fuel opening steps : Nat} : ∀ {found : List SourceStmt} {ts : List Token},
    4 * ts.length + 4 ≤ fuel → ts.length + 1 ≤ steps →
      FollowsBlock found.length ts (stmts fuel opening steps found ts) := by
  induction steps with
  | zero => exact fun _ hs => absurd hs (by omega)
  | succ steps ih =>
    intro found ts hf hs
    have hskip := (reaches_skipTerminators (s := .body) rfl rfl ts).frame [.word .rightBrace]
    have hlen := hskip.isSuffix.length_le
    obtain ⟨ends, hends, hts⟩ := skipTerminators_eq ts
    unfold stmts
    split
    · rename_i _ text span rest hbrace
      rw [hbrace] at hskip hts
      unfold checkLength
      by_cases hl : found.length ≤ maxItems
      · rw [if_pos hl]
        exact hskip.trans reaches_rightBrace
      · rw [if_neg hl]
        exact .inr ⟨ends ++ [⟨.rightBrace, text, span⟩], [], span, rest, by rw [hts]; simp,
          .close hends, Nat.lt_of_not_le hl⟩
    · rename_i hopen
      have hat : atStatement (skipTerminators ts) := atStatement_skipTerminators fun h => by
        obtain ⟨text, span, rest, hrest⟩ := next?_eq_some.1 h
        exact hopen text span rest hrest
      have hstmt : Follows _ _ _ (stmt fuel _) := follows_stmt hat (by omega)
      cases hx : stmt fuel (skipTerminators ts) with
      | error err => exact (hskip.follows (hx ▸ hstmt)).block
      | ok p =>
        obtain ⟨s, us⟩ := p
        rw [hx] at hstmt
        have hreach := hskip.trans hstmt
        obtain ⟨used, hused, hr⟩ := stmt_sound hx
        rw [hused] at hts
        have hlt : us.length < ts.length := by
          obtain ⟨t, vs, rfl, -⟩ := hr.starts
          rw [hts]
          simp only [List.length_append, List.length_cons]
          omega
        rw [ok_bind]
        dsimp only
        split
        · rename_i hterm
          refine (hreach.trans (reaches_moreBody hterm)).followsBlock (fun hlong => ?_)
            (@ih (s :: found) us (by omega) (by omega))
          rw [hts]
          exact hlong.stmt hends hr hterm
        · rename_i hterm
          exact Follows.block (P := fun _ : Unit => [])
            (hreach.follows (x := .error (.expected .statementEnd us)) (halts_moreBody hterm))

/-- A list of parameters that is too long is a long list. -/
theorem ReadsParams.long {used rest : List Token} {ps : List (Param String)}
    (h : ReadsParams used ps) (hl : maxItems < ps.length) : Long (used ++ rest) := by
  cases h with
  | none => exact absurd hl (Nat.not_lt_zero _)
  | some h =>
    exact ⟨used, ⟨[], rest, rfl⟩, .parameters (h.separated NoGap.kinds ReadsParam.parameter) hl⟩

/-- A list of result types that is too long is a long list. -/
theorem ReadsResults.long {used rest : List Token} {rs : List (TypeRef String)}
    (h : ReadsResults used rs) (hl : maxItems < rs.length) : Long (used ++ rest) := by
  cases h with
  | none => exact absurd hl (Nat.not_lt_zero _)
  | one => exact absurd hl (by simp [maxItems])
  | @many x y start stop ts types h =>
    exact ⟨ts, ⟨[⟨.leftParen, x, start⟩], ⟨.rightParen, y, stop⟩ :: rest, by simp⟩,
      .identifiers (h.separated NoGap.kinds ReadsType.identifier) hl⟩

theorem ReadsStmt.statement {ts : List Token} {s : SourceStmt} (h : ReadsStmt ts s) :
    Grammar.Statement false (kinds ts) := by
  cases h with
  | declared hns =>
    have hnames := hns.separated NoGap.kinds ReadsName.identifier
    have htype : Grammar.Identifier [.ident] := rfl
    simpa using Grammar.Statement.declaration hnames (.inr htype) .none (.inr (.inl (by simp)))
  | initialized hns _ hty hvs =>
    have hnames := hns.separated NoGap.kinds ReadsName.identifier
    simpa using Grammar.Statement.declaration hnames hty.word (.some hvs.expressions)
      (.inr (.inr (by simp)))
  | done => exact .done
  | ret hts => exact .ret hts.expressions
  | assign hts hvs => simpa using Grammar.Statement.assignment hts.expressions hvs.expressions
  | expr he => exact .expression he.worded.expression

/-- What stands before the closing brace of a block are its statements. In a block that may stand after
a statement they come after a terminator, if there are any. -/
theorem ReadsBlock.body {ts : List Token} {body : List SourceStmt} {stop : Span}
    (h : ReadsBlock ts body stop) : ∃ w, kinds ts = w ++ [.rightBrace] ∧
      Grammar.Body false body.length w ∧
        (atTerminator ts → w = [] ∧ body = [] ∨ ∃ kind w', w = kind :: w' ∧
          Grammar.Terminator kind ∧ Grammar.Body false body.length w') := by
  induction h with
  | @close ends x span he =>
    refine ⟨kinds ends, by simp, .none he.kinds, fun _ => ?_⟩
    cases ends with
    | nil => exact .inl ⟨rfl, rfl⟩
    | cons t ends =>
      exact .inr ⟨t.kind, kinds ends, rfl, he t List.mem_cons_self,
        .none fun kind hk => he.kinds kind (List.mem_cons_of_mem _ hk)⟩
  | @stmt ends ts us s ss span he hs hat _ ih =>
    obtain ⟨w, hw, hbody, hrest⟩ := ih
    have hlonger {gap : Grammar.Word} (hg : Grammar.Terminators gap) :
        Grammar.Body false (s :: ss).length (gap ++ kinds ts ++ w) := by
      rcases hrest hat with ⟨rfl, rfl⟩ | ⟨kind, w', rfl, hk, hbody'⟩
      · rw [List.append_nil]
        exact .last hg hs.statement
      · exact .cons hg hs.statement hk hbody'
    refine ⟨kinds ends ++ kinds ts ++ w, by simp [hw], hlonger he.kinds, fun hat' => .inr ?_⟩
    cases ends with
    | nil =>
      obtain ⟨t, ts, rfl, ht⟩ := hs.starts
      rcases atTerminator_iff.1 hat' with h | ⟨kind, hk, h⟩
      · cases h
      · obtain rfl : t.kind = kind := Option.some.inj hk
        rcases h with h | h | h <;> simp [h, startsStmt, Parser.starts] at ht
    | cons t ends =>
      exact ⟨t.kind, kinds ends ++ kinds ts ++ w, by simp, he t List.mem_cons_self,
        hlonger fun kind hk => he.kinds kind (List.mem_cons_of_mem _ hk)⟩

/-- A block that is too long is a long list with its opening brace. -/
theorem LongBlock.long {t : Token} {ts : List Token} (ht : t.kind = .leftBrace)
    (h : LongBlock 0 ts) : Long (t :: ts) := by
  obtain ⟨used, body, stop, rest, rfl, hb, hl⟩ := h
  obtain ⟨w, hw, hbody, -⟩ := hb.body
  refine ⟨t :: used, ⟨[], rest, rfl⟩, ?_⟩
  rw [kinds_cons, ht, hw]
  exact .block hbody (by simpa using hl)

theorem FollowsBlock.follows {t : Token} {ts : List Token} (ht : t.kind = .leftBrace)
    {x : Step ((List SourceStmt × Span) × List Token)} (h : FollowsBlock 0 ts x) :
    Follows [.word .leftBrace, .body, .word .rightBrace] (fun _ => []) (t :: ts) x := by
  have hopen : Reaches [.word .leftBrace, .body, .word .rightBrace] [.body, .word .rightBrace]
      (t :: ts) ts := .step fun K => by simp [Grammar.step, Symbol.after_word, ht]
  cases x with
  | ok => exact hopen.trans h
  | error e =>
    cases e with
    | expected =>
      exact ⟨h.isSuffix.trans hopen.isSuffix, fun K => (hopen.stuck_eq K).trans (h.stuck_eq K)⟩
    | tooManyItems =>
      rcases h with h | h
      · exact h.mono hopen.isSuffix
      · exact h.long ht

/-! ### Functions -/

/-- A written type is read where the table has no other token. -/
theorem follows_typeRef {s : Symbol} {ts : List Token} (hs : s.optional = false)
    (hident : s.after .ident = some [])
    (hother : ∀ kind, next? ts = some kind → kind ≠ .ident → s.after kind = none) :
    Follows [s] (fun _ => []) ts (typeRef ts) := by
  unfold typeRef
  split
  · exact Reaches.step fun K => by simp [Grammar.step, hident]
  · rename_i hne
    refine Halts.here hs fun kind hk => hother kind hk ?_
    rintro rfl
    obtain ⟨text, span, rest, rfl⟩ := next?_eq_some.1 hk
    exact hne text span rest rfl

theorem follows_type (ts : List Token) : Follows [.word .ident] (fun _ => []) ts (typeRef ts) :=
  follows_typeRef rfl rfl fun _ _ hne => by simp [Symbol.after_word, hne]

theorem follows_param (ts : List Token) :
    Follows [.word .ident, .paramType] (fun _ => []) ts (param ts) := by
  unfold param
  refine ((follows_token .ident ts).frame [.paramType]).bind fun name us _ hr => ?_
  dsimp only
  split
  · rename_i x span us' _
    have hellipsis : Reaches [.paramType] [.word .ident] (⟨.ellipsis, x, span⟩ :: us') us' :=
      .step fun _ => rfl
    exact ((hr.trans hellipsis).follows (follows_type us')).bind fun _ _ _ h => h
  · rename_i hne
    refine (hr.follows (follows_typeRef rfl rfl fun kind hk hident => ?_)).bind fun _ _ _ h => h
    cases kind with
    | ident => exact absurd rfl hident
    | ellipsis =>
      obtain ⟨text, span, rest, rfl⟩ := next?_eq_some.1 hk
      exact (hne text span rest rfl).elim
    | _ => rfl

/-- Where parameters may stand there is one, except in front of the closing parenthesis. -/
theorem reaches_params {ts : List Token} (h : next? ts ≠ some .rightParen) :
    Reaches [.params, .word .rightParen] [.word .ident, .paramType, .moreParams, .word .rightParen]
      ts ts := by
  refine ⟨List.suffix_rfl, fun K => ?_⟩
  rcases ts with _ | ⟨⟨kind, text, span⟩, ts⟩
  · rfl
  · cases kind <;> first | rfl | exact absurd rfl h

theorem follows_params {fuel : Nat} {ts : List Token} (hf : ts.length + 1 ≤ fuel) :
    Follows [.params, .word .rightParen] (fun _ => [.word .rightParen]) ts (params fuel ts) := by
  unfold params
  split
  · rename_i hp
    refine (Reaches.pop (s := .params) rfl fun kind hk => ?_).frame [.word .rightParen]
    obtain rfl : TokenKind.rightParen = kind := Option.some.inj (hp.symm.trans hk)
    rfl
  · rename_i hp
    have hlist : Follows [.word .ident, .paramType, .moreParams] (fun _ => []) ts
        (commaList id param fuel [] ts) := by
      refine follows_items (I := [.word .ident, .paramType]) rfl rfl Grammar.after_moreParams
        follows_param (fun h => ?_) param_sound hf
      obtain ⟨used, rfl, hu⟩ := param_sound h
      cases hu <;> simp only [List.length_append, List.length_cons, List.length_nil] <;> omega
    exact (reaches_params hp).follows (hlist.frame [.word .rightParen])

theorem follows_results {fuel : Nat} {ts : List Token} (hf : ts.length + 1 ≤ fuel) :
    Follows [.results] (fun _ => []) ts (results fuel ts) := by
  unfold results
  split
  · exact Reaches.step fun _ => rfl
  · rename_i _ x span us
    rw [List.length_cons] at hf
    have hopen : Reaches [.results] [.word .ident, .moreIdents, .word .rightParen]
        (⟨.leftParen, x, span⟩ :: us) us := .step fun _ => rfl
    have hlist : Follows [.word .ident, .moreIdents] (fun _ => []) us
        (commaList id typeRef fuel [] us) := by
      refine follows_items (I := [.word .ident]) rfl rfl Grammar.after_moreIdents follows_type
        (fun h => ?_) typeRef_sound (by omega)
      obtain ⟨used, rfl, hu⟩ := typeRef_sound h
      cases hu
      exact Nat.lt_succ_self _
    refine (hopen.follows (hlist.frame [.word .rightParen])).bind fun types vs _ hr => ?_
    exact (hr.follows (follows_token .rightParen vs)).bind fun _ _ _ h => h
  · rename_i hident hparen
    refine Reaches.pop rfl fun kind hk => ?_
    obtain ⟨text, span, rest, rfl⟩ := next?_eq_some.1 hk
    cases kind with
    | ident => exact (hident text span rest rfl).elim
    | leftParen => exact (hparen text span rest rfl).elim
    | _ => rfl

/-- A function is read as the table has it. -/
theorem follows_function {fuel : Nat} {t : Token} {ts : List Token} (ht : t.kind = .func)
    (hf : 4 * (t :: ts).length + 4 ≤ fuel) :
    Follows [.file] (fun _ => [.file]) (t :: ts) (function fuel (t :: ts)) := by
  rw [List.length_cons] at hf
  have hstart : Reaches [.file] [.word .ident, .word .leftParen, .params, .word .rightParen,
      .results, .word .leftBrace, .body, .word .rightBrace, .file] (t :: ts) ts :=
    .step fun K => by rw [ht]; rfl
  unfold function
  simp only [token, ht, if_true]
  rw [ok_bind]
  refine (hstart.follows ((follows_token .ident ts).frame _)).bind fun name us₁ _ h₁ => ?_
  refine (h₁.follows ((follows_token .leftParen us₁).frame _)).bind fun _ us₂ _ h₂ => ?_
  have hlen₂ := h₂.isSuffix.length_le
  rw [List.length_cons] at hlen₂
  refine (h₂.follows ((follows_params (by omega)).frame _)).bind fun ps us₃ hps h₃ => ?_
  refine (h₃.follows ((follows_token .rightParen us₃).frame _)).bind fun _ us₄ _ h₄ => ?_
  refine .checkLength (fun hl => ?_) ?_
  · obtain ⟨used, rfl, hparams⟩ := params_sound hps
    exact (hparams.long hl).mono h₂.isSuffix
  have hlen₄ := h₄.isSuffix.length_le
  rw [List.length_cons] at hlen₄
  refine (h₄.follows ((follows_results (by omega)).frame _)).bind fun rs us₅ hrs h₅ => ?_
  refine .checkLength (fun hl => ?_) ?_
  · obtain ⟨used, rfl, hresults⟩ := results_sound hrs
    exact (hresults.long hl).mono h₄.isSuffix
  refine (h₅.follows ((follows_token .leftBrace us₅).frame _)).bind fun opening us₆ hopen _ => ?_
  obtain ⟨rfl, hbrace⟩ := token_eq_ok.1 hopen
  have hlen₅ := h₅.isSuffix.length_le
  rw [List.length_cons, List.length_cons] at hlen₅
  have hstmts : FollowsBlock 0 us₆ (stmts fuel opening.span.start fuel [] us₆) :=
    follows_stmts (by omega) (by omega)
  have hblock := hstmts.follows hbrace
  exact (h₅.follows (hblock.frame [.file])).bind fun _ _ _ h => h

/-! ### Files -/

/-- What the parser makes of all tokens is what the table makes of them. -/
def FollowsFile {β : Type} (ts : List Token) : Step β → Prop
  | .ok _ => stuck [.file] (kinds ts) = none
  | .error (.expected _ rest) => rest <:+ ts ∧ stuck [.file] (kinds ts) = some (kinds rest)
  | .error (.tooManyItems _) => Long ts

theorem Follows.file {β γ : Type} {P : γ → Stack} {ts : List Token} {e : Failure}
    (h : Follows [.file] P ts (.error e)) : FollowsFile ts (.error e : Step β) := by
  match e, h with
  | .expected _ _, h =>
    have hstuck := h.stuck_eq []
    rw [List.append_nil] at hstuck
    exact ⟨h.isSuffix, hstuck⟩
  | .tooManyItems _, h => exact h

theorem Reaches.followsFile {β : Type} {ts us : List Token} {x : Step β}
    (h : Reaches [.file] [.file] ts us) (hx : FollowsFile us x) : FollowsFile ts x := by
  have hstuck := h.stuck_eq []
  rw [List.append_nil] at hstuck
  match x, hx with
  | .ok _, hx => exact hstuck.trans hx
  | .error (.expected _ _), hx => exact ⟨hx.1.trans h.isSuffix, hstuck.trans hx.2⟩
  | .error (.tooManyItems _), hx => exact Long.mono hx h.isSuffix

/-- Between functions no token but `func` fits where there is no terminator. -/
theorem followsFile_stray {β : Type} {what : Expectation} {ts : List Token} {kind : TokenKind}
    (hk : next? ts = some kind) (hterm : kind ≠ .newline ∧ kind ≠ .semicolon) (hfunc : kind ≠ .func) :
    FollowsFile ts (.error (.expected what ts) : Step β) := by
  obtain ⟨text, span, rest, rfl⟩ := next?_eq_some.1 hk
  have hstep : Grammar.step [.file] kind = none := by
    cases kind with
    | newline => exact absurd rfl hterm.1
    | semicolon => exact absurd rfl hterm.2
    | func => exact absurd rfl hfunc
    | _ => rfl
  refine ⟨List.suffix_rfl, ?_⟩
  simp only [kinds_cons, stuck, hstep]

theorem follows_functions {fuel steps : Nat} : ∀ {found : List SourceFunction} {ts : List Token},
    4 * ts.length + 4 ≤ fuel → ts.length + 1 ≤ steps →
      FollowsFile ts (functions fuel steps found ts) := by
  induction steps with
  | zero => exact fun _ hs => absurd hs (by omega)
  | succ steps ih =>
    intro found ts hf hs
    have hskip := reaches_skipTerminators (s := .file) rfl rfl ts
    refine hskip.followsFile ?_
    have hlen := hskip.isSuffix.length_le
    unfold functions
    split
    · rename_i hnil
      rw [hnil]
      rfl
    · rename_i hne
      obtain ⟨t, us, hus⟩ := List.exists_cons_of_ne_nil hne
      have hterm : t.kind ≠ .newline ∧ t.kind ≠ .semicolon :=
        next?_skipTerminators ts (by rw [hus]; rfl)
      rw [hus] at hlen ⊢
      rw [List.length_cons] at hlen
      by_cases ht : t.kind = .func
      · have hfun : Follows _ _ _ (function fuel (t :: us)) :=
          follows_function ht (by rw [List.length_cons]; omega)
        cases hx : function fuel (t :: us) with
        | error e => exact (hx ▸ hfun : Follows _ _ _ _).file
        | ok p =>
          obtain ⟨f, vs⟩ := p
          rw [hx] at hfun
          obtain ⟨used, hused, hr⟩ := function_sound hx
          have hlt : vs.length < (t :: us).length := by
            cases hr
            rw [hused]
            simp only [List.length_append, List.length_cons]
            omega
          rw [List.length_cons] at hlt
          exact Reaches.followsFile hfun (ih (by omega) (by omega))
      · have herror : function fuel (t :: us) = .error (.expected (.token .func) (t :: us)) := by
          unfold function
          simp only [token, ht, if_false]
          rfl
        rw [herror]
        exact followsFile_stray rfl hterm ht

end Parser

open Recast.Parser (kinds)

/-- The error stands at the first token that no file has after the tokens before it, or at the end if
all tokens are the start of a file. -/
def Lexed.Blames (lexed : Lexed) (pos : Nat) (found : Option TokenKind) : Prop :=
  ∃ before after, lexed.tokens = before ++ after ∧ Grammar.Viable false (kinds before) ∧
    found = after.head?.map Token.kind ∧
      match after with
      | [] => pos = lexed.stop
      | t :: _ => pos = t.span.start ∧ ¬ Grammar.Viable false (kinds before ++ [t.kind])

/-- What the parser says of a text without long lists: it gives a program if the tokens are a file, and
else it blames a token. -/
theorem Lexed.parse_blames {lexed : Lexed}
    (hshort : ∀ ts, ts <:+: lexed.tokens → ¬ Grammar.LongList false (kinds ts)) :
    (Grammar.File false (kinds lexed.tokens) ∧ ∃ tree, lexed.parse = .ok tree) ∨
      (¬ Grammar.File false (kinds lexed.tokens) ∧ ∃ pos what found,
        lexed.parse = .error (.expected pos what found) ∧ lexed.Blames pos found) := by
  have hfollows : Parser.FollowsFile lexed.tokens (Parser.functions
      (Parser.enoughFuel lexed.tokens) (Parser.enoughFuel lexed.tokens) [] lexed.tokens) :=
    Parser.follows_functions (by unfold Parser.enoughFuel; omega)
      (by unfold Parser.enoughFuel; omega)
  unfold Lexed.parse
  match hx : Parser.functions (Parser.enoughFuel lexed.tokens) (Parser.enoughFuel lexed.tokens) []
      lexed.tokens with
  | .ok functions =>
    rw [hx] at hfollows
    exact .inl ⟨Grammar.stuck_eq_none_iff.1 hfollows, ⟨functions, lexed.trivia⟩, by simp only [hx]⟩
  | .error (.tooManyItems _) =>
    rw [hx] at hfollows
    obtain ⟨us, hus, hlong⟩ := hfollows
    exact absurd hlong (hshort us hus)
  | .error (.expected what rest) =>
    rw [hx] at hfollows
    obtain ⟨⟨before, hbefore⟩, hstuck⟩ := hfollows
    refine .inr ⟨fun h => ?_, ?_⟩
    · cases (Grammar.stuck_eq_none_iff.2 h).symm.trans hstuck
    · rw [← hbefore, Parser.kinds_append] at hstuck
      have hviable := Grammar.viable_of_stuck hstuck
      cases rest with
      | nil => exact ⟨lexed.stop, what, none, by simp only [hx]; rfl, before, [], hbefore.symm, hviable,
          rfl, rfl⟩
      | cons t rest =>
        exact ⟨t.span.start, what, some t.kind, by simp only [hx]; rfl, before, t :: rest,
          hbefore.symm, hviable, rfl, rfl, Grammar.not_viable_of_stuck hstuck⟩

/-- A text that lexes and has no long list is read exactly if its tokens are a file of the grammar.
Otherwise the error blames the first token that cannot follow the tokens before it. -/
theorem parse_accepts_grammar {source : String} {lexed : Lexed} (hlex : lex source = .ok lexed)
    (hshort : ∀ ts, ts <:+: lexed.tokens → ¬ Grammar.LongList false (kinds ts)) :
    ((∃ tree, parse source = .ok tree) ↔ Grammar.File false (kinds lexed.tokens)) ∧
      (¬ Grammar.File false (kinds lexed.tokens) → ∃ pos what found,
        parse source = .error (.expected pos what found) ∧ lexed.Blames pos found) := by
  have hparse : parse source = lexed.parse := by
    rw [parse, hlex]
    rfl
  rw [hparse]
  rcases Lexed.parse_blames hshort with ⟨hfile, htree⟩ | ⟨hfile, pos, what, found, he, hb⟩
  · exact ⟨iff_of_true htree hfile, fun h => absurd hfile h⟩
  · refine ⟨iff_of_false ?_ hfile, fun _ => ⟨pos, what, found, he, hb⟩⟩
    rintro ⟨tree, htree⟩
    rw [he] at htree
    cases htree

/-! ### Declarations without a type and values -/

/-- In a short text there is no long list. -/
theorem Grammar.not_longList {bare : Bool} {ts us : List Token} (h : us.length ≤ maxItems)
    (hts : ts <:+: us) : ¬ LongList bare (kinds ts) := by
  intro hlong
  have hlt := hlong.lt_length
  have hle := hts.length_le
  rw [kinds, List.length_map] at hlt
  omega

/-- A block that is not closed: all tokens are the start of a file. -/
theorem parse_accepts_grammar_unclosed :
    ∃ lexed, lex "func f() \x7b\n" = .ok lexed ∧
      (∀ ts, ts <:+: lexed.tokens → ¬ Grammar.LongList false (kinds ts)) ∧
      ((∃ tree, parse "func f() \x7b\n" = .ok tree) ↔ Grammar.File false (kinds lexed.tokens)) ∧
      ∃ pos what found, parse "func f() \x7b\n" = .error (.expected pos what found) ∧
        lexed.Blames pos found := by
  have hlexed : (lex "func f() \x7b\n").toOption.any (fun lexed => lexed.tokens.length = 6) = true := by
    decide +kernel
  have hparse : (parse "func f() \x7b\n").toOption.isNone = true := by
    decide +kernel
  obtain ⟨lexed, hlex, hlength⟩ := exists_lex _ hlexed
  have hshort : ∀ ts, ts <:+: lexed.tokens → ¬ Grammar.LongList false (kinds ts) := fun ts hts =>
    Grammar.not_longList (by rw [of_decide_eq_true hlength]; decide) hts
  obtain ⟨hiff, hblames⟩ := parse_accepts_grammar hlex hshort
  refine ⟨lexed, hlex, hshort, hiff, hblames fun hfile => ?_⟩
  obtain ⟨tree, htree⟩ := hiff.2 hfile
  rw [htree] at hparse
  cases hparse

/-- A declaration with neither a type nor values is not read, although the grammar would have it if
both could be left out. -/
theorem bare_declaration_refused :
    ∃ lexed, lex "func f() \x7b\n\tvar x\n\x7d\n" = .ok lexed ∧
      (∀ ts, ts <:+: lexed.tokens → ¬ Grammar.LongList true (kinds ts)) ∧
      Grammar.File true (kinds lexed.tokens) ∧
      ∀ tree, parse "func f() \x7b\n\tvar x\n\x7d\n" ≠ .ok tree := by
  have hlexed : (lex "func f() \x7b\n\tvar x\n\x7d\n").toOption.any (fun lexed => kinds lexed.tokens =
      [.func, .ident, .leftParen, .rightParen, .leftBrace, .newline, .var, .ident, .newline,
        .rightBrace, .newline]) = true := by
    decide +kernel
  have hparse : (parse "func f() \x7b\n\tvar x\n\x7d\n").toOption.isNone = true := by
    decide +kernel
  obtain ⟨lexed, hlex, hkinds⟩ := exists_lex _ hlexed
  have hkinds := of_decide_eq_true hkinds
  have hlength : lexed.tokens.length ≤ maxItems := by
    have := congrArg List.length hkinds
    rw [kinds, List.length_map] at this
    rw [this]
    decide
  refine ⟨lexed, hlex, fun ts hts => Grammar.not_longList hlength hts, ?_, fun tree htree => ?_⟩
  · have hnewline : Grammar.Terminators [.newline] := by
      rintro _ (_ | ⟨_, ⟨⟩⟩)
      exact .inl rfl
    have hvar : Grammar.Statement true [.var, .ident] :=
      @Grammar.Statement.declaration true 1 [.ident] [] [] (.one rfl) (.inl rfl) .none (.inl rfl)
    have hbody : Grammar.Body true 1 [.newline, .var, .ident, .newline] :=
      .cons hnewline hvar (.inl rfl) (.none nofun)
    have hempty : Grammar.Terminators [] := nofun
    have hfile := Grammar.File.cons hempty (.mk .none .none hbody) (.none hnewline)
    rw [hkinds]
    exact hfile
  · rw [htree] at hparse
    cases hparse

end Recast
