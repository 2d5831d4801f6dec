import Recast.Parser

/-!
# The grammar of expressions

`Reads m ts e` says that the tokens `ts` are an expression with the tree `e` in which operators
outside parentheses and arguments bind at least as tightly as `m`. The parser finds only such trees
(`binary_sound`), and finds them (`complete`).
-/

namespace Recast

namespace Parser

/-- Tokens that may stand between the lines of an expression. -/
def Newlines (ts : List Token) : Prop := ∀ t ∈ ts, t.kind = .newline

mutual

/-- The tokens are an expression whose operators bind at least as tightly as `m`. -/
inductive Reads : (m : Nat) → List Token → SourceExpr → Prop
  | literal {m : Nat} {kind : LiteralKind} {text : String} {span : Span} :
      Reads m [⟨.literal kind, text, span⟩] (.literal span kind text)
  | name {m : Nat} {text : String} {span : Span} : Reads m [⟨.ident, text, span⟩] (.name span text)
  | paren {m : Nat} {x y : String} {start stop : Span} {ts : List Token} {inner : SourceExpr} :
      Reads 0 ts inner →
        Reads m (⟨.leftParen, x, start⟩ :: ts ++ [⟨.rightParen, y, stop⟩])
          (.paren (start.merge stop) inner)
  | call {m : Nat} {x y : String} {start stop : Span} {cs newlines as : List Token}
      {callee : SourceExpr} {args : List SourceExpr} :
      Reads 7 cs callee → Newlines newlines → ReadsArgs as args → args.length ≤ maxItems →
        Reads m (cs ++ ⟨.leftParen, x, start⟩ :: newlines ++ as ++ [⟨.rightParen, y, stop⟩])
          (.call (callee.span.merge stop) callee args)
  | neg {m : Nat} {x : String} {span : Span} {ts : List Token} {operand : SourceExpr} :
      m ≤ 6 → Reads 6 ts operand →
        Reads m (⟨.op .sub, x, span⟩ :: ts) (.neg (span.merge operand.span) operand)
  | binary {m : Nat} {op : BinaryOp} {x : String} {span : Span} {ls newlines rs : List Token}
      {left right : SourceExpr} :
      m ≤ op.precedence → Reads op.precedence ls left → Newlines newlines →
        Reads (op.precedence + 1) rs right →
          Reads m (ls ++ ⟨.op op, x, span⟩ :: newlines ++ rs)
            (.binary (left.span.merge right.span) op left right)

/-- The tokens are the arguments of a call, up to the closing parenthesis. -/
inductive ReadsArgs : List Token → List SourceExpr → Prop
  | none : ReadsArgs [] []
  | last {ts newlines : List Token} {e : SourceExpr} :
      Reads 0 ts e → Newlines newlines → ReadsArgs (ts ++ newlines) [e]
  | cons {ts before after as : List Token} {x : String} {s : Span} {e : SourceExpr}
      {es : List SourceExpr} :
      Reads 0 ts e → Newlines before → Newlines after → ReadsArgs as es →
        ReadsArgs (ts ++ before ++ ⟨.comma, x, s⟩ :: after ++ as) (e :: es)

end

theorem precedence_le (op : BinaryOp) : op.precedence ≤ 5 := by cases op <;> decide

theorem Reads.mono {m n : Nat} {ts : List Token} {e : SourceExpr} (h : Reads n ts e)
    (hm : m ≤ n) : Reads m ts e := by
  cases h with
  | literal => exact .literal
  | name => exact .name
  | paren h => exact .paren h
  | call hc hn ha hl => exact .call hc hn ha hl
  | neg hn h => exact .neg (Nat.le_trans hm hn) h
  | binary hn hl hw hr => exact .binary (Nat.le_trans hm hn) hl hw hr

/-- Nothing follows that an expression of operators that bind at least as tightly as `m` could go on
with. -/
structure Ends (m : Nat) (rest : List Token) : Prop where
  paren : next? rest ≠ some .leftParen
  op : ∀ op, next? rest = some (.op op) → op.precedence < m

theorem next?_eq_some {ts : List Token} {kind : TokenKind} :
    next? ts = some kind ↔ ∃ text span rest, ts = ⟨kind, text, span⟩ :: rest := by
  constructor
  · intro h
    rcases ts with _ | ⟨⟨kind', text, span⟩, rest⟩
    · cases h
    · obtain rfl : kind' = kind := by simpa [next?] using h
      exact ⟨text, span, rest, rfl⟩
  · rintro ⟨text, span, rest, rfl⟩
    rfl

/-! ### Soundness -/

theorem skipNewlines_eq (ts : List Token) :
    ∃ newlines, Newlines newlines ∧ ts = newlines ++ skipNewlines ts := by
  refine ⟨ts.takeWhile (·.kind = .newline), fun t ht => ?_, List.takeWhile_append_dropWhile.symm⟩
  simpa using List.all_eq_true.1 List.all_takeWhile t ht

theorem token_eq_ok {kind : TokenKind} {ts rest : List Token} {t : Token} :
    token kind ts = .ok (t, rest) ↔ ts = t :: rest ∧ t.kind = kind := by
  unfold token
  split
  · split
    · rename_i h
      simp only [Except.ok.injEq, Prod.mk.injEq, List.cons.injEq]
      exact ⟨fun ⟨h₁, h₂⟩ => ⟨⟨h₁, h₂⟩, h₁ ▸ h⟩, fun ⟨⟨h₁, h₂⟩, _⟩ => ⟨h₁, h₂⟩⟩
    · rename_i h
      simp only [reduceCtorEq, List.cons.injEq, false_iff, not_and]
      rintro ⟨rfl, -⟩
      exact h
  · simp

theorem checkLength_eq_ok {β : Type} {items : List β} {pos : Nat} :
    checkLength items pos = .ok () ↔ items.length ≤ maxItems := by
  unfold checkLength
  split <;> simp_all

/-- What the parts of the parser do with some amount of fuel if they succeed. -/
structure Sound (fuel : Nat) : Prop where
  binary : ∀ {m ts e rest}, m ≤ 6 → binary fuel m ts = .ok (e, rest) →
    ∃ used, ts = used ++ rest ∧ Reads m used e ∧ Ends m rest
  climb : ∀ {m n ls left ts e rest}, climb fuel m left ts = .ok (e, rest) → Reads n ls left →
    m ≤ n → m ≤ 6 → Ends (n + 1) ts →
      ∃ used, ts = used ++ rest ∧ Reads m (ls ++ used) e ∧ Ends m rest
  unary : ∀ {ts e rest}, unary fuel ts = .ok (e, rest) →
    ∃ used, ts = used ++ rest ∧ Reads 6 used e ∧ next? rest ≠ some .leftParen
  operand : ∀ {ts e rest}, operand fuel ts = .ok (e, rest) →
    ∃ used, ts = used ++ rest ∧ Reads 7 used e ∧ next? rest ≠ some .leftParen
  calls : ∀ {cs callee ts e rest}, calls fuel callee ts = .ok (e, rest) → Reads 7 cs callee →
    ∃ used, ts = used ++ rest ∧ Reads 7 (cs ++ used) e ∧ next? rest ≠ some .leftParen
  args : ∀ {found ts es rest}, args fuel found ts = .ok (es, rest) →
    ∃ used more, ts = used ++ rest ∧ es = found.reverse ++ more ∧ ReadsArgs used more
  primary : ∀ {ts e rest}, primary fuel ts = .ok (e, rest) →
    ∃ used, ts = used ++ rest ∧ Reads 7 used e

namespace Sound

variable {fuel m : Nat} {ts rest : List Token} {e : SourceExpr} {found es : List SourceExpr}

theorem zero : Sound 0 := by
  constructor <;> intros <;>
    simp_all [Parser.binary, Parser.climb, Parser.unary, Parser.operand, Parser.calls, Parser.args,
      Parser.primary]

theorem binary_succ (ih : Sound fuel) (hm : m ≤ 6)
    (h : Parser.binary (fuel + 1) m ts = .ok (e, rest)) :
    ∃ used, ts = used ++ rest ∧ Reads m used e ∧ Ends m rest := by
  simp only [Parser.binary] at h
  split at h
  · cases h
  · rename_i left ts' hu
    obtain ⟨used, rfl, hl, hp⟩ := ih.unary hu
    obtain ⟨more, rfl, he, hend⟩ := ih.climb h hl hm hm
      ⟨hp, fun op _ => Nat.lt_of_le_of_lt (precedence_le op) (by decide)⟩
    exact ⟨used ++ more, by simp, he, hend⟩

/-- An operator that follows the left operand binds no more tightly than those in it, so the two
operands together are a left operand for what comes next. -/
theorem climb_succ (ih : Sound fuel) {n : Nat} {ls : List Token} {left : SourceExpr}
    (h : Parser.climb (fuel + 1) m left ts = .ok (e, rest)) (hl : Reads n ls left) (hmn : m ≤ n)
    (hm : m ≤ 6) (hend : Ends (n + 1) ts) :
    ∃ used, ts = used ++ rest ∧ Reads m (ls ++ used) e ∧ Ends m rest := by
  simp only [Parser.climb] at h
  split at h
  · rename_i op x span ts'
    split at h
    · rename_i hlt
      cases h
      refine ⟨[], rfl, by simpa using hl.mono hmn, hend.paren, fun op' hop => ?_⟩
      simp only [next?, List.head?_cons, Option.map_some, Option.some.injEq,
        TokenKind.op.injEq] at hop
      exact hop ▸ hlt
    · rename_i hlt
      split at h
      · cases h
      · rename_i right rest' hb
        obtain ⟨newlines, hn, e'⟩ := skipNewlines_eq ts'
        obtain ⟨rs, e'', hr, hend'⟩ := ih.binary (by have := precedence_le op; omega) hb
        have hop : op.precedence < n + 1 := hend.op op rfl
        have hbin : Reads op.precedence (ls ++ ⟨.op op, x, span⟩ :: newlines ++ rs)
            (.binary (left.span.merge right.span) op left right) :=
          .binary (Nat.le_refl _) (hl.mono (by omega)) hn hr
        obtain ⟨more, rfl, he, hend''⟩ := ih.climb h hbin (by omega) hm hend'
        refine ⟨⟨.op op, x, span⟩ :: newlines ++ rs ++ more, ?_, ?_, hend''⟩
        · rw [e', e'']
          simp
        · simpa using he
  · rename_i hne
    cases h
    refine ⟨[], rfl, by simpa using hl.mono hmn, hend.paren, fun op hop => ?_⟩
    obtain ⟨text, span, rest', rfl⟩ := next?_eq_some.1 hop
    exact absurd rfl (hne op text span rest')

theorem unary_succ (ih : Sound fuel) (h : Parser.unary (fuel + 1) ts = .ok (e, rest)) :
    ∃ used, ts = used ++ rest ∧ Reads 6 used e ∧ next? rest ≠ some .leftParen := by
  simp only [Parser.unary] at h
  split at h
  · split at h
    · cases h
    · rename_i hu
      cases h
      obtain ⟨used, rfl, he, hp⟩ := ih.unary hu
      exact ⟨_ :: used, rfl, .neg (Nat.le_refl _) he, hp⟩
  · obtain ⟨used, rfl, he, hp⟩ := ih.operand h
    exact ⟨used, rfl, he.mono (by decide), hp⟩

theorem operand_succ (ih : Sound fuel) (h : Parser.operand (fuel + 1) ts = .ok (e, rest)) :
    ∃ used, ts = used ++ rest ∧ Reads 7 used e ∧ next? rest ≠ some .leftParen := by
  simp only [Parser.operand] at h
  split at h
  · cases h
  · rename_i hp
    obtain ⟨used, rfl, hc⟩ := ih.primary hp
    obtain ⟨more, rfl, he, hend⟩ := ih.calls h hc
    exact ⟨used ++ more, by simp, he, hend⟩

theorem calls_succ (ih : Sound fuel) {cs : List Token} {callee : SourceExpr}
    (h : Parser.calls (fuel + 1) callee ts = .ok (e, rest)) (hc : Reads 7 cs callee) :
    ∃ used, ts = used ++ rest ∧ Reads 7 (cs ++ used) e ∧ next? rest ≠ some .leftParen := by
  simp only [Parser.calls] at h
  split at h
  · rename_i x start ts'
    split at h
    · cases h
    rename_i as ts'' ha
    split at h
    · cases h
    rename_i close ts₃ ht
    split at h
    · cases h
    rename_i hl
    obtain ⟨newlines, hn, e'⟩ := skipNewlines_eq ts'
    obtain ⟨used, more, e'', rfl, has⟩ := ih.args ha
    obtain ⟨rfl, hk⟩ := token_eq_ok.1 ht
    obtain ⟨kind, y, stop⟩ := close
    obtain rfl : kind = .rightParen := hk
    have hcall : Reads 7 (cs ++ ⟨.leftParen, x, start⟩ :: newlines ++ used
        ++ [⟨.rightParen, y, stop⟩]) (.call (callee.span.merge stop) callee as) :=
      .call hc hn has (by simpa using checkLength_eq_ok.1 hl)
    obtain ⟨last, rfl, he, hend⟩ := ih.calls h hcall
    refine ⟨⟨.leftParen, x, start⟩ :: newlines ++ used ++ [⟨.rightParen, y, stop⟩] ++ last,
      ?_, by simpa using he, hend⟩
    rw [e', e'']
    simp
  · rename_i hne
    cases h
    refine ⟨[], rfl, by simpa using hc, fun hp => ?_⟩
    obtain ⟨text, span, rest', rfl⟩ := next?_eq_some.1 hp
    exact hne text span rest' rfl

theorem args_succ (ih : Sound fuel) (h : Parser.args (fuel + 1) found ts = .ok (es, rest)) :
    ∃ used more, ts = used ++ rest ∧ es = found.reverse ++ more ∧ ReadsArgs used more := by
  simp only [Parser.args] at h
  split at h
  · cases h
    exact ⟨[], [], rfl, by simp, .none⟩
  · split at h
    · cases h
    rename_i arg ts' hb
    obtain ⟨used, rfl, he, -⟩ := ih.binary (by decide) hb
    obtain ⟨newlines, hn, e'⟩ := skipNewlines_eq ts'
    split at h
    · rename_i x span ts'' hs
      obtain ⟨newlines', hn', e''⟩ := skipNewlines_eq ts''
      obtain ⟨more, args, e₃, rfl, hargs⟩ := ih.args h
      refine ⟨_, arg :: args, ?_, by simp, .cons (x := x) (s := span) he hn hn' hargs⟩
      rw [e', hs, e'', e₃]
      simp
    · cases h
      refine ⟨used ++ newlines, [arg], ?_, by simp, .last he hn⟩
      rw [List.append_assoc, ← e']

theorem primary_succ (ih : Sound fuel) (h : Parser.primary (fuel + 1) ts = .ok (e, rest)) :
    ∃ used, ts = used ++ rest ∧ Reads 7 used e := by
  simp only [Parser.primary] at h
  split at h
  · cases h
    exact ⟨[_], rfl, .literal⟩
  · cases h
    exact ⟨[_], rfl, .name⟩
  · rename_i x span ts₁
    split at h
    · cases h
    rename_i inner ts' hb
    split at h
    · cases h
    rename_i close ts'' ht
    cases h
    obtain ⟨used, rfl, he, -⟩ := ih.binary (by decide) hb
    obtain ⟨rfl, hk⟩ := token_eq_ok.1 ht
    obtain ⟨kind, y, stop⟩ := close
    obtain rfl : kind = .rightParen := hk
    exact ⟨⟨.leftParen, x, span⟩ :: used ++ [⟨.rightParen, y, stop⟩], by simp, .paren he⟩
  · cases h

end Sound

theorem sound (fuel : Nat) : Sound fuel := by
  induction fuel with
  | zero => exact .zero
  | succ fuel ih =>
    exact {
      binary := ih.binary_succ
      climb := ih.climb_succ
      unary := ih.unary_succ
      operand := ih.operand_succ
      calls := ih.calls_succ
      args := ih.args_succ
      primary := ih.primary_succ }

/-- The parser reads nothing but what the grammar allows, as much of it as there is. -/
theorem binary_sound {fuel m : Nat} (hm : m ≤ 6) {ts rest : List Token} {e : SourceExpr}
    (h : binary fuel m ts = .ok (e, rest)) :
    ∃ used, ts = used ++ rest ∧ Reads m used e ∧ Ends m rest :=
  (sound fuel).binary hm h

/-! ### Completeness -/

/-- Kinds of token with which an expression starts; a minus sign only where `m` allows it. -/
def starts (m : Nat) : TokenKind → Prop
  | .literal _ | .ident | .leftParen => True
  | .op .sub => m ≤ 6
  | _ => False

theorem Reads.starts {m : Nat} {ts : List Token} {e : SourceExpr} (h : Reads m ts e) :
    ∃ t rest, ts = t :: rest ∧ starts m t.kind := by
  refine @Reads.rec (fun m ts _ _ => ∃ t rest, ts = t :: rest ∧ Parser.starts m t.kind)
    (fun _ _ _ => True) ?_ ?_ ?_ ?_ ?_ ?_ trivial ?_ ?_ _ _ _ h
  · exact ⟨_, _, rfl, trivial⟩
  · exact ⟨_, _, rfl, trivial⟩
  · exact fun _ _ => ⟨_, _, rfl, trivial⟩
  · rintro m x y start stop cs newlines as callee args - - - - ⟨t, rest, rfl, ht⟩ -
    refine ⟨t, _, rfl, ?_⟩
    revert ht
    cases t.kind with
    | op op => cases op <;> simp [Parser.starts]
    | _ => simp [Parser.starts]
  · exact fun hm _ _ => ⟨_, _, rfl, hm⟩
  · rintro m op x span ls newlines rs left right hm - - - ⟨t, rest, rfl, ht⟩ -
    refine ⟨t, _, rfl, ?_⟩
    revert ht
    cases t.kind with
    | op op' => cases op' <;> simp [Parser.starts]; have := precedence_le op; omega
    | _ => simp [Parser.starts]
  · exact fun _ _ _ => trivial
  · exact fun _ _ _ _ _ _ => trivial

theorem Reads.next?_append {m : Nat} {ts : List Token} {e : SourceExpr} (h : Reads m ts e)
    (rest : List Token) : ∃ kind, next? (ts ++ rest) = some kind ∧ Parser.starts m kind := by
  obtain ⟨t, ts, rfl, ht⟩ := h.starts
  exact ⟨t.kind, rfl, ht⟩

theorem Reads.next?_ne {m : Nat} {ts : List Token} {e : SourceExpr} (h : Reads m ts e)
    {kind : TokenKind} (hk : ¬ Parser.starts m kind) {rest : List Token} :
    next? (ts ++ rest) ≠ some kind := by
  obtain ⟨kind', hn, hs⟩ := h.next?_append rest
  rintro he
  rw [hn] at he
  cases he
  exact hk hs

theorem ReadsArgs.next?_ne_newline {ts rest : List Token} {es : List SourceExpr}
    (h : ReadsArgs ts es) (hr : next? rest ≠ some .newline) : next? (ts ++ rest) ≠ some .newline := by
  cases h with
  | none => exact hr
  | last h =>
    rw [List.append_assoc]
    exact h.next?_ne (by simp [starts])
  | cons h =>
    simp only [List.append_assoc]
    exact h.next?_ne (by simp [starts])

theorem skipNewlines_append {newlines rest : List Token} (h : Newlines newlines)
    (hr : next? rest ≠ some .newline) : skipNewlines (newlines ++ rest) = rest := by
  unfold skipNewlines
  rw [List.dropWhile_append_of_pos fun t ht => by simpa using h t ht]
  cases rest with
  | nil => rfl
  | cons t rest =>
    have ht : t.kind ≠ .newline := by simpa [next?] using hr
    simp [ht]

/-- After newlines an expression does not go on if it does not without them. -/
theorem Ends.newlines {m : Nat} {newlines rest : List Token} (hn : Newlines newlines)
    (h : Ends m rest) : Ends m (newlines ++ rest) := by
  cases newlines with
  | nil => exact h
  | cons t newlines =>
    have ht : t.kind = .newline := hn t (by simp)
    exact ⟨by simp [next?, ht], by simp [next?, ht]⟩

/-- What the parts of the parser do with the tokens of an expression. -/
structure Complete (m : Nat) (ts : List Token) (e : SourceExpr) : Prop where
  operand : 7 ≤ m → ∀ {rest n res}, (∀ fuel ≥ n, calls fuel e rest = res) →
    ∀ fuel ≥ n + 4 * ts.length - 2, operand fuel (ts ++ rest) = res
  unary : 6 ≤ m → ∀ {rest}, next? rest ≠ some .leftParen →
    ∀ fuel ≥ 4 * ts.length, unary fuel (ts ++ rest) = .ok (e, rest)
  binary : ∀ {m' rest n res}, m' ≤ m → Ends (m + 1) rest → 1 ≤ n →
    (∀ fuel ≥ n, climb fuel m' e rest = res) →
      ∀ fuel ≥ n + 4 * ts.length, binary fuel m' (ts ++ rest) = res

/-- What the parser does with the tokens of arguments. -/
def CompleteArgs (ts : List Token) (es : List SourceExpr) : Prop :=
  ∀ {found rest}, next? rest = some .rightParen → ∀ fuel ≥ 4 * ts.length + 2,
    args fuel found (ts ++ rest) = .ok (found.reverse ++ es, rest)

theorem climb_of_ends {m : Nat} {e : SourceExpr} {rest : List Token} (h : Ends m rest) :
    ∀ fuel ≥ 1, climb fuel m e rest = .ok (e, rest) := by
  rintro (_ | fuel) hf
  · omega
  · simp only [climb]
    split
    · rename_i op _ _ _
      rw [if_pos (h.op op rfl)]
    · rfl

theorem calls_of_ne {e : SourceExpr} {rest : List Token} (h : next? rest ≠ some .leftParen) :
    ∀ fuel ≥ 1, calls fuel e rest = .ok (e, rest) := by
  rintro (_ | fuel) hf
  · omega
  · simp only [calls]
    split
    · exact absurd rfl h
    · rfl

/-- The result for an expression whose operators are read by one call of `binary`. -/
theorem Complete.result {m : Nat} {ts : List Token} {e : SourceExpr} (h : Complete m ts e)
    {m' : Nat} (hm : m' ≤ m) {rest : List Token} (hend : Ends m' rest) :
    ∀ fuel ≥ 4 * ts.length + 1, Parser.binary fuel m' (ts ++ rest) = .ok (e, rest) := by
  intro fuel hf
  exact h.binary hm ⟨hend.paren, fun op ho => by have := hend.op op ho; omega⟩ (Nat.le_refl 1)
    (climb_of_ends hend) fuel (by omega)

/-- An expression that `operand` reads, `unary` and `binary` read as well. -/
theorem Complete.ofOperand {m : Nat} {ts : List Token} {e : SourceExpr} (hne : ts ≠ [])
    (hs : ∀ x s r, ts ≠ ⟨.op .sub, x, s⟩ :: r)
    (h : ∀ {rest n res}, (∀ fuel ≥ n, calls fuel e rest = res) →
      ∀ fuel ≥ n + 4 * ts.length - 2, Parser.operand fuel (ts ++ rest) = res) :
    Complete m ts e := by
  have hlen : 1 ≤ ts.length := List.length_pos_iff.2 hne
  have unary {rest : List Token} (hr : next? rest ≠ some .leftParen) :
      ∀ fuel ≥ 4 * ts.length, Parser.unary fuel (ts ++ rest) = .ok (e, rest) := by
    rintro (_ | fuel) hf
    · omega
    · simp only [Parser.unary]
      split
      · rename_i x s r he
        obtain ⟨t, ts, rfl⟩ := List.exists_cons_of_ne_nil hne
        simp only [List.cons_append, List.cons.injEq] at he
        exact absurd (he.1 ▸ rfl) (hs x s ts)
      · exact h (calls_of_ne hr) fuel (by omega)
  exact {
    operand := fun _ => h
    unary := fun _ => unary
    binary := by
      rintro m' rest n res hm hend hn hc (_ | fuel) hf
      · omega
      · simp only [Parser.binary, unary hend.paren fuel (by omega)]
        exact hc fuel (by omega) }

/-- An expression that `primary` reads is read as an operand that nothing has been called on. -/
theorem Complete.ofPrimary {m : Nat} {ts : List Token} {e : SourceExpr} (hne : ts ≠ [])
    (hs : ∀ x s r, ts ≠ ⟨.op .sub, x, s⟩ :: r)
    (h : ∀ rest, ∀ fuel ≥ 4 * ts.length - 3, Parser.primary fuel (ts ++ rest) = .ok (e, rest)) :
    Complete m ts e := by
  have hlen : 1 ≤ ts.length := List.length_pos_iff.2 hne
  refine .ofOperand hne hs fun {rest n res} hc => ?_
  rintro (_ | fuel) hf
  · omega
  · simp only [Parser.operand, h rest fuel (by omega)]
    exact hc fuel (by omega)

theorem complete_literal {m : Nat} {kind : LiteralKind} {text : String} {span : Span} :
    Complete m [⟨.literal kind, text, span⟩] (.literal span kind text) := by
  refine .ofPrimary (by simp) (by simp) fun rest => ?_
  rintro (_ | fuel) hf
  · simp only [List.length_cons, List.length_nil] at hf
    omega
  · simp only [primary, List.singleton_append]

theorem complete_name {m : Nat} {text : String} {span : Span} :
    Complete m [⟨.ident, text, span⟩] (.name span text) := by
  refine .ofPrimary (by simp) (by simp) fun rest => ?_
  rintro (_ | fuel) hf
  · simp only [List.length_cons, List.length_nil] at hf
    omega
  · simp only [primary, List.singleton_append]

theorem Complete.paren {m : Nat} {x y : String} {start stop : Span} {ts : List Token}
    {inner : SourceExpr} (h : Complete 0 ts inner) :
    Complete m (⟨.leftParen, x, start⟩ :: ts ++ [⟨.rightParen, y, stop⟩])
      (.paren (start.merge stop) inner) := by
  refine .ofPrimary (by simp) (by simp) fun rest => ?_
  rintro (_ | fuel) hf <;>
    simp only [List.length_cons, List.length_append, List.length_nil] at hf
  · omega
  · have hend : Ends 0 (⟨.rightParen, y, stop⟩ :: rest) := ⟨by simp [next?], by simp [next?]⟩
    have hi := h.result (Nat.zero_le _) hend fuel (by omega)
    simp only [List.cons_append, List.append_assoc, List.nil_append, primary, hi, token, if_true]

theorem Complete.call {m : Nat} {x y : String} {start stop : Span} {cs newlines as : List Token}
    {callee : SourceExpr} {args : List SourceExpr} (h : Complete 7 cs callee)
    (hc : Reads 7 cs callee) (hn : Newlines newlines) (ha : ReadsArgs as args)
    (hargs : CompleteArgs as args) (hl : args.length ≤ maxItems) :
    Complete m (cs ++ ⟨.leftParen, x, start⟩ :: newlines ++ as ++ [⟨.rightParen, y, stop⟩])
      (.call (callee.span.merge stop) callee args) := by
  have hs := hc.starts
  refine .ofOperand (by simp) ?_ fun {rest n res} hcont => ?_
  · rintro x' s r he
    obtain ⟨t, ts, rfl, ht⟩ := hs
    simp only [List.cons_append, List.cons.injEq] at he
    simp [he.1, starts] at ht
  · have hcalls : ∀ fuel ≥ n + 4 * as.length + 3,
        calls fuel callee (⟨.leftParen, x, start⟩ :: (newlines ++ (as
          ++ ⟨.rightParen, y, stop⟩ :: rest))) = res := by
      rintro (_ | fuel) hf
      · omega
      · have hskip : skipNewlines (newlines ++ (as ++ ⟨.rightParen, y, stop⟩ :: rest))
            = as ++ ⟨.rightParen, y, stop⟩ :: rest :=
          skipNewlines_append hn (ha.next?_ne_newline (by simp [next?]))
        have hread : Parser.args fuel [] (as ++ ⟨.rightParen, y, stop⟩ :: rest)
            = .ok (args, ⟨.rightParen, y, stop⟩ :: rest) := hargs rfl fuel (by omega)
        simp only [calls, hskip, hread, token, if_true, checkLength, hl]
        exact hcont fuel (by omega)
    intro fuel hf
    simp only [List.length_cons, List.length_append, List.length_nil] at hf
    simpa using h.operand (Nat.le_refl 7) hcalls fuel (by omega)

theorem Complete.neg {m : Nat} {x : String} {span : Span} {ts : List Token} {operand : SourceExpr}
    (h : Complete 6 ts operand) (hm : m ≤ 6) :
    Complete m (⟨.op .sub, x, span⟩ :: ts) (.neg (span.merge operand.span) operand) := by
  have unary {rest : List Token} (hp : next? rest ≠ some .leftParen) :
      ∀ fuel ≥ 4 * (ts.length + 1), Parser.unary fuel (⟨.op .sub, x, span⟩ :: (ts ++ rest))
        = .ok (.neg (span.merge operand.span) operand, rest) := by
    rintro (_ | fuel) hf
    · omega
    · simp only [Parser.unary, h.unary (Nat.le_refl 6) hp fuel (by omega)]
  exact {
    operand := fun h7 => by omega
    unary := fun _ _ hp => unary hp
    binary := by
      rintro m' rest n res hm' hend hn hc (_ | fuel) hf <;> rw [List.length_cons] at hf
      · omega
      · simp only [List.cons_append, Parser.binary, unary hend.paren fuel (by omega)]
        exact hc fuel (by omega) }

/-- After its left operand an operator is read by `climb`, which goes on behind the right one. -/
theorem Complete.ofOperands {m : Nat} {op : BinaryOp} {x : String} {span : Span}
    {ls newlines rs : List Token} {left right : SourceExpr} (hl : Complete op.precedence ls left)
    (hr : Complete (op.precedence + 1) rs right) (hm : m ≤ op.precedence)
    (hn : Newlines newlines) (hright : Reads (op.precedence + 1) rs right) :
    Complete m (ls ++ ⟨.op op, x, span⟩ :: newlines ++ rs)
      (.binary (left.span.merge right.span) op left right) := by
  have hp := precedence_le op
  exact {
    operand := fun h7 => by omega
    unary := fun h6 => by omega
    binary := by
      rintro m' rest n res hm' hend hn' hc fuel hf
      have hclimb : ∀ fuel ≥ n + 4 * rs.length + 2, climb fuel m' left
          (⟨.op op, x, span⟩ :: (newlines ++ (rs ++ rest))) = res := by
        rintro (_ | fuel) hf
        · omega
        · have hskip : skipNewlines (newlines ++ (rs ++ rest)) = rs ++ rest :=
            skipNewlines_append hn (hright.next?_ne (by simp [starts]))
          have hends : Ends (op.precedence + 1) rest :=
            ⟨hend.paren, fun op' ho => by have := hend.op op' ho; omega⟩
          have hread := hr.result (Nat.le_refl _) hends fuel (by omega)
          have hlt : ¬ op.precedence < m' := by omega
          simp only [climb, hlt, if_false, hskip, hread]
          exact hc fuel (by omega)
      have hfollows : Ends (op.precedence + 1)
          (⟨.op op, x, span⟩ :: (newlines ++ (rs ++ rest))) :=
        ⟨by simp [next?], fun op' ho => by
          obtain rfl : op = op' := by simpa [next?] using ho
          omega⟩
      simp only [List.length_cons, List.length_append] at hf
      simpa using hl.binary (by omega) hfollows (by omega) hclimb fuel (by omega) }

namespace CompleteArgs

theorem none : CompleteArgs [] [] := by
  intro found rest hr
  rintro (_ | fuel) hf
  · omega
  · simp [args, hr]

theorem last {ts newlines : List Token} {e : SourceExpr} (h : Complete 0 ts e) (he : Reads 0 ts e)
    (hn : Newlines newlines) : CompleteArgs (ts ++ newlines) [e] := by
  intro found rest hp
  rintro (_ | fuel) hf
  · omega
  · rw [List.length_append] at hf
    have hskip : skipNewlines (newlines ++ rest) = rest := skipNewlines_append hn (by simp [hp])
    have hstart : next? (ts ++ (newlines ++ rest)) ≠ some .rightParen := he.next?_ne (by simp [starts])
    have hend : Ends 0 (newlines ++ rest) := .newlines hn ⟨by simp [hp], by simp [hp]⟩
    have hread := h.result (Nat.le_refl 0) hend fuel (by omega)
    simp only [args, hstart, if_false, List.append_assoc, hread, hskip]
    obtain ⟨text, span, rest, rfl⟩ := next?_eq_some.1 hp
    simp

theorem cons {ts before after as : List Token} {x : String} {s : Span} {e : SourceExpr}
    {es : List SourceExpr} (h : Complete 0 ts e) (he : Reads 0 ts e) (hb : Newlines before)
    (ha : Newlines after) (hes : ReadsArgs as es) (hargs : CompleteArgs as es) :
    CompleteArgs (ts ++ before ++ ⟨.comma, x, s⟩ :: after ++ as) (e :: es) := by
  intro found rest hp
  rintro (_ | fuel) hf
  · omega
  · simp only [List.length_append, List.length_cons] at hf
    have hskip : skipNewlines (before ++ ⟨.comma, x, s⟩ :: (after ++ (as ++ rest)))
        = ⟨.comma, x, s⟩ :: (after ++ (as ++ rest)) :=
      skipNewlines_append hb (by simp [next?])
    have hskip' : skipNewlines (after ++ (as ++ rest)) = as ++ rest :=
      skipNewlines_append ha (hes.next?_ne_newline (by simp [hp]))
    have hstart : next? (ts ++ (before ++ ⟨.comma, x, s⟩ :: (after ++ (as ++ rest))))
        ≠ some .rightParen := he.next?_ne (by simp [starts])
    have hend : Ends 0 (before ++ ⟨.comma, x, s⟩ :: (after ++ (as ++ rest))) :=
      .newlines hb ⟨by simp [next?], by simp [next?]⟩
    have hread := h.result (Nat.le_refl 0) hend fuel (by omega)
    have hmore : Parser.args fuel (e :: found) (as ++ rest)
        = .ok ((e :: found).reverse ++ es, rest) := hargs hp fuel (by omega)
    simp only [args, List.append_assoc, List.cons_append, hstart, if_false, hread, hskip, hskip',
      hmore]
    simp

end CompleteArgs

theorem complete {m : Nat} {ts : List Token} {e : SourceExpr} (h : Reads m ts e) :
    Complete m ts e := by
  refine @Reads.rec (fun m ts e _ => Complete m ts e) (fun ts es _ => CompleteArgs ts es) ?literal
    ?name ?paren ?call ?neg ?binary ?none ?last ?cons _ _ _ h
  case literal => exact complete_literal
  case name => exact complete_name
  case paren => exact fun _ ih => ih.paren
  case call => exact fun hc hn ha hl ih iha => ih.call hc hn ha iha hl
  case neg => exact fun hm _ ih => ih.neg hm
  case binary => exact fun hm _ hn hr ihl ihr => ihl.ofOperands ihr hm hn hr
  case none => exact CompleteArgs.none
  case last => exact fun he hn ih => CompleteArgs.last ih he hn
  case cons => exact fun he hb ha hes ih iha => CompleteArgs.cons ih he hb ha hes iha

end Parser

end Recast
