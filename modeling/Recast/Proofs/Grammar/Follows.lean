import Recast.Proofs.Grammar.Program
import Recast.Proofs.Grammar.Viable

/-!
# The parser keeps to the table

Each part of the parser reads the tokens of some symbols. If it succeeds, the table comes to the same
place; if it meets a token that it does not expect, the table is stuck there; otherwise there is a long
list among the tokens. `Follows` says this, and it is proved here for expressions. As always, there has
to be enough fuel.
-/

namespace Recast

open Grammar (Symbol Stack stuck stuck_step stuck_pop stuck_here)

namespace Parser

/-- The kinds of tokens. -/
def kinds (ts : List Token) : Grammar.Word := ts.map Token.kind

@[simp] theorem kinds_cons (t : Token) (ts : List Token) : kinds (t :: ts) = t.kind :: kinds ts :=
  rfl

@[simp] theorem kinds_append (ts us : List Token) : kinds (ts ++ us) = kinds ts ++ kinds us :=
  List.map_append

@[simp] theorem kinds_nil : kinds [] = [] := rfl

theorem head?_kinds (ts : List Token) : (kinds ts).head? = next? ts := List.head?_map

/-! ### Words of trees -/

theorem Newlines.kinds {ts : List Token} (h : Newlines ts) : Grammar.Newlines (kinds ts) := by
  rintro _ hk
  obtain ⟨t, ht, rfl⟩ := List.mem_map.1 hk
  exact h t ht

/-- What is read as an expression is one, and one of the sort that the level says. -/
structure Reads.Worded (m : Nat) (ts : List Token) : Prop where
  postfix_ : 7 ≤ m → Grammar.Postfix (Parser.kinds ts)
  unary : 6 ≤ m → Grammar.Unary (Parser.kinds ts)
  expression : Grammar.Expression (Parser.kinds ts)

theorem Reads.Worded.ofPostfix {m : Nat} {ts : List Token} (h : Grammar.Postfix (Parser.kinds ts)) :
    Worded m ts := ⟨fun _ => h, fun _ => .operand h, .unary (.operand h)⟩

theorem Reads.worded {m : Nat} {ts : List Token} {e : SourceExpr} (h : Reads m ts e) :
    Reads.Worded m ts := by
  refine @Reads.rec (fun m ts _ _ => Reads.Worded m ts)
    (fun ts es _ => Grammar.Arguments es.length (Parser.kinds ts)) ?_ ?_ ?_ ?_ ?_ ?_ ?_ ?_ ?_ _ _ _ h
  · exact .ofPostfix (.primary .literal)
  · exact .ofPostfix (.primary .ident)
  · intro m x y start stop ts inner _ ih
    exact .ofPostfix (by simpa using Grammar.Postfix.primary (.paren ih.expression))
  · intro m x y start stop cs newlines as callee args _ hn _ _ ihc iha
    exact .ofPostfix (by simpa using Grammar.Postfix.call (ihc.postfix_ (Nat.le_refl 7)) hn.kinds iha)
  · intro m x span ts operand hm _ ih
    have hu := Grammar.Unary.neg (ih.unary (Nat.le_refl 6))
    exact ⟨fun h7 => by omega, fun _ => hu, .unary hu⟩
  · intro m op x span ls newlines rs left right hm _ hn _ ihl ihr
    have := precedence_le op
    exact ⟨fun h7 => by omega, fun h6 => by omega,
      by simpa using Grammar.Expression.binary ihl.expression hn.kinds ihr.expression⟩
  · exact .none
  · intro ts newlines e _ hn ih
    simpa using Grammar.Arguments.last ih.expression hn.kinds
  · intro ts before after as x s e es _ hb ha _ ih iha
    simpa using Grammar.Arguments.cons ih.expression hb.kinds ha.kinds iha

theorem ReadsArgs.arguments {ts : List Token} {es : List SourceExpr} (h : ReadsArgs ts es) :
    Grammar.Arguments es.length (kinds ts) := by
  induction es generalizing ts with
  | nil =>
    cases h
    exact .none
  | cons e es ih =>
    cases h with
    | last he hn => simpa using Grammar.Arguments.last he.worded.expression hn.kinds
    | cons he hb ha h =>
      simpa using Grammar.Arguments.cons he.worded.expression hb.kinds ha.kinds (ih h)

theorem CommaList.separated {β : Type} {gap : List Token → Prop} {item : List Token → β → Prop}
    {Gap Item : Grammar.Word → Prop} (hgap : ∀ {ts}, gap ts → Gap (kinds ts))
    (hitem : ∀ {ts x}, item ts x → Item (kinds ts)) {ts : List Token} {xs : List β}
    (h : CommaList gap item ts xs) : Grammar.Separated Gap Item xs.length (kinds ts) := by
  induction h with
  | one hx => exact .one (hitem hx)
  | cons hx hb _ ih => simpa using Grammar.Separated.cons (hitem hx) (hgap hb) ih

/-! ### Steps of the parser and of the table -/

/-- From one place to the other the symbols `N` turn into `M`. -/
structure Reaches (N M : Stack) (ts rest : List Token) : Prop where
  isSuffix : rest <:+ ts
  stuck_eq : ∀ K, stuck (N ++ K) (kinds ts) = stuck (M ++ K) (kinds rest)

/-- The symbols get stuck in front of the tokens `rest`. -/
structure Halts (N : Stack) (ts rest : List Token) : Prop where
  isSuffix : rest <:+ ts
  stuck_eq : ∀ K, stuck (N ++ K) (kinds ts) = some (kinds rest)

/-- There is a long list among the tokens. -/
def Long (ts : List Token) : Prop := ∃ us, us <:+: ts ∧ Grammar.LongList false (kinds us)

/-- A step of the parser reads the tokens of the symbols `N`, and leaves `M`. -/
def Follows {β : Type} (N : Stack) (M : β → Stack) (ts : List Token) :
    Step (β × List Token) → Prop
  | .ok (x, rest) => Reaches N (M x) ts rest
  | .error (.expected _ rest) => Halts N ts rest
  | .error (.tooManyItems _) => Long ts

section Rules

variable {β γ : Type} {N M : Stack} {P : β → Stack} {Q : γ → Stack} {s : Symbol} {t : Token}
  {ts us rest : List Token}

theorem Reaches.refl (N : Stack) (ts : List Token) : Reaches N N ts ts :=
  ⟨List.suffix_rfl, fun _ => rfl⟩

theorem Reaches.trans {L : Stack} (h : Reaches N M ts us) (h' : Reaches M L us rest) :
    Reaches N L ts rest :=
  ⟨h'.isSuffix.trans h.isSuffix, fun K => (h.stuck_eq K).trans (h'.stuck_eq K)⟩

/-- What is to come after the symbols does not matter. -/
theorem Reaches.frame (h : Reaches N M ts rest) (L : Stack) :
    Reaches (N ++ L) (M ++ L) ts rest :=
  ⟨h.isSuffix, fun K => by simpa using h.stuck_eq (L ++ K)⟩

theorem Long.mono (h : Long us) (hs : us <:+ ts) : Long ts := by
  obtain ⟨vs, hv, hl⟩ := h
  exact ⟨vs, hv.trans hs.isInfix, hl⟩

theorem Reaches.follows {x : Step (β × List Token)} (h : Reaches N M ts us)
    (hx : Follows M P us x) : Follows N P ts x := by
  match x, hx with
  | .ok (_, _), hx => exact h.trans hx
  | .error (.expected _ _), hx =>
    exact ⟨hx.isSuffix.trans h.isSuffix, fun K => (h.stuck_eq K).trans (hx.stuck_eq K)⟩
  | .error (.tooManyItems _), hx => exact hx.mono h.isSuffix

theorem Follows.frame {x : Step (β × List Token)} (h : Follows N P ts x) (L : Stack) :
    Follows (N ++ L) (fun a => P a ++ L) ts x := by
  match x, h with
  | .ok (_, _), h => exact Reaches.frame h L
  | .error (.expected _ _), h =>
    exact ⟨h.isSuffix, fun K => by simpa using h.stuck_eq (L ++ K)⟩
  | .error (.tooManyItems _), h => exact h

/-- A failed step fails what it is part of. -/
theorem Follows.error {e : Failure} (h : Follows N P ts (.error e)) : Follows N Q ts (.error e) := by
  match e, h with
  | .expected _ _, h => exact h
  | .tooManyItems _, h => exact h

theorem Reaches.step {L : Stack} (h : ∀ K, Grammar.step (N ++ K) t.kind = some (L ++ K)) :
    Reaches N L (t :: ts) ts :=
  ⟨List.suffix_cons t ts, fun K => stuck_step (h K)⟩

/-- Nothing is read of a symbol that takes no token of this kind. -/
theorem Reaches.pop (hs : s.optional) (h : ∀ kind, next? ts = some kind → s.after kind = none) :
    Reaches [s] [] ts ts :=
  ⟨List.suffix_rfl, fun _ => stuck_pop hs fun kind hk => h kind (head?_kinds ts ▸ hk)⟩

theorem Halts.here (hs : s.optional = false)
    (h : ∀ kind, next? ts = some kind → s.after kind = none) : Halts (s :: N) ts ts :=
  ⟨List.suffix_rfl, fun _ => stuck_here hs fun kind hk => h kind (head?_kinds ts ▸ hk)⟩

/-- The parser reads a token where the table has it. -/
theorem follows_token (kind : TokenKind) (ts : List Token) :
    Follows [.word kind] (fun _ => []) ts (token kind ts) := by
  unfold token
  split
  · rename_i t ts
    split
    · rename_i hk
      exact Reaches.step fun K => by simp [Grammar.step, Symbol.after_word, hk]
    · rename_i hk
      refine Halts.here rfl ?_
      rintro _ ⟨⟩
      simp [Symbol.after_word, hk]
  · exact Halts.here rfl (by rintro _ ⟨⟩)

theorem skipNewlines_cons_of_pos (ht : t.kind = .newline) (ts : List Token) :
    skipNewlines (t :: ts) = skipNewlines ts := List.dropWhile_cons_of_pos (by simpa)

theorem skipNewlines_cons_of_neg (ht : t.kind ≠ .newline) (ts : List Token) :
    skipNewlines (t :: ts) = t :: ts := List.dropWhile_cons_of_neg (by simpa)

theorem next?_skipNewlines_ne (ts : List Token) : next? (skipNewlines ts) ≠ some .newline := by
  induction ts with
  | nil => nofun
  | cons t ts ih =>
    by_cases ht : t.kind = .newline
    · rwa [skipNewlines_cons_of_pos ht]
    · rw [skipNewlines_cons_of_neg ht]
      exact fun h => ht (Option.some.inj h)

/-- Newlines are passed over where they leave the symbol as it is. -/
theorem reaches_newlines (hn : s.after .newline = some [s]) (ts : List Token) :
    Reaches [s] [s] ts (skipNewlines ts) := by
  induction ts with
  | nil => exact .refl _ _
  | cons t ts ih =>
    by_cases ht : t.kind = .newline
    · rw [skipNewlines_cons_of_pos ht]
      exact (Reaches.step fun K => by simp [Grammar.step, ht, hn]).trans ih
    · rw [skipNewlines_cons_of_neg ht]
      exact .refl _ _

/-- A gap ends behind its newlines. -/
theorem reaches_skipNewlines (ts : List Token) : Reaches [.gap] [] ts (skipNewlines ts) := by
  refine (reaches_newlines rfl ts).trans (.pop rfl fun kind hk => Grammar.after_gap ?_)
  rintro rfl
  exact next?_skipNewlines_ne ts hk

end Rules

/-! ### Expressions -/

section Expressions

theorem length_skipNewlines_le (ts : List Token) : (skipNewlines ts).length ≤ ts.length :=
  (List.dropWhile_suffix _).length_le

theorem Reads.length_lt {m : Nat} {ts used rest : List Token} {e : SourceExpr} (h : Reads m used e)
    (hts : ts = used ++ rest) : rest.length < ts.length := by
  obtain ⟨t, us, rfl, -⟩ := h.starts
  rw [hts]
  simp only [List.cons_append, List.length_cons, List.length_append]
  omega

/-- After an expression there is nothing that it could go on with. -/
theorem Ends.reaches {rest : List Token} (h : Ends 0 rest) : Reaches [.tail] [] rest rest := by
  refine .pop rfl fun kind hk => ?_
  cases kind with
  | op op => exact absurd (h.op op hk) (Nat.not_lt_zero _)
  | leftParen => exact absurd hk h.paren
  | _ => rfl

/-- A symbol that starts as an expression does is one, if nothing else can follow it here. -/
theorem reaches_operand {s : Symbol} {L M : Stack} {ts : List Token} (hs : s.optional)
    (hafter : ∀ kind, next? ts = some kind →
      s.after kind = (Grammar.afterOperand kind).map (· ++ L))
    (hM : M.all Symbol.optional = false)
    (hstep : ∀ kind, next? ts = some kind → Grammar.afterOperand kind = none →
      ∀ K, Grammar.step (M ++ K) kind = none) :
    Reaches (s :: M) (.operand :: (L ++ M)) ts ts := by
  refine ⟨List.suffix_rfl, fun K => ?_⟩
  cases ts with
  | nil => simp [stuck, hM, Symbol.optional]
  | cons t ts =>
    have hs' := hafter t.kind rfl
    cases hk : Grammar.afterOperand t.kind with
    | none =>
      rw [hk] at hs'
      calc
        stuck (s :: (M ++ K)) (t.kind :: kinds ts) = stuck (M ++ K) (t.kind :: kinds ts) :=
          stuck_pop hs (by rintro _ ⟨⟩; exact hs')
        _ = some (t.kind :: kinds ts) := by simp only [stuck, hstep t.kind rfl hk K]
        _ = stuck (.operand :: (L ++ M ++ K)) (t.kind :: kinds ts) :=
          (stuck_here rfl (by rintro _ ⟨⟩; exact hk)).symm
    | some K' =>
      rw [hk] at hs'
      calc
        stuck (s :: (M ++ K)) (t.kind :: kinds ts) = stuck (K' ++ L ++ (M ++ K)) (kinds ts) :=
          Grammar.stuck_after hs'
        _ = stuck (K' ++ (L ++ M ++ K)) (kinds ts) := by simp
        _ = stuck (.operand :: (L ++ M ++ K)) (t.kind :: kinds ts) :=
          (Grammar.stuck_after (s := .operand) hk).symm

/-- Where an argument may stand there is one, except in front of the closing parenthesis. -/
theorem reaches_args {ts : List Token} (h : next? ts ≠ some .rightParen) :
    Reaches [.args, .word .rightParen] [.operand, .moreArgs, .word .rightParen] ts ts := by
  refine reaches_operand (L := [.moreArgs]) rfl (fun _ _ => rfl) rfl fun kind hk _ K => ?_
  have hne : kind ≠ .rightParen := by
    rintro rfl
    exact h hk
  simp [Grammar.step, Symbol.after_word, hne, Symbol.optional]

/-- What the parts of the parser do with enough fuel. -/
structure Traces (fuel : Nat) : Prop where
  binary : ∀ {m ts}, m ≤ 6 → 4 * ts.length + 4 ≤ fuel →
    Follows [.operand] (fun _ => [.tail]) ts (binary fuel m ts)
  climb : ∀ {m left ts}, m ≤ 6 → 4 * ts.length + 1 ≤ fuel →
    Follows [.tail] (fun _ => [.tail]) ts (climb fuel m left ts)
  unary : ∀ {ts}, 4 * ts.length + 3 ≤ fuel →
    Follows [.operand] (fun _ => [.tail]) ts (unary fuel ts)
  operand : ∀ {ts}, next? ts ≠ some (.op .sub) → 4 * ts.length + 2 ≤ fuel →
    Follows [.operand] (fun _ => [.tail]) ts (operand fuel ts)
  calls : ∀ {callee ts}, 4 * ts.length + 2 ≤ fuel →
    Follows [.tail] (fun _ => [.tail]) ts (calls fuel callee ts)
  args : ∀ {found ts}, 4 * ts.length + 5 ≤ fuel →
    Follows [.args, .word .rightParen] (fun _ => [.word .rightParen]) ts (args fuel found ts)
  primary : ∀ {ts}, next? ts ≠ some (.op .sub) → 4 * ts.length + 1 ≤ fuel →
    Follows [.operand] (fun _ => [.tail]) ts (primary fuel ts)

namespace Traces

variable {fuel m : Nat} {ts : List Token} {callee left : SourceExpr} {found : List SourceExpr}

theorem binary_succ (ih : Traces fuel) (hm : m ≤ 6) (hf : 4 * ts.length + 4 ≤ fuel + 1) :
    Follows [.operand] (fun _ => [.tail]) ts (Parser.binary (fuel + 1) m ts) := by
  have hu := @ih.unary ts (by omega)
  simp only [Parser.binary]
  cases hx : Parser.unary fuel ts with
  | error e => exact (hx ▸ hu).error
  | ok p =>
    obtain ⟨left, rest⟩ := p
    rw [hx] at hu
    obtain ⟨used, hts, hr, -⟩ := (sound fuel).unary hx
    have := hr.length_lt hts
    exact Reaches.follows hu (ih.climb hm (by omega))

theorem climb_succ (ih : Traces fuel) (hm : m ≤ 6) (hf : 4 * ts.length + 1 ≤ fuel + 1) :
    Follows [.tail] (fun _ => [.tail]) ts (Parser.climb (fuel + 1) m left ts) := by
  simp only [Parser.climb]
  split
  · rename_i op x span rest
    rw [List.length_cons] at hf
    split
    · exact Reaches.refl _ _
    · have hgap : Reaches [.tail] [.operand] (⟨.op op, x, span⟩ :: rest) (skipNewlines rest) :=
        (Reaches.step (L := [.gap, .operand]) fun _ => rfl).trans
          ((reaches_skipNewlines rest).frame [.operand])
      have hprec := precedence_le op
      have hskip := length_skipNewlines_le rest
      have hb := @ih.binary (op.precedence + 1) (skipNewlines rest) (by omega) (by omega)
      cases hx : Parser.binary fuel (op.precedence + 1) (skipNewlines rest) with
      | error e => exact (hgap.follows (hx ▸ hb)).error
      | ok p =>
        obtain ⟨right, rest'⟩ := p
        rw [hx] at hb
        have := hb.isSuffix.length_le
        exact (hgap.trans hb).follows (ih.climb hm (by omega))
  · exact Reaches.refl _ _

theorem unary_succ (ih : Traces fuel) (hf : 4 * ts.length + 3 ≤ fuel + 1) :
    Follows [.operand] (fun _ => [.tail]) ts (Parser.unary (fuel + 1) ts) := by
  simp only [Parser.unary]
  split
  · rename_i x span rest
    rw [List.length_cons] at hf
    have hu := @ih.unary rest (by omega)
    have hstep : Reaches [.operand] [.operand] (⟨.op .sub, x, span⟩ :: rest) rest :=
      .step fun _ => rfl
    cases hx : Parser.unary fuel rest with
    | error e => exact (hstep.follows (hx ▸ hu)).error
    | ok p =>
      rw [hx] at hu
      exact hstep.trans hu
  · rename_i hne
    refine ih.operand (fun h => ?_) (by omega)
    obtain ⟨text, span, rest, rfl⟩ := next?_eq_some.1 h
    exact hne text span rest rfl

theorem operand_succ (ih : Traces fuel) (hne : next? ts ≠ some (.op .sub))
    (hf : 4 * ts.length + 2 ≤ fuel + 1) :
    Follows [.operand] (fun _ => [.tail]) ts (Parser.operand (fuel + 1) ts) := by
  have hp := ih.primary hne (by omega)
  simp only [Parser.operand]
  cases hx : Parser.primary fuel ts with
  | error e => exact (hx ▸ hp).error
  | ok p =>
    obtain ⟨e, rest⟩ := p
    rw [hx] at hp
    obtain ⟨used, hts, hr⟩ := (sound fuel).primary hx
    have := hr.length_lt hts
    exact Reaches.follows hp (ih.calls (by omega))

theorem calls_succ (ih : Traces fuel) (hf : 4 * ts.length + 2 ≤ fuel + 1) :
    Follows [.tail] (fun _ => [.tail]) ts (Parser.calls (fuel + 1) callee ts) := by
  simp only [Parser.calls]
  split
  · rename_i x span rest
    rw [List.length_cons] at hf
    have hskip := length_skipNewlines_le rest
    have hopen : Reaches [.tail] [.args, .word .rightParen, .tail]
        (⟨.leftParen, x, span⟩ :: rest) (skipNewlines rest) :=
      (Reaches.step (L := [.gap, .args, .word .rightParen, .tail]) fun _ => rfl).trans
        ((reaches_skipNewlines rest).frame [.args, .word .rightParen, .tail])
    have ha := (@ih.args [] (skipNewlines rest) (by omega)).frame [.tail]
    cases hx : Parser.args fuel [] (skipNewlines rest) with
    | error e => exact (hopen.follows (hx ▸ ha)).error
    | ok p =>
      obtain ⟨as, rest₁⟩ := p
      rw [hx] at ha
      have hargs := hopen.trans ha
      dsimp only
      have ht := (follows_token .rightParen rest₁).frame [.tail]
      cases hy : token .rightParen rest₁ with
      | error e => exact (hargs.follows (hy ▸ ht)).error
      | ok q =>
        obtain ⟨close, rest₂⟩ := q
        rw [hy] at ht
        have hclose := hargs.trans ht
        dsimp only
        have hlong (hl : maxItems < as.length) : Long (⟨.leftParen, x, span⟩ :: rest) := by
          obtain ⟨used, more, hused, rfl, has⟩ := (sound fuel).args hx
          obtain ⟨newlines, -, hrest⟩ := skipNewlines_eq rest
          refine ⟨used, ⟨⟨.leftParen, x, span⟩ :: newlines, rest₁, ?_⟩,
            .arguments has.arguments (by simpa using hl)⟩
          rw [hrest, hused]
          simp
        have hlen₁ := ha.isSuffix.length_le
        have hlen₂ := ht.isSuffix.length_le
        unfold checkLength
        by_cases hl : as.length ≤ maxItems
        · rw [if_pos hl]
          exact hclose.follows (ih.calls (by omega))
        · rw [if_neg hl]
          exact hlong (Nat.lt_of_not_le hl)
  · exact Reaches.refl _ _

theorem args_succ (ih : Traces fuel) (hf : 4 * ts.length + 5 ≤ fuel + 1) :
    Follows [.args, .word .rightParen] (fun _ => [.word .rightParen]) ts
      (Parser.args (fuel + 1) found ts) := by
  simp only [Parser.args]
  split
  · rename_i hp
    refine (Reaches.pop (s := .args) rfl fun kind hk => ?_).frame [.word .rightParen]
    obtain rfl : TokenKind.rightParen = kind := Option.some.inj (hp.symm.trans hk)
    rfl
  · rename_i hp
    have hb := @ih.binary 0 ts (by decide) (by omega)
    cases hx : Parser.binary fuel 0 ts with
    | error e =>
      exact ((reaches_args hp).follows
        ((hx ▸ hb : Follows _ _ _ _).frame [.moreArgs, .word .rightParen])).error
    | ok p =>
      obtain ⟨arg, rest⟩ := p
      rw [hx] at hb
      obtain ⟨used, hts, hr, hends⟩ := binary_sound (by decide) hx
      have := hr.length_lt hts
      have harg : Reaches [.args, .word .rightParen] [.moreArgs, .word .rightParen] ts
          (skipNewlines rest) :=
        (reaches_args hp).trans (((Reaches.trans hb hends.reaches).frame
          [.moreArgs, .word .rightParen]).trans ((reaches_newlines rfl rest).frame [.word .rightParen]))
      have hskip := length_skipNewlines_le rest
      dsimp only
      split
      · rename_i x span rest' hcomma
        rw [hcomma, List.length_cons] at hskip
        have hskip' := length_skipNewlines_le rest'
        have hgap : Reaches [.moreArgs, .word .rightParen] [.args, .word .rightParen]
            (skipNewlines rest) (skipNewlines rest') := by
          rw [hcomma]
          exact (Reaches.step (L := [.gap, .args, .word .rightParen]) fun _ => rfl).trans
            ((reaches_skipNewlines rest').frame [.args, .word .rightParen])
        exact (harg.trans hgap).follows (ih.args (by omega))
      · rename_i hne
        refine harg.trans ((Reaches.pop rfl fun kind hk => ?_).frame [.word .rightParen])
        cases kind with
        | newline => exact absurd hk (next?_skipNewlines_ne rest)
        | comma =>
          obtain ⟨text, span, rest', h⟩ := next?_eq_some.1 hk
          exact absurd h (hne text span rest')
        | _ => rfl

theorem primary_succ (ih : Traces fuel) (hne : next? ts ≠ some (.op .sub))
    (hf : 4 * ts.length + 1 ≤ fuel + 1) :
    Follows [.operand] (fun _ => [.tail]) ts (Parser.primary (fuel + 1) ts) := by
  simp only [Parser.primary]
  split
  · exact Reaches.step fun _ => rfl
  · exact Reaches.step fun _ => rfl
  · rename_i x span rest
    rw [List.length_cons] at hf
    have hopen : Reaches [.operand] [.operand, .word .rightParen, .tail]
        (⟨.leftParen, x, span⟩ :: rest) rest := .step fun _ => rfl
    have hb := @ih.binary 0 rest (by decide) (by omega)
    cases hx : Parser.binary fuel 0 rest with
    | error e =>
      exact (hopen.follows
        ((hx ▸ hb : Follows _ _ _ _).frame [.word .rightParen, .tail])).error
    | ok p =>
      obtain ⟨inner, rest₁⟩ := p
      rw [hx] at hb
      obtain ⟨used, hts, hr, hends⟩ := binary_sound (by decide) hx
      have hinner := hopen.trans ((Reaches.trans hb hends.reaches).frame [.word .rightParen, .tail])
      have ht := (follows_token .rightParen rest₁).frame [.tail]
      dsimp only
      cases hy : token .rightParen rest₁ with
      | error e => exact (hinner.follows (hy ▸ ht)).error
      | ok q =>
        obtain ⟨close, rest₂⟩ := q
        rw [hy] at ht
        exact hinner.trans ht
  · rename_i hliteral hident hparen
    refine Halts.here rfl fun kind hk => ?_
    obtain ⟨text, span, rest, rfl⟩ := next?_eq_some.1 hk
    cases kind with
    | literal kind => exact (hliteral kind text span rest rfl).elim
    | ident => exact (hident text span rest rfl).elim
    | leftParen => exact (hparen text span rest rfl).elim
    | op op =>
      cases op with
      | sub => exact absurd rfl hne
      | _ => rfl
    | _ => rfl

end Traces

theorem traces (fuel : Nat) : Traces fuel := by
  induction fuel with
  | zero => constructor <;> intros <;> omega
  | succ fuel ih =>
    exact {
      binary := ih.binary_succ
      climb := ih.climb_succ
      unary := ih.unary_succ
      operand := ih.operand_succ
      calls := ih.calls_succ
      args := ih.args_succ
      primary := ih.primary_succ }

/-- An expression is read as the table has it, and nothing is left of it. -/
theorem follows_expr {fuel : Nat} {ts : List Token} (hf : 4 * ts.length + 4 ≤ fuel) :
    Follows [.operand] (fun _ => []) ts (expr fuel ts) := by
  have hb := (traces fuel).binary (m := 0) (by decide) hf
  unfold expr
  cases hx : binary fuel 0 ts with
  | error e => exact (hx ▸ hb).error
  | ok p =>
    obtain ⟨e, rest⟩ := p
    rw [hx] at hb
    obtain ⟨used, hts, hr, hends⟩ := binary_sound (by decide) hx
    exact Reaches.trans hb hends.reaches

end Expressions

end Parser

end Recast
