import Recast.Proofs.Grammar.Parts

/-!
# How operators group their operands

The tokens of an expression, read from left to right, do not say how its operators group their
operands; precedence does. A tree is grouped rightly if no operand of an operator is a binary
expression that binds less tightly, or on the right equally tightly, and if no operand of a minus
sign is a binary expression and no callee is one or is negated. `Parser.binary` makes such trees
only, and for the tokens of one there is no other.
-/

namespace Recast

variable {ε α : Type}

/-! ### Words of trees and tokens -/

/-- What a tree keeps of a token: its kind, and the text of a name or a literal. -/
structure Word where
  kind : TokenKind
  text? : Option String
deriving DecidableEq, Repr

/-- The word of a token that says all by its kind. -/
def Word.mark (kind : TokenKind) : Word := ⟨kind, none⟩

/-- The word of a token. -/
def Token.word (t : Token) : Word :=
  match t.kind with
  | .literal _ | .ident => ⟨t.kind, some t.text⟩
  | kind => .mark kind

mutual

/-- The words of an expression, in source order. -/
def Expr.words : Expr ε α → List Word
  | .hole _ => []
  | .literal _ kind lexeme => [⟨.literal kind, some lexeme⟩]
  | .name _ text => [⟨.ident, some text⟩]
  | .paren _ inner => .mark .leftParen :: inner.words ++ [.mark .rightParen]
  | .neg _ operand => .mark (.op .sub) :: operand.words
  | .binary _ op left right => left.words ++ .mark (.op op) :: right.words
  | .call _ callee args =>
    callee.words ++ .mark .leftParen :: Expr.listWords false args ++ [.mark .rightParen]

/-- The words of expressions with commas between them, and one before the first if there are
expressions before that. -/
def Expr.listWords (written : Bool) : List (Expr ε α) → List Word
  | [] => []
  | e :: es => (if written then [.mark .comma] else []) ++ e.words ++ Expr.listWords true es

end

/-- Leaves out commas in front of a closing parenthesis. -/
def dropTrailing : List Word → List Word
  | [] => []
  | w :: ws =>
    if w.kind = .comma ∧ ws.head?.map Word.kind = some .rightParen then dropTrailing ws
    else w :: dropTrailing ws

/-- The words of tokens without newlines. -/
def wordsOf (ts : List Token) : List Word := (ts.filter (·.kind ≠ .newline)).map Token.word

/-- The words of tokens without newlines and trailing commas. -/
def significant (ts : List Token) : List Word := dropTrailing (wordsOf ts)

@[simp] theorem wordsOf_nil : wordsOf [] = [] := rfl

@[simp] theorem wordsOf_append (ts us : List Token) :
    wordsOf (ts ++ us) = wordsOf ts ++ wordsOf us := by
  simp [wordsOf]

/-- A token that is no newline has its word. -/
theorem wordsOf_cons {kind : TokenKind} (h : kind ≠ .newline) (text : String) (span : Span)
    (ts : List Token) :
    wordsOf (⟨kind, text, span⟩ :: ts) = Token.word ⟨kind, text, span⟩ :: wordsOf ts := by
  simp [wordsOf, h]

theorem wordsOf_newlines {ts : List Token} (h : Parser.Newlines ts) : wordsOf ts = [] := by
  rw [wordsOf, List.map_eq_nil_iff, List.filter_eq_nil_iff]
  intro t ht
  simp [h t ht]

theorem dropTrailing_cons {w : Word} (h : w.kind ≠ .comma) (ws : List Word) :
    dropTrailing (w :: ws) = w :: dropTrailing ws := by
  rw [dropTrailing, if_neg (fun hw => h hw.1)]

theorem dropTrailing_mark {kind : TokenKind} (h : kind ≠ .comma) (ws : List Word) :
    dropTrailing (.mark kind :: ws) = .mark kind :: dropTrailing ws :=
  dropTrailing_cons h ws

/-- A comma stays unless a closing parenthesis follows. -/
theorem dropTrailing_comma {ws : List Word} (h : ws.head?.map Word.kind ≠ some .rightParen) :
    dropTrailing (.mark .comma :: ws) = .mark .comma :: dropTrailing ws := by
  rw [dropTrailing, if_neg (fun hw => h hw.2)]

theorem Expr.listWords_true {es : List (Expr ε α)} (h : es ≠ []) :
    listWords true es = .mark .comma :: listWords false es := by
  cases es with
  | nil => exact absurd rfl h
  | cons e es => simp [listWords]

namespace Parser

variable {m : Nat} {ts as : List Token} {e : SourceExpr} {es : List SourceExpr}

/-- The tokens of an expression do not start with a closing parenthesis. -/
theorem Reads.head?_wordsOf (h : Reads m ts e) (ws : List Word) :
    (wordsOf ts ++ ws).head?.map Word.kind ≠ some .rightParen := by
  obtain ⟨⟨kind, text, span⟩, rest, rfl, hstarts⟩ := h.starts
  have hkind : (Token.word ⟨kind, text, span⟩).kind = kind := by
    cases kind <;> rfl
  rw [wordsOf_cons (by rintro rfl; exact hstarts)]
  simp only [List.cons_append, List.head?_cons, Option.map_some, hkind, ne_eq, Option.some.injEq]
  rintro rfl
  exact hstarts

theorem ReadsArgs.head?_wordsOf (h : ReadsArgs as es) (hne : es ≠ []) (ws : List Word) :
    (wordsOf as ++ ws).head?.map Word.kind ≠ some .rightParen := by
  cases h with
  | none => exact absurd rfl hne
  | last hr =>
    rw [wordsOf_append, List.append_assoc]
    exact hr.head?_wordsOf _
  | cons hr =>
    simp only [wordsOf_append, List.append_assoc]
    exact hr.head?_wordsOf _

/-- Reading keeps all words but trailing commas. -/
theorem Reads.dropTrailing_append (h : Reads m ts e) :
    ∀ ws, dropTrailing (wordsOf ts ++ ws) = e.words ++ dropTrailing ws := by
  refine @Reads.rec
    (fun _ ts e _ => ∀ ws, dropTrailing (wordsOf ts ++ ws) = e.words ++ dropTrailing ws)
    (fun as es _ => ∀ ws : List Word, ws.head?.map Word.kind = some .rightParen →
      dropTrailing (wordsOf as ++ ws) = Expr.listWords false es ++ dropTrailing ws)
    ?literal ?name ?paren ?call ?neg ?binary ?none ?last ?cons _ _ _ h
  case literal =>
    intro m kind text span ws
    rw [wordsOf_cons (by simp)]
    exact dropTrailing_cons (by simp [Token.word]) ws
  case name =>
    intro m text span ws
    rw [wordsOf_cons (by simp)]
    exact dropTrailing_cons (by simp [Token.word]) ws
  case paren =>
    intro m x y start stop ts inner _ ih ws
    simp [wordsOf_cons, Token.word, dropTrailing_mark, ih, Expr.words]
  case call =>
    intro m x y start stop cs newlines as callee args _ hn _ _ ihc iha ws
    have hargs : dropTrailing (wordsOf as ++ .mark .rightParen :: ws)
        = Expr.listWords false args ++ .mark .rightParen :: dropTrailing ws := by
      rw [iha _ rfl, dropTrailing_mark (by simp)]
    simp [wordsOf_cons, wordsOf_newlines hn, Token.word, dropTrailing_mark, ihc, hargs, Expr.words]
  case neg =>
    intro m x span ts operand _ _ ih ws
    simp [wordsOf_cons, Token.word, dropTrailing_mark, ih, Expr.words]
  case binary =>
    intro m op x span ls newlines rs left right _ _ hn _ ihl ihr ws
    simp [wordsOf_cons, wordsOf_newlines hn, Token.word, dropTrailing_mark, ihl, ihr, Expr.words]
  case none => exact fun ws _ => rfl
  case last =>
    intro ts newlines e _ hn ih ws _
    rw [wordsOf_append, wordsOf_newlines hn, List.append_nil, ih]
    simp [Expr.listWords]
  case cons =>
    intro ts before after as x s e es _ hb ha has ih iha ws hws
    have hrest : dropTrailing (.mark .comma :: (wordsOf as ++ ws))
        = Expr.listWords true es ++ dropTrailing ws := by
      by_cases hes : es = []
      · subst hes
        cases has
        rw [wordsOf_nil, List.nil_append, dropTrailing, if_pos ⟨rfl, hws⟩]
        rfl
      · rw [dropTrailing_comma (has.head?_wordsOf hes ws), iha ws hws, Expr.listWords_true hes]
        rfl
    simp [wordsOf_cons, wordsOf_newlines hb, wordsOf_newlines ha, Token.word, ih, hrest,
      Expr.listWords]

/-- The words of the tree are those of its tokens. -/
theorem Reads.words_eq (h : Reads m ts e) : e.words = significant ts := by
  have := h.dropTrailing_append []
  rw [List.append_nil, dropTrailing, List.append_nil] at this
  exact this.symm

end Parser

/-! ### Groups -/

/-- The operator of a binary expression. -/
def Expr.operator? : Expr ε α → Option BinaryOp
  | .binary _ op _ _ => some op
  | _ => none

/-- Whether an expression is negated. -/
def Expr.isNeg : Expr ε α → Bool
  | .neg .. => true
  | _ => false

/-- The operator on the left of another one binds at least as tightly, and the one on the right more
tightly. -/
def Expr.BindsInside : Expr ε α → Prop
  | .binary _ op left right =>
    (∀ inner ∈ left.operator?, op.precedence ≤ inner.precedence) ∧
      ∀ inner ∈ right.operator?, op.precedence < inner.precedence
  | _ => True

/-- No binary expression is negated or called. -/
def Expr.KeepsOperators : Expr ε α → Prop
  | .neg _ operand => operand.operator? = none
  | .call _ callee _ => callee.operator? = none
  | _ => True

/-- No negated expression is called. -/
def Expr.KeepsSigns : Expr ε α → Prop
  | .call _ callee _ => callee.isNeg = false
  | _ => True

/-- A node with operands as its tokens group them. -/
structure Expr.Grouped (e : Expr ε α) : Prop where
  binds : e.BindsInside
  operators : e.KeepsOperators
  signs : e.KeepsSigns

/-- The parts of an expression that are not in parentheses or arguments. -/
def Expr.outer : Expr ε α → List (Expr ε α)
  | .binary tag op left right => .binary tag op left right :: (left.outer ++ right.outer)
  | .neg tag operand => .neg tag operand :: operand.outer
  | .call tag callee args => .call tag callee args :: callee.outer
  | e => [e]

/-- A call does not have too many arguments. -/
def Expr.Short : Expr ε α → Prop
  | .call _ _ args => args.length ≤ maxItems
  | _ => True

namespace Parser

variable {m : Nat} {ts : List Token} {e : SourceExpr}

theorem Reads.le_precedence (h : Reads m ts e) : ∀ op ∈ e.operator?, m ≤ op.precedence := by
  cases h with
  | binary hm =>
    rintro op ⟨⟩
    exact hm
  | _ => exact nofun

theorem Reads.operator?_eq_none (h : Reads m ts e) (hm : 6 ≤ m) : e.operator? = none := by
  rw [Option.eq_none_iff_forall_not_mem]
  intro op hop
  have := h.le_precedence op hop
  have := precedence_le op
  omega

theorem Reads.isNeg_eq_false (h : Reads 7 ts e) : e.isNeg = false := by
  cases h with
  | neg hm => omega
  | _ => rfl

/-- The root of an expression that was read has its operands grouped. -/
theorem Reads.grouped (h : Reads m ts e) : e.Grouped := by
  cases h with
  | literal | name | paren => exact ⟨trivial, trivial, trivial⟩
  | call hc => exact ⟨trivial, hc.operator?_eq_none (by decide), hc.isNeg_eq_false⟩
  | neg _ hr => exact ⟨trivial, hr.operator?_eq_none (Nat.le_refl 6), trivial⟩
  | binary _ hl _ hr => exact ⟨⟨hl.le_precedence, hr.le_precedence⟩, trivial, trivial⟩

theorem Reads.short (h : Reads m ts e) : e.Short := by
  cases h with
  | call _ _ _ hl => exact hl
  | _ => trivial

/-- No operator outside parentheses and arguments binds less tightly than `m`. -/
theorem Reads.outer_le (h : Reads m ts e) :
    ∀ n ∈ e.outer, ∀ op ∈ n.operator?, m ≤ op.precedence := by
  refine @Reads.rec (fun m _ e _ => ∀ n ∈ e.outer, ∀ op ∈ n.operator?, m ≤ op.precedence)
    (fun _ _ _ => True) ?literal ?name ?paren ?call ?neg ?binary trivial ?last ?cons _ _ _ h
  case literal => exact List.forall_mem_singleton.2 nofun
  case name => exact List.forall_mem_singleton.2 nofun
  case paren => exact fun _ _ => List.forall_mem_singleton.2 nofun
  case call =>
    intro m x y start stop cs newlines as callee args _ _ _ _ ih _
    refine List.forall_mem_cons.2 ⟨nofun, fun n hn op hop => ?_⟩
    have := ih n hn op hop
    have := precedence_le op
    omega
  case neg =>
    intro m x span ts operand hm _ ih
    refine List.forall_mem_cons.2 ⟨nofun, fun n hn op hop => ?_⟩
    exact Nat.le_trans hm (ih n hn op hop)
  case binary =>
    intro m op x span ls newlines rs left right hm _ _ _ ihl ihr
    refine List.forall_mem_cons.2 ⟨?_, fun n hn inner hinner => ?_⟩
    · rintro inner ⟨⟩
      exact hm
    · rcases List.mem_append.1 hn with hn | hn
      · exact Nat.le_trans hm (ihl n hn inner hinner)
      · exact Nat.le_trans hm (Nat.le_of_succ_le (ihr n hn inner hinner))
  case last => exact fun _ _ _ => trivial
  case cons => exact fun _ _ _ _ _ _ => trivial

end Parser

/-! ### Lists that are too long show in the words -/

/-- No list of arguments is too long. `counts` are the commas so far of the open parentheses, the
innermost first. -/
def ShortLists : (counts : List Nat) → List Word → Prop
  | _, [] => True
  | counts, w :: ws =>
    match w.kind, counts with
    | .leftParen, counts => ShortLists (0 :: counts) ws
    | .comma, count :: counts => ShortLists ((count + 1) :: counts) ws
    | .rightParen, count :: counts => count < maxItems ∧ ShortLists counts ws
    | _, counts => ShortLists counts ws

section

variable {count : Nat} {counts : List Nat} {ws : List Word}

theorem shortLists_leftParen :
    ShortLists counts (.mark .leftParen :: ws) ↔ ShortLists (0 :: counts) ws := Iff.rfl

theorem shortLists_comma :
    ShortLists (count :: counts) (.mark .comma :: ws) ↔ ShortLists ((count + 1) :: counts) ws :=
  Iff.rfl

theorem shortLists_rightParen : ShortLists (count :: counts) (.mark .rightParen :: ws) ↔
    count < maxItems ∧ ShortLists counts ws := Iff.rfl

theorem shortLists_op {op : BinaryOp} :
    ShortLists counts (.mark (.op op) :: ws) ↔ ShortLists counts ws := Iff.rfl

/-- The words of arguments add a comma to the count for each of them, but for the first. -/
theorem shortLists_listWords {es : List SourceExpr} (h : ∀ e ∈ es, ∀ counts ws,
      ShortLists counts (e.words ++ ws) ↔ (∀ n ∈ e.parts, n.Short) ∧ ShortLists counts ws)
    (written : Bool) : ShortLists (count :: counts) (Expr.listWords written es ++ ws) ↔
      (∀ e ∈ es, ∀ n ∈ e.parts, n.Short) ∧
        ShortLists ((count + (if written then es.length else es.length - 1)) :: counts) ws := by
  induction es generalizing count written with
  | nil => cases written <;> simp [Expr.listWords]
  | cons e es ih =>
    obtain ⟨he, hes⟩ := List.forall_mem_cons.1 h
    rw [List.forall_mem_cons, and_assoc]
    cases written with
    | false =>
      have := @ih count hes true
      simp [Expr.listWords, he, this]
    | true =>
      have := @ih (count + 1) hes true
      simp [Expr.listWords, he, this, shortLists_comma, Nat.add_assoc, Nat.add_comm 1]

end

/-- The words of a tree tell whether all its calls are short. -/
theorem Expr.shortLists_words (e : SourceExpr) : ∀ counts ws,
    ShortLists counts (e.words ++ ws) ↔ (∀ n ∈ e.parts, n.Short) ∧ ShortLists counts ws := by
  induction e using inductArgs with
  | hole label => exact label.elim
  | literal | name =>
    intro counts ws
    show ShortLists counts ws ↔ _
    simp [parts, Short]
  | paren tag inner ih =>
    intro counts ws
    have hmax : 0 < maxItems := by decide
    simp [words, parts, shortLists_leftParen, ih, shortLists_rightParen, Short, hmax]
  | neg tag operand ih =>
    intro counts ws
    simp [words, parts, shortLists_op, ih, Short]
  | binary tag op left right ihl ihr =>
    intro counts ws
    simp [words, parts, shortLists_op, ihl, ihr, Short, or_imp, forall_and, and_assoc]
  | call tag callee args ihc iha =>
    intro counts ws
    have hmax : args.length - 1 < maxItems ↔ args.length ≤ maxItems := by
      have : 0 < maxItems := by decide
      omega
    simp [words, parts, shortLists_leftParen, ihc, shortLists_listWords iha,
      shortLists_rightParen, Short, hmax]
    grind

/-! ### Trees are read from their words -/

/-- A token with the word, at no place in particular. -/
def Word.token (w : Word) : Token := ⟨w.kind, w.text?.getD "", ⟨0, 0⟩⟩

/-- The expression may stand where operators have to bind at least as tightly as `m`. -/
structure Expr.Binds (m : Nat) (e : Expr ε α) : Prop where
  operator : ∀ op ∈ e.operator?, m ≤ op.precedence
  sign : e.isNeg → m ≤ 6

theorem Expr.Binds.zero (e : Expr ε α) : e.Binds 0 :=
  ⟨fun _ _ => Nat.zero_le _, fun _ => Nat.zero_le _⟩

/-- All parts of the expression are grouped, and its calls are short. -/
def Expr.Readable (e : Expr ε α) : Prop := ∀ n ∈ e.parts, n.Grouped ∧ n.Short

theorem Expr.Readable.child {e child : Expr ε α} (h : e.Readable) (hc : child ∈ e.children) :
    child.Readable :=
  fun n hn => h n (mem_parts_of_child hc hn)

namespace Parser

/-- Grouped arguments are read from their words. -/
theorem exists_readsArgs {es : List SourceExpr}
    (h : ∀ e ∈ es, ∃ e', Reads 0 (e.words.map Word.token) e' ∧ e'.bare = e.bare) :
    ∃ es', ReadsArgs ((Expr.listWords false es).map Word.token) es' ∧
      es'.map Expr.bare = es.map Expr.bare := by
  induction es with
  | nil => exact ⟨[], .none, rfl⟩
  | cons e es ih =>
    obtain ⟨⟨e', hr, hbare⟩, hes⟩ := List.forall_mem_cons.1 h
    have hnil : Newlines [] := List.forall_mem_nil _
    cases es with
    | nil =>
      refine ⟨[e'], ?_, by rw [List.map_singleton, List.map_singleton, hbare]⟩
      simpa [Expr.listWords] using ReadsArgs.last hr hnil
    | cons next es =>
      obtain ⟨es', hrs, hbares⟩ := ih hes
      have hwords : (Expr.listWords false (e :: next :: es)).map Word.token
          = e.words.map Word.token ++ [] ++ ⟨.comma, "", ⟨0, 0⟩⟩ :: []
            ++ (Expr.listWords false (next :: es)).map Word.token := by
        simp [Expr.listWords, Word.token, Word.mark]
      rw [hwords]
      exact ⟨e' :: es', .cons hr hnil hnil hrs, by rw [List.map_cons, List.map_cons, hbare, hbares]⟩

/-- A grouped tree is read from its own words. -/
theorem exists_reads {e : SourceExpr} (h : e.Readable) {m : Nat} (hm : e.Binds m) :
    ∃ e', Reads m (e.words.map Word.token) e' ∧ e'.bare = e.bare := by
  have hnil : Newlines [] := List.forall_mem_nil _
  induction e using Expr.inductArgs generalizing m with
  | hole label => exact label.elim
  | literal tag kind lexeme => exact ⟨.literal ⟨0, 0⟩ kind lexeme, .literal, rfl⟩
  | name tag text => exact ⟨.name ⟨0, 0⟩ text, .name, rfl⟩
  | paren tag inner ih =>
    obtain ⟨inner', hr, hbare⟩ := ih (h.child (by simp [Expr.children])) (.zero inner)
    have hwords : (Expr.paren tag inner).words.map Word.token
        = ⟨.leftParen, "", ⟨0, 0⟩⟩ :: inner.words.map Word.token
          ++ [⟨.rightParen, "", ⟨0, 0⟩⟩] := by
      simp [Expr.words, Word.token, Word.mark]
    rw [hwords]
    exact ⟨_, .paren hr, congrArg (Expr.paren ()) hbare⟩
  | neg tag operand ih =>
    have hgrouped := (h _ (Expr.self_mem_parts _)).1
    have hoperand : operand.operator? = none := hgrouped.operators
    obtain ⟨operand', hr, hbare⟩ := ih (h.child (by simp [Expr.children]))
      (m := 6) ⟨by simp [hoperand], fun _ => Nat.le_refl 6⟩
    have hwords : (Expr.neg tag operand).words.map Word.token
        = ⟨.op .sub, "", ⟨0, 0⟩⟩ :: operand.words.map Word.token := rfl
    rw [hwords]
    exact ⟨_, .neg (hm.sign rfl) hr, congrArg (Expr.neg ()) hbare⟩
  | binary tag op left right ihl ihr =>
    obtain ⟨hleft, hright⟩ : (∀ inner ∈ left.operator?, _) ∧ ∀ inner ∈ right.operator?, _ :=
      (h _ (Expr.self_mem_parts _)).1.binds
    have hop := precedence_le op
    obtain ⟨left', hl, hbare⟩ := ihl (h.child (by simp [Expr.children]))
      (m := op.precedence) ⟨hleft, fun _ => by omega⟩
    obtain ⟨right', hr, hbare'⟩ := ihr (h.child (by simp [Expr.children]))
      (m := op.precedence + 1) ⟨hright, fun _ => by omega⟩
    have hwords : (Expr.binary tag op left right).words.map Word.token
        = left.words.map Word.token ++ ⟨.op op, "", ⟨0, 0⟩⟩ :: []
          ++ right.words.map Word.token := by
      simp [Expr.words, Word.token, Word.mark]
    rw [hwords]
    refine ⟨_, .binary (hm.operator op rfl) hl hnil hr, ?_⟩
    show Expr.binary () op left'.bare right'.bare = .binary () op left.bare right.bare
    rw [hbare, hbare']
  | call tag callee args ihc iha =>
    obtain ⟨hgrouped, hshort⟩ := h _ (Expr.self_mem_parts _)
    have hcallee : callee.operator? = none := hgrouped.operators
    have hsign : callee.isNeg = false := hgrouped.signs
    obtain ⟨callee', hc, hbare⟩ := ihc (h.child (by simp [Expr.children]))
      (m := 7) ⟨by simp [hcallee], by simp [hsign]⟩
    obtain ⟨args', ha, hbares⟩ := exists_readsArgs fun arg harg =>
      iha arg harg (h.child (by simp [Expr.children, harg])) (.zero arg)
    have hlength : args'.length = args.length := by simpa using congrArg List.length hbares
    have hwords : (Expr.call tag callee args).words.map Word.token
        = callee.words.map Word.token ++ ⟨.leftParen, "", ⟨0, 0⟩⟩ :: []
          ++ (Expr.listWords false args).map Word.token ++ [⟨.rightParen, "", ⟨0, 0⟩⟩] := by
      simp [Expr.words, Word.token, Word.mark]
    rw [hwords]
    refine ⟨_, .call hc hnil ha (hlength ▸ hshort), ?_⟩
    show Expr.call () callee'.bare _ = .call () callee.bare _
    rw [hbare, Expr.retagAll_eq, Expr.retagAll_eq]
    exact congrArg (Expr.call () callee.bare) hbares

/-- The words of a grouped tree are those of no other grouped tree. -/
theorem bare_eq_of_words {e e' : SourceExpr} (hshort : ∀ n ∈ e.parts, n.Short)
    (h : ∀ n ∈ e.parts, n.Grouped) (h' : ∀ n ∈ e'.parts, n.Grouped) (hwords : e'.words = e.words) :
    e'.bare = e.bare := by
  have hshort' : ∀ n ∈ e'.parts, n.Short := by
    have hlists := (e.shortLists_words [] []).2 ⟨hshort, trivial⟩
    rw [← hwords] at hlists
    exact ((e'.shortLists_words [] []).1 hlists).1
  obtain ⟨u, hu, hbare⟩ := exists_reads (fun n hn => ⟨h n hn, hshort n hn⟩) (.zero e)
  obtain ⟨u', hu', hbare'⟩ := exists_reads (fun n hn => ⟨h' n hn, hshort' n hn⟩) (.zero e')
  rw [hwords] at hu'
  obtain rfl := hu.unique hu'
  exact hbare'.symm.trans hbare

/-! ### What the parser makes -/

/-- No operator binds so tightly that `m` beyond 6 makes a difference. -/
theorem climb_min (m : Nat) :
    ∀ fuel left ts, climb fuel m left ts = climb fuel (min m 6) left ts := by
  intro fuel
  induction fuel with
  | zero => exact fun _ _ => rfl
  | succ fuel ih =>
    intro left ts
    rcases ts with _ | ⟨⟨kind, text, span⟩, rest⟩
    · rfl
    · cases kind with
      | op op =>
        have hop := precedence_le op
        have hlt : op.precedence < m ↔ op.precedence < min m 6 := by omega
        simp only [climb, hlt, ih]
      | _ => rfl

theorem binary_min (m fuel : Nat) (ts : List Token) :
    binary fuel m ts = binary fuel (min m 6) ts := by
  cases fuel with
  | zero => rfl
  | succ fuel => simp only [binary, climb_min m]

/-- Whatever the parser reads with operators that bind at least as tightly as `m` has the words of
the tokens that were read, in order, but for newlines and trailing commas. The tree is grouped, no
operator outside parentheses and arguments binds less tightly than `m`, and no operator follows that
binds as tightly. No other tree is grouped and has these words. -/
theorem binary_grouped {fuel m : Nat} {ts rest : List Token} {e : SourceExpr}
    (h : binary fuel m ts = .ok (e, rest)) :
    ∃ used, ts = used ++ rest ∧ e.words = significant used ∧
      (∀ n ∈ e.parts, n.Grouped) ∧
      (∀ n ∈ e.outer, ∀ op ∈ n.operator?, m ≤ op.precedence) ∧
      (∀ op, next? rest = some (.op op) → op.precedence < m) ∧
      ∀ e' : SourceExpr, e'.words = significant used → (∀ n ∈ e'.parts, n.Grouped) →
        e'.bare = e.bare := by
  rw [binary_min] at h
  obtain ⟨used, rfl, hr, hend⟩ := binary_sound (Nat.min_le_right m 6) h
  have hparts : ∀ n ∈ e.parts, n.Grouped ∧ n.Short := by
    intro n hn
    obtain ⟨us, -, hn⟩ := hr.containsParts n hn
    exact ⟨hn.grouped, hn.short⟩
  refine ⟨used, rfl, hr.words_eq, fun n hn => (hparts n hn).1, ?_, ?_, ?_⟩
  · intro n hn op hop
    have := hr.outer_le n hn op hop
    have := precedence_le op
    omega
  · intro op hop
    have := hend.op op hop
    omega
  · intro e' hwords hgrouped
    exact bare_eq_of_words (fun n hn => (hparts n hn).2) (fun n hn => (hparts n hn).1) hgrouped
      (hwords.trans hr.words_eq.symm)

theorem binary_grouped_mixed :
    ∃ lexed e used rest, lex "x - 1 * -f(y,\n) - z == w" = .ok lexed ∧
      binary 60 4 lexed.tokens = .ok (e, rest) ∧ e.text = "x - 1 * -f(y) - z" ∧
      lexed.tokens = used ++ rest ∧ e.words = significant used ∧ (∀ n ∈ e.parts, n.Grouped) ∧
      ∀ e' : SourceExpr, e'.words = significant used → (∀ n ∈ e'.parts, n.Grouped) →
        e'.bare = e.bare := by
  have hread : (lex "x - 1 * -f(y,\n) - z == w").toOption.any (fun lexed =>
      (binary 60 4 lexed.tokens).toOption.any fun found =>
        found.1.text == "x - 1 * -f(y) - z") = true := by decide +kernel
  cases hl : lex "x - 1 * -f(y,\n) - z == w" with
  | error e =>
    rw [hl] at hread
    cases hread
  | ok lexed =>
    rw [hl] at hread
    cases hb : binary 60 4 lexed.tokens with
    | error e =>
      simp only [Except.toOption, Option.any_some, hb] at hread
      cases hread
    | ok found =>
      obtain ⟨e, rest⟩ := found
      have htext : e.text = "x - 1 * -f(y) - z" := by
        simpa [Except.toOption, hb] using hread
      obtain ⟨used, hused, hwords, hgrouped, -, -, hunique⟩ := binary_grouped hb
      exact ⟨lexed, e, used, rest, rfl, hb, htext, hused, hwords, hgrouped, hunique⟩

/-- There can be other trees if a negated callee is allowed, as for `-f(x)`, or if operators in
parentheses are left aside, as for `(a - b - c)`. -/
theorem binary_ambiguous :
    (let ts : List Token := [⟨.op .sub, "-", ⟨0, 1⟩⟩, ⟨.ident, "f", ⟨1, 2⟩⟩, ⟨.leftParen, "(", ⟨2, 3⟩⟩,
        ⟨.ident, "x", ⟨3, 4⟩⟩, ⟨.rightParen, ")", ⟨4, 5⟩⟩]
      ∃ e e' : SourceExpr, binary 20 0 ts = .ok (e, []) ∧ e'.words = significant ts ∧
        (∀ n ∈ e'.outer, n.BindsInside) ∧ (∀ n ∈ e'.parts, n.KeepsOperators) ∧
        (∀ n ∈ e'.outer, ∀ op ∈ n.operator?, 0 ≤ op.precedence) ∧ e'.bare ≠ e.bare) ∧
    (let ts : List Token := [⟨.leftParen, "(", ⟨0, 1⟩⟩, ⟨.ident, "a", ⟨1, 2⟩⟩, ⟨.op .sub, "-", ⟨3, 4⟩⟩,
        ⟨.ident, "b", ⟨5, 6⟩⟩, ⟨.op .sub, "-", ⟨7, 8⟩⟩, ⟨.ident, "c", ⟨9, 10⟩⟩,
        ⟨.rightParen, ")", ⟨10, 11⟩⟩]
      ∃ e e' : SourceExpr, binary 20 0 ts = .ok (e, []) ∧ e'.words = significant ts ∧
        (∀ n ∈ e'.outer, n.BindsInside) ∧ (∀ n ∈ e'.parts, n.KeepsOperators) ∧
        (∀ n ∈ e'.outer, ∀ op ∈ n.operator?, 0 ≤ op.precedence) ∧ e'.bare ≠ e.bare) := by
  constructor
  · refine ⟨_, .call ⟨0, 5⟩ (.neg ⟨0, 2⟩ (.name ⟨1, 2⟩ "f")) [.name ⟨3, 4⟩ "x"], rfl, by decide, ?_,
      ?_, fun _ _ _ _ => Nat.zero_le _, fun h => by cases h⟩
    · simp [Expr.outer, Expr.BindsInside]
    · simp [Expr.parts, Expr.KeepsOperators, Expr.operator?]
  · refine ⟨_, .paren ⟨0, 11⟩ (.binary ⟨1, 10⟩ .sub (.name ⟨1, 2⟩ "a")
      (.binary ⟨5, 10⟩ .sub (.name ⟨5, 6⟩ "b") (.name ⟨9, 10⟩ "c"))), rfl, by decide, ?_, ?_,
      fun _ _ _ _ => Nat.zero_le _, fun h => by cases h⟩
    · simp [Expr.outer, Expr.BindsInside]
    · simp [Expr.parts, Expr.KeepsOperators]

end Parser

end Recast
