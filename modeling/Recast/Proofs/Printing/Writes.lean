import Recast.Proofs.Printing.Printable
import Recast.Tree.Text

/-!
# Texts that are cut where they were put together

`Writes text P` says that scanning the text gives tokens of the form `P`, provided that it goes on
with a character that ends a lexeme; `Closes text P` asks nothing of what follows. Both are put
together from left to right as texts are.
-/

namespace Recast

open Lexer (Breaks isBreak Scans Spells)
open Recast.Parser (CommaList NoGap)

/-- The lexeme that a token is. -/
def Token.lexeme (t : Token) : Lexeme := ⟨.token t.kind, t.text, t.span⟩

@[simp] theorem Token.token?_lexeme (t : Token) : t.lexeme.token? = some t := rfl

theorem Token.filterMap_lexeme (ts : List Token) :
    (ts.map Token.lexeme).filterMap Lexeme.token? = ts := by
  rw [List.filterMap_map]
  exact List.filterMap_some

/-- Scanning the text gives tokens of the form `P` and no newline, if what follows is one of `ends`.
-/
def WritesBefore (ends : List Char → Prop) (text : String) (P : List Token → Prop) : Prop :=
  ∀ ⦃pos : Nat⦄ ⦃rest : List Char⦄ ⦃found : List Lexeme⦄, ends rest →
    Scans (pos + bytes text.toList) rest found →
      ∃ ts, P ts ∧ (∀ t ∈ ts, t.kind ≠ .newline) ∧
        Scans pos (text.toList ++ rest) (ts.map Token.lexeme ++ found)

/-- Scanning the text gives tokens of the form `P` if a character follows that ends a lexeme. -/
abbrev Writes : String → (List Token → Prop) → Prop := WritesBefore Breaks

/-- Scanning the text gives tokens of the form `P`, whatever follows. -/
abbrev Closes : String → (List Token → Prop) → Prop := WritesBefore fun _ => True

/-- The tokens have the form `P` up to some point and the form `Q` from there. -/
def Then (P Q : List Token → Prop) (ts : List Token) : Prop := ∃ us vs, ts = us ++ vs ∧ P us ∧ Q vs

/-- One token of the given kind and text, at any place. -/
def IsToken (kind : TokenKind) (text : String) (ts : List Token) : Prop :=
  ∃ span, ts = [⟨kind, text, span⟩]

section

variable {ends : List Char → Prop} {s t : String} {P Q : List Token → Prop}

theorem WritesBefore.mono (h : WritesBefore ends s P) (hPQ : ∀ ts, P ts → Q ts) :
    WritesBefore ends s Q := by
  intro pos rest found he hs
  obtain ⟨ts, hp, hn, hs⟩ := h he hs
  exact ⟨ts, hPQ ts hp, hn, hs⟩

theorem WritesBefore.append {ends' : List Char → Prop} (h : WritesBefore ends s P)
    (h' : WritesBefore ends' t Q) (he : ∀ rest, ends' rest → ends (t.toList ++ rest)) :
    WritesBefore ends' (s ++ t) (Then P Q) := by
  intro pos rest found hr hs
  rw [String.toList_append, bytes_append, ← Nat.add_assoc] at hs
  obtain ⟨vs, hq, hv, hs⟩ := h' hr hs
  obtain ⟨us, hp, hu, hs⟩ := h (he rest hr) hs
  refine ⟨us ++ vs, ⟨us, vs, rfl, hp, hq⟩, List.forall_mem_append.2 ⟨hu, hv⟩, ?_⟩
  rw [String.toList_append, List.append_assoc, List.map_append, List.append_assoc]
  exact hs

theorem WritesBefore.writes (h : Closes s P) : Writes s P := fun _ _ _ _ => h trivial

theorem WritesBefore.then (h : Closes s P) (h' : WritesBefore ends t Q) :
    WritesBefore ends (s ++ t) (Then P Q) := h.append h' fun _ _ => trivial

/-- A text goes on with one that starts with a character that ends a lexeme. -/
theorem WritesBefore.thenMark (h : Writes s P) (h' : WritesBefore ends t Q)
    (ht : t.toList.head?.any isBreak = true) : WritesBefore ends (s ++ t) (Then P Q) := by
  refine h.append h' fun rest _ c hc => ?_
  cases htext : t.toList with
  | nil =>
    rw [htext] at ht
    cases ht
  | cons d ds =>
    rw [htext] at ht hc
    cases hc
    exact ht

/-- The empty text. -/
theorem Closes.empty : Closes "" (· = []) := fun _ _ _ _ hs => ⟨[], rfl, by simp, by simpa using hs⟩

/-- A space. -/
theorem Closes.space : Closes " " (· = []) := fun _ _ _ _ hs => ⟨[], rfl, by simp, .separator rfl hs⟩

/-- A text and a space. -/
theorem WritesBefore.space (h : Writes s P) : Closes (s ++ " ") P := by
  refine (h.thenMark Closes.space rfl).mono ?_
  rintro _ ⟨us, vs, rfl, hp, rfl⟩
  rwa [List.append_nil]

/-- A space and a text. -/
theorem WritesBefore.after_space (h : WritesBefore ends s P) : WritesBefore ends (" " ++ s) P := by
  refine (Closes.space.then h).mono ?_
  rintro _ ⟨us, vs, rfl, rfl, hp⟩
  exact hp

theorem writes_lexeme {c : Char} {cs : List Char} {kind : TokenKind} (hk : kind ≠ .newline)
    (h : ∀ rest, ends rest → Lexer.munch c (cs ++ rest) = some (.token kind, cs.length)) :
    WritesBefore ends (String.ofList (c :: cs)) (IsToken kind (String.ofList (c :: cs))) := by
  intro pos rest found he hs
  refine ⟨[⟨kind, String.ofList (c :: cs), ⟨pos, pos + bytes (c :: cs)⟩⟩], ⟨_, rfl⟩, by simpa using hk,
    ?_⟩
  rw [String.toList_ofList] at hs ⊢
  simpa [Token.lexeme] using Scans.lexeme (h rest he) (by simpa using hs)

/-- A token that is spelled as its kind demands. -/
theorem Writes.token {kind : TokenKind} {text : String} (h : Spells (.token kind) text.toList)
    (hk : kind ≠ .newline) : Writes text (IsToken kind text) := by
  obtain ⟨c, cs, htext, hm⟩ := h
  rw [← String.ofList_toList (s := text), htext]
  exact writes_lexeme hk fun rest hr => Lexer.munch_append hm hr

/-! ### Marks -/

/-- A mark that no character can extend. -/
theorem Closes.mark {kind : TokenKind} (c : Char) (cs : List Char) (hk : kind ≠ .newline)
    (h : ∀ rest, Lexer.munch c (cs ++ rest) = some (.token kind, cs.length)) :
    Closes (String.ofList (c :: cs)) (IsToken kind (String.ofList (c :: cs))) :=
  writes_lexeme hk fun rest _ => h rest

theorem Closes.leftParen : Closes "(" (IsToken .leftParen "(") :=
  .mark '(' [] nofun fun _ => rfl

theorem Closes.rightParen : Closes ")" (IsToken .rightParen ")") :=
  .mark ')' [] nofun fun _ => rfl

theorem Closes.leftBrace : Closes "\x7b" (IsToken .leftBrace "\x7b") :=
  .mark '{' [] nofun fun _ => rfl

theorem Closes.rightBrace : Closes "\x7d" (IsToken .rightBrace "\x7d") :=
  .mark '}' [] nofun fun _ => rfl

theorem Closes.comma : Closes "," (IsToken .comma ",") :=
  .mark ',' [] nofun fun _ => rfl

theorem Closes.minus : Closes "-" (IsToken (.op .sub) "-") :=
  .mark '-' [] nofun fun _ => rfl

theorem Closes.ellipsis : Closes "..." (IsToken .ellipsis "...") :=
  .mark '.' ['.', '.'] nofun fun _ => rfl

theorem Writes.operator (op : BinaryOp) : Writes op.symbol (IsToken (.op op) op.symbol) :=
  .token (by cases op <;> exact ⟨_, _, rfl, rfl⟩) nofun

theorem Writes.assign : Writes "=" (IsToken .assign "=") := .token ⟨_, _, rfl, rfl⟩ nofun

/-! ### Lists -/

/-- Items with commas between are written one by one. -/
theorem Writes.commaSeparated {β γ δ : Type} {text : β → String} {item : List Token → γ → Prop}
    {f : β → δ} {g : γ → δ} {xs : List β} (hne : xs ≠ [])
    (h : ∀ x ∈ xs, Writes (text x) fun ts => ∃ y, item ts y ∧ g y = f x) :
    Writes (Recast.commaSeparated (xs.map text)) fun ts =>
      ∃ ys, CommaList NoGap item ts ys ∧ ys.map g = xs.map f := by
  induction xs with
  | nil => exact absurd rfl hne
  | cons x xs ih =>
    have hx := h x List.mem_cons_self
    rw [Recast.commaSeparated, List.map_cons]
    cases xs with
    | nil =>
      rw [List.map_nil, String.intercalate_singleton]
      refine hx.mono ?_
      rintro ts ⟨y, hy, hr⟩
      exact ⟨[y], .one hy, congrArg (fun z => [z]) hr⟩
    | cons x' xs =>
      have hxs := ih (by simp) fun y hy => h y (List.mem_cons_of_mem _ hy)
      rw [Recast.commaSeparated, List.map_cons] at hxs
      rw [List.map_cons, String.intercalate_cons_cons]
      have hcomma : Closes ", " (IsToken .comma ",") := Closes.comma.writes.space
      refine ((hx.thenMark hcomma rfl).then hxs).mono ?_
      rintro _ ⟨_, vs, rfl, ⟨us, _, rfl, ⟨y, hy, hr⟩, ⟨span, rfl⟩⟩, ys, hys, hall⟩
      refine ⟨y :: ys, ?_, by rw [List.map_cons, hr, hall]; rfl⟩
      have hlist : CommaList NoGap item (us ++ ⟨.comma, ",", span⟩ :: [] ++ vs) (y :: ys) :=
        .cons hy rfl hys
      simpa using hlist

end

end Recast
