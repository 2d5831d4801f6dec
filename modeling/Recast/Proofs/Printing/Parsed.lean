import Recast.Proofs.Printing.Scanned

/-!
# Documents are parsed

The tokens of a document are the functions of the document, and its trivia are its comments and where
its blank lines are.
-/

namespace Recast

open Recast.Parser (ReadsBlock ReadsFunctions Terminators)

/-! ### Tokens -/

/-- The tokens among lexemes. -/
def tokensOf (ls : List Lexeme) : List Token := ls.filterMap Lexeme.token?

@[simp] theorem tokensOf_append (us vs : List Lexeme) :
    tokensOf (us ++ vs) = tokensOf us ++ tokensOf vs := List.filterMap_append

@[simp] theorem tokensOf_map_lexeme (ts : List Token) : tokensOf (ts.map Token.lexeme) = ts :=
  Token.filterMap_lexeme ts

theorem terminators_append {us vs : List Token} (hu : Terminators us) (hv : Terminators vs) :
    Terminators (us ++ vs) := List.forall_mem_append.2 ⟨hu, hv⟩

theorem BlankScanned.terminators {blank : Bool} {ls : List Lexeme} (h : BlankScanned blank ls) :
    Terminators (tokensOf ls) := by
  cases h with
  | none => exact nofun
  | some pos => exact List.forall_mem_singleton.2 (.inl rfl)

theorem TailScanned.tokens {trailing? : Option (Comment String)} {ls : List Lexeme}
    (h : TailScanned trailing? ls) : ∃ pos, tokensOf ls = [⟨.newline, "\n", ⟨pos, pos + 1⟩⟩] := by
  cases h with
  | none pos | some pos => exact ⟨pos, rfl⟩

theorem Note.Scanned.terminators {n : Note} {ls : List Lexeme} (h : n.Scanned ls) :
    Terminators (tokensOf ls) := by
  cases h with
  | mk pos scanned own =>
    rw [tokensOf_append]
    exact terminators_append scanned.terminators (List.forall_mem_singleton.2 (.inl rfl))

theorem AllScanned.terminators {notes : List Note} {ls : List Lexeme}
    (h : AllScanned Note.Scanned notes ls) : Terminators (tokensOf ls) := by
  induction h with
  | nil => exact nofun
  | cons hx _ ih =>
    rw [tokensOf_append]
    exact terminators_append hx.terminators ih

/-- A line of code ends with a newline and has nothing but newlines before the code. -/
theorem Entry.Scanned.tokens {γ : Type} {reads : γ → List Token → Prop} {e : Entry γ}
    {ls : List Lexeme} (h : e.Scanned reads ls) : ∃ before ts pos, Terminators before ∧
      reads e.code ts ∧ tokensOf ls = before ++ ts ++ [⟨.newline, "\n", ⟨pos, pos + 1⟩⟩] := by
  cases h with
  | mk before separated code line ended =>
    obtain ⟨pos, htail⟩ := ended.tokens
    refine ⟨_, _, pos, terminators_append before.terminators separated.terminators, code, ?_⟩
    simp only [tokensOf_append, tokensOf_map_lexeme, htail]

theorem terminators_newline (pos : Nat) : Terminators [⟨.newline, "\n", ⟨pos, pos + 1⟩⟩] :=
  List.forall_mem_singleton.2 (.inl rfl)

/-- The statements and comments in a function with its closing brace are a block. -/
theorem AllScanned.readsBlock {entries : List (Entry SourceStmt)} {body notes : List Lexeme}
    {after : List Note}
    (h : AllScanned (Entry.Scanned fun s ts => Parser.ReadsStmt ts s) entries body)
    (hafter : AllScanned Note.Scanned after notes) (close : Span) :
    ∀ {ends : List Token}, Terminators ends → ReadsBlock
      (ends ++ (tokensOf (body ++ notes) ++ [⟨.rightBrace, "\x7d", close⟩]))
      (entries.map Entry.code) close := by
  induction h with
  | nil =>
    intro ends hends
    have : ReadsBlock (ends ++ tokensOf notes ++ [⟨.rightBrace, "\x7d", close⟩]) [] close :=
      .close (terminators_append hends hafter.terminators)
    simpa using this
  | cons hx _ ih =>
    intro ends hends
    obtain ⟨before, ts, pos, hbefore, hts, htokens⟩ := hx.tokens
    have := ReadsBlock.stmt (terminators_append hends hbefore) hts rfl (ih (terminators_newline pos))
    simpa [htokens] using this

/-- The lexemes of a document are its functions. -/
theorem AllScanned.readsFunctions {blocks : List (Block Empty Span)} {ls notes : List Lexeme}
    {after : List Note} (h : AllScanned Block.Scanned blocks ls)
    (hafter : AllScanned Note.Scanned after notes) : ∀ {ends : List Token}, Terminators ends →
      ReadsFunctions (ends ++ tokensOf (ls ++ notes)) (blocks.map fun b => b.header.code) := by
  induction h with
  | nil =>
    intro ends hends
    exact .done (terminators_append hends hafter.terminators)
  | @cons b _ _ _ hb _ ih =>
    intro ends hends
    cases hb with
    | @mk header body notes tail close first inside around ended =>
      obtain ⟨before, ts, pos, hbefore, hopens, htokens⟩ := first.tokens
      obtain ⟨pos', htail⟩ := ended.tokens
      have hblock := inside.readsBlock around close (terminators_newline pos)
      rw [b.complete] at hblock
      have hfunction := ReadsFunctions.function (terminators_append hends hbefore)
        (hopens.reads _ hblock) (ih (terminators_newline pos'))
      have hclose : tokensOf (⟨.token .rightBrace, "\x7d", close⟩ :: tail)
          = [⟨.rightBrace, "\x7d", close⟩] ++ [⟨.newline, "\n", ⟨pos', pos' + 1⟩⟩] := by
        rw [← htail]
        rfl
      simp only [tokensOf_append, htokens, hclose, List.append_assoc, List.map_cons] at hfunction ⊢
      exact hfunction

theorem Document.Scanned.readsFunctions {d : Document Empty Span} {ls : List Lexeme}
    (h : d.Scanned ls) : ReadsFunctions (tokensOf ls) d.functions := by
  cases h with
  | mk functions after =>
    have hnone : Terminators [] := fun _ ht => absurd ht List.not_mem_nil
    exact functions.readsFunctions after hnone

/-! ### Trivia -/

namespace Lexed

/-- The comments among lexemes, where `content` says whether something stands before the first of them
on its line. -/
def commentsOf : (content : Bool) → List Lexeme → List (Comment String)
  | _, [] => []
  | content, ⟨.comment, text, span⟩ :: ls => ⟨text, span, content⟩ :: commentsOf true ls
  | _, ⟨.token kind, _, _⟩ :: ls =>
    if kind = .newline then commentsOf false ls else commentsOf true ls

/-- The positions of the newlines among lexemes that end blank lines. -/
def blankLinesOf : (content : Bool) → List Lexeme → List Nat
  | _, [] => []
  | _, ⟨.comment, _, _⟩ :: ls => blankLinesOf true ls
  | content, ⟨.token kind, _, span⟩ :: ls =>
    if kind = .newline then
      (if content then [] else [span.start]) ++ blankLinesOf false ls
    else blankLinesOf true ls

theorem trivia_foldl (ls : List Lexeme) : ∀ s : Sorting,
    (ls.foldl Sorting.add s).comments.reverse = s.comments.reverse ++ commentsOf s.hasContent ls ∧
      (ls.foldl Sorting.add s).blankLines.reverse
        = s.blankLines.reverse ++ blankLinesOf s.hasContent ls := by
  induction ls with
  | nil => simp [commentsOf, blankLinesOf]
  | cons l ls ih =>
    intro s
    rw [List.foldl_cons, (ih _).1, (ih _).2]
    obtain ⟨kind, text, span⟩ := l
    cases kind with
    | comment => simp [Sorting.add, commentsOf, blankLinesOf]
    | token kind =>
      cases kind with
      | newline => cases hc : s.hasContent <;> simp [Sorting.add, commentsOf, blankLinesOf, hc]
      | _ => simp [Sorting.add, commentsOf, blankLinesOf]

theorem trivia_ofLexemes (ls : List Lexeme) (stop : Nat) :
    (ofLexemes ls stop).trivia = ⟨commentsOf false ls, blankLinesOf false ls⟩ := by
  obtain ⟨hc, hb⟩ := trivia_foldl ls ⟨[], [], [], false⟩
  exact congrArg₂ Trivia.mk hc hb

variable {b : Bool} {ls : List Lexeme}

/-- Comments are among the lexemes. -/
theorem lexeme_mem_of_mem_commentsOf {c : Comment String} {ls : List Lexeme} {content : Bool}
    (h : c ∈ commentsOf content ls) : c.lexeme ∈ ls := by
  induction ls generalizing content with
  | nil => cases h
  | cons l ls ih =>
    obtain ⟨_ | kind, text, span⟩ := l
    · rw [commentsOf] at h
      split at h <;> exact List.mem_cons_of_mem _ (ih h)
    · rcases List.mem_cons.1 h with rfl | h
      · exact List.mem_cons_self
      · exact List.mem_cons_of_mem _ (ih h)

/-- Blank lines end where newlines stand. -/
theorem exists_of_mem_blankLinesOf {pos : Nat} {ls : List Lexeme} {content : Bool}
    (h : pos ∈ blankLinesOf content ls) : ∃ l ∈ ls, l.span.start = pos := by
  induction ls generalizing content with
  | nil => cases h
  | cons l ls ih =>
    have hls : ∀ {content}, pos ∈ blankLinesOf content ls → ∃ x ∈ l :: ls, x.span.start = pos :=
      fun h => by
        obtain ⟨x, hx, hs⟩ := ih h
        exact ⟨x, List.mem_cons_of_mem _ hx, hs⟩
    obtain ⟨_ | kind, text, span⟩ := l
    · rw [blankLinesOf] at h
      split at h
      · rcases List.mem_append.1 h with h | h
        · split at h
          · cases h
          · exact ⟨_, List.mem_cons_self, (List.mem_singleton.1 h).symm⟩
        · exact hls h
      · exact hls h
    · exact hls h

/-- Tokens on one line leave no trivia behind. -/
theorem trivia_tokens {ts : List Token} (hne : ts ≠ []) (hline : ∀ t ∈ ts, t.kind ≠ .newline)
    (content : Bool) (rest : List Lexeme) :
    commentsOf content (ts.map Token.lexeme ++ rest) = commentsOf true rest ∧
      blankLinesOf content (ts.map Token.lexeme ++ rest) = blankLinesOf true rest := by
  induction ts generalizing content with
  | nil => exact absurd rfl hne
  | cons t ts ih =>
    have ht : t.kind ≠ .newline := hline t List.mem_cons_self
    have hfirst : commentsOf content (t.lexeme :: (ts.map Token.lexeme ++ rest))
          = commentsOf true (ts.map Token.lexeme ++ rest) ∧
        blankLinesOf content (t.lexeme :: (ts.map Token.lexeme ++ rest))
          = blankLinesOf true (ts.map Token.lexeme ++ rest) :=
      ⟨if_neg ht, if_neg ht⟩
    rw [List.map_cons, List.cons_append, hfirst.1, hfirst.2]
    cases ts with
    | nil => exact ⟨rfl, rfl⟩
    | cons t' ts => exact ih (by simp) (fun t h => hline t (List.mem_cons_of_mem _ h)) true

end Lexed

open Lexed (commentsOf blankLinesOf)

/-- The positions of the newlines of blank lines. -/
theorem BlankScanned.trivia {blank : Bool} {ls : List Lexeme} (h : BlankScanned blank ls)
    (rest : List Lexeme) : commentsOf false (ls ++ rest) = commentsOf false rest ∧
      blankLinesOf false (ls ++ rest) = blankLinesOf false ls ++ blankLinesOf false rest := by
  cases h <;> exact ⟨rfl, rfl⟩

theorem TailScanned.trivia {trailing? : Option (Comment String)} {ls : List Lexeme}
    (h : TailScanned trailing? ls) (rest : List Lexeme) :
    commentsOf true (ls ++ rest) = trailing?.toList ++ commentsOf false rest ∧
      blankLinesOf true (ls ++ rest) = blankLinesOf false rest := by
  cases h with
  | none => exact ⟨rfl, rfl⟩
  | @some c pos trailing =>
    obtain ⟨text, span, _⟩ := c
    cases trailing
    exact ⟨rfl, rfl⟩

theorem Note.Scanned.trivia {n : Note} {ls : List Lexeme} (h : n.Scanned ls) (rest : List Lexeme) :
    commentsOf false (ls ++ rest) = n.comment :: commentsOf false rest ∧
      blankLinesOf false (ls ++ rest) = blankLinesOf false ls ++ blankLinesOf false rest := by
  cases h with
  | mk pos scanned own =>
    obtain ⟨blank, text, span, _⟩ := n
    cases own
    cases scanned <;> exact ⟨rfl, rfl⟩

theorem AllScanned.trivia {notes : List Note} {ls : List Lexeme}
    (h : AllScanned Note.Scanned notes ls) (rest : List Lexeme) :
    commentsOf false (ls ++ rest) = notes.map Note.comment ++ commentsOf false rest ∧
      blankLinesOf false (ls ++ rest) = blankLinesOf false ls ++ blankLinesOf false rest := by
  induction h with
  | nil => exact ⟨rfl, rfl⟩
  | @cons n notes us vs hn _ ih =>
    obtain ⟨hc, hb⟩ := hn.trivia (vs ++ rest)
    rw [List.append_assoc, hc, hb, ih.1, ih.2, (hn.trivia vs).2, List.append_assoc]
    exact ⟨rfl, rfl⟩

/-- The trivia of a line of code. -/
theorem trivia_line {notes : List Note} {blank : Bool} {trailing? : Option (Comment String)}
    {ns bs tail : List Lexeme} {ts : List Token} (hn : AllScanned Note.Scanned notes ns)
    (hb : BlankScanned blank bs) (hne : ts ≠ []) (hline : ∀ t ∈ ts, t.kind ≠ .newline)
    (ht : TailScanned trailing? tail) (rest : List Lexeme) :
    commentsOf false (ns ++ (bs ++ (ts.map Token.lexeme ++ (tail ++ rest))))
        = notes.map Note.comment ++ (trailing?.toList ++ commentsOf false rest) ∧
      blankLinesOf false (ns ++ (bs ++ (ts.map Token.lexeme ++ (tail ++ rest))))
        = blankLinesOf false (ns ++ bs) ++ blankLinesOf false rest := by
  have hcode := Lexed.trivia_tokens hne hline false (tail ++ rest)
  rw [(hn.trivia _).1, (hn.trivia _).2, (hb.trivia _).1, (hb.trivia _).2, hcode.1, hcode.2,
    (ht.trivia _).1, (ht.trivia _).2, (hn.trivia _).2, List.append_assoc]
  exact ⟨rfl, rfl⟩

/-- The comments of things in order. -/
theorem AllScanned.comments {β : Type} {scanned : β → List Lexeme → Prop}
    {comments : β → List (Comment String)} (hx : ∀ x us, scanned x us → ∀ rest,
      commentsOf false (us ++ rest) = comments x ++ commentsOf false rest)
    {xs : List β} {ls : List Lexeme} (h : AllScanned scanned xs ls) (rest : List Lexeme) :
    commentsOf false (ls ++ rest) = xs.flatMap comments ++ commentsOf false rest := by
  induction h with
  | nil => rfl
  | @cons x xs us vs h _ ih =>
    rw [List.append_assoc, hx x us h, ih, List.flatMap_cons, List.append_assoc]

theorem Entry.Scanned.comments {γ : Type} {reads : γ → List Token → Prop} {e : Entry γ}
    {ls : List Lexeme} (h : e.Scanned reads ls) (hne : ∀ ts, reads e.code ts → ts ≠ [])
    (rest : List Lexeme) : commentsOf false (ls ++ rest) = e.comments ++ commentsOf false rest := by
  cases h with
  | mk before separated code line ended =>
    simp only [List.append_assoc]
    rw [(trivia_line before separated (hne _ code) line ended rest).1, Entry.comments,
      List.append_assoc]

theorem Block.Scanned.comments {b : Block Empty Span} {ls : List Lexeme} (h : b.Scanned ls)
    (rest : List Lexeme) : commentsOf false (ls ++ rest) = b.comments ++ commentsOf false rest := by
  cases h with
  | @mk header body notes tail close first inside after ended =>
    have hbody := inside.comments fun e us he rest =>
      he.comments (fun ts hts => by
        obtain ⟨t, ts, rfl, -⟩ := hts.starts
        exact List.cons_ne_nil t ts) rest
    have hbrace : ∀ t ∈ [(⟨.rightBrace, "\x7d", close⟩ : Token)], t.kind ≠ .newline := by simp
    have hclose := (trivia_line .nil .none (by simp) hbrace ended rest).1
    simp only [List.append_assoc, List.cons_append]
    rw [first.comments, hbody, (after.trivia _).1, Block.comments]
    · simpa [Token.lexeme] using hclose
    · intro ts hts
      obtain ⟨t, ts, rfl, -⟩ := hts.first
      exact List.cons_ne_nil t ts

/-- The comments of a document are those among its lexemes. -/
theorem Document.Scanned.comments {d : Document Empty Span} {ls : List Lexeme} (h : d.Scanned ls) :
    commentsOf false ls = d.comments := by
  cases h with
  | mk functions after =>
    have hnotes := (after.trivia []).1
    rw [List.append_nil] at hnotes
    rw [functions.comments fun b us hb => hb.comments, hnotes]
    exact congrArg _ (List.append_nil _)

end Recast
