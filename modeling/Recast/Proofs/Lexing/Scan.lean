import Recast.Proofs.Lexing.Munch
import Recast.Proofs.Grammar.Spans

/-!
# Cutting a text into lexemes

`Scans pos cs found` says that the text `cs`, which stands at byte offset `pos`, is cut into the
lexemes `found`. Lexemes stand one after the other, each is spelled as its kind demands, and what
a text is cut into can be worked out from the front.
-/

namespace Recast

/-- Number of bytes of a text. -/
def bytes (cs : List Char) : Nat := (String.ofList cs).utf8ByteSize

@[simp] theorem bytes_nil : bytes [] = 0 := rfl

@[simp] theorem bytes_cons (c : Char) (cs : List Char) : bytes (c :: cs) = c.utf8Size + bytes cs := by
  rw [bytes, String.ofList_cons, String.utf8ByteSize_append, String.utf8ByteSize_singleton, bytes]

@[simp] theorem bytes_append (cs ds : List Char) : bytes (cs ++ ds) = bytes cs + bytes ds := by
  induction cs with
  | nil => simp
  | cons c cs ih => rw [List.cons_append, bytes_cons, bytes_cons, ih, Nat.add_assoc]

theorem bytes_pos {cs : List Char} (h : cs ≠ []) : 0 < bytes cs := by
  obtain ⟨c, cs, rfl⟩ := List.exists_cons_of_ne_nil h
  have := c.utf8Size_pos
  rw [bytes_cons]
  omega

namespace Lexer

/-- The text at a byte offset is cut into the lexemes. -/
inductive Scans : (pos : Nat) → List Char → List Lexeme → Prop
  | nil {pos : Nat} : Scans pos [] []
  | separator {pos : Nat} {c : Char} {cs : List Char} {found : List Lexeme} :
      isSeparator c → Scans (pos + c.utf8Size) cs found → Scans pos (c :: cs) found
  | lexeme {pos n : Nat} {c : Char} {cs : List Char} {kind : LexemeKind} {found : List Lexeme} :
      munch c cs = some (kind, n) → Scans (pos + bytes (c :: cs.take n)) (cs.drop n) found →
        Scans pos (c :: cs)
          (⟨kind, String.ofList (c :: cs.take n), ⟨pos, pos + bytes (c :: cs.take n)⟩⟩ :: found)

theorem scan_skip (found : List Lexeme) : ∀ (pos n : Nat) (cs : List Char),
    scan found pos n cs = scan found (pos + bytes (cs.take n)) 0 (cs.drop n)
  | pos, 0, cs => by simp
  | pos, n + 1, [] => by simp [scan]
  | pos, n + 1, c :: cs => by
    rw [scan, scan_skip found _ n cs, List.take_succ_cons, List.drop_succ_cons, bytes_cons,
      Nat.add_assoc]

theorem scan_eq_ok {cs : List Char} : ∀ {found res : List Lexeme} {pos : Nat},
    scan found pos 0 cs = .ok res ↔ ∃ more, res = found.reverse ++ more ∧ Scans pos cs more := by
  induction h : cs.length using Nat.strongRecOn generalizing cs with
  | _ n ih =>
    intro found res pos
    cases cs with
    | nil =>
      rw [scan]
      constructor
      · intro h
        cases h
        exact ⟨[], by simp, .nil⟩
      · rintro ⟨more, rfl, h⟩
        cases h
        rw [List.append_nil]
    | cons c cs =>
      rw [scan]
      by_cases hs : isSeparator c
      · rw [if_pos hs, ih cs.length (by simp at h; omega) rfl]
        constructor
        · rintro ⟨more, rfl, h⟩
          exact ⟨more, rfl, .separator hs h⟩
        · rintro ⟨more, rfl, h⟩
          cases h with
          | separator _ h => exact ⟨more, rfl, h⟩
          | lexeme hm => rw [munch_separator hs] at hm; cases hm
      · rw [if_neg hs]
        cases hm : munch c cs with
        | none =>
          refine ⟨fun h => (nomatch h), ?_⟩
          rintro ⟨more, rfl, h⟩
          cases h with
          | separator h => exact absurd h hs
          | lexeme h => rw [hm] at h; cases h
        | some found' =>
          obtain ⟨kind, n⟩ := found'
          dsimp only
          rw [scan_skip, ih (cs.drop n).length (by simp at h ⊢; omega) rfl]
          have hpos : pos + c.utf8Size + bytes (cs.take n) = pos + bytes (c :: cs.take n) := by
            rw [bytes_cons, Nat.add_assoc]
          rw [hpos]
          constructor
          · rintro ⟨more, rfl, h⟩
            exact ⟨_ :: more, by simp [bytes], .lexeme hm h⟩
          · rintro ⟨more, rfl, h⟩
            cases h with
            | separator h => exact absurd h hs
            | lexeme h hrest =>
              rw [hm] at h
              cases h
              exact ⟨_, by simp [bytes], hrest⟩

theorem lexemes_eq_ok {source : String} {found : List Lexeme} :
    lexemes source = .ok found ↔ Scans 0 source.toList found := by
  rw [lexemes, scan_eq_ok]
  simp

/-! ### What the lexemes of a text are like -/

/-- Lexemes that stand in a text at a byte offset one after the other, each as its kind demands. -/
structure Aligned (pos stop : Nat) (found : List Lexeme) : Prop where
  bounds : ∀ l ∈ found, pos ≤ l.span.start ∧ l.span.start < l.span.stop ∧ l.span.stop ≤ stop
  apart : found.Pairwise fun a b => a.span.stop ≤ b.span.start
  spelled : ∀ l ∈ found, Spells l.kind l.text.toList ∧
    l.span.stop = l.span.start + bytes l.text.toList

theorem Scans.aligned {pos : Nat} {cs : List Char} {found : List Lexeme}
    (h : Scans pos cs found) : Aligned pos (pos + bytes cs) found := by
  induction h with
  | nil => exact ⟨by simp, by simp, by simp⟩
  | @separator pos c cs found _ _ ih =>
    have hb : pos + c.utf8Size + bytes cs = pos + bytes (c :: cs) := by
      rw [bytes_cons, Nat.add_assoc]
    refine ⟨fun l hl => ?_, ih.apart, ih.spelled⟩
    have := ih.bounds l hl
    omega
  | @lexeme pos n c cs kind found hm _ ih =>
    have hpos : 0 < bytes (c :: cs.take n) := bytes_pos (by simp)
    have hb : bytes (c :: cs) = bytes (c :: cs.take n) + bytes (cs.drop n) := by
      rw [← bytes_append, List.cons_append, List.take_append_drop]
    refine ⟨List.forall_mem_cons.2 ⟨?_, fun l hl => ?_⟩, List.pairwise_cons.2 ⟨fun l hl => ?_,
      ih.apart⟩, List.forall_mem_cons.2 ⟨?_, ih.spelled⟩⟩
    · dsimp only
      omega
    · have := ih.bounds l hl
      omega
    · exact (ih.bounds l hl).1
    · simpa using Spells.of_munch hm

end Lexer

/-! ### Tokens -/

/-- The token that a lexeme is, unless it is a comment. -/
def Lexeme.token? : Lexeme → Option Token
  | ⟨.token kind, text, span⟩ => some ⟨kind, text, span⟩
  | ⟨.comment, _, _⟩ => none

namespace Lexed

theorem tokens_add (s : Sorting) (l : Lexeme) :
    (s.add l).tokens = l.token?.toList ++ s.tokens := by
  obtain ⟨kind, text, span⟩ := l
  cases kind with
  | comment => rfl
  | token kind => cases kind <;> rfl

theorem tokens_foldl (ls : List Lexeme) : ∀ s : Sorting,
    (ls.foldl Sorting.add s).tokens = (ls.filterMap Lexeme.token?).reverse ++ s.tokens := by
  induction ls with
  | nil => exact fun s => rfl
  | cons l ls ih =>
    intro s
    rw [List.foldl_cons, ih, tokens_add, List.filterMap_cons]
    cases l.token? <;> simp

theorem tokens_ofLexemes (ls : List Lexeme) (stop : Nat) :
    (ofLexemes ls stop).tokens = ls.filterMap Lexeme.token? := by
  simp [ofLexemes, tokens_foldl]

end Lexed

/-- A text that lexes, with what can be computed about its tokens. -/
theorem exists_lex {source : String} (check : Lexed → Bool)
    (h : (lex source).toOption.any check = true) :
    ∃ lexed, lex source = .ok lexed ∧ check lexed = true := by
  cases hl : lex source with
  | error e =>
    rw [hl] at h
    cases h
  | ok lexed =>
    rw [hl] at h
    exact ⟨lexed, rfl, h⟩

theorem lex_eq_ok {source : String} {lexed : Lexed} : lex source = .ok lexed ↔
    ∃ found, Lexer.Scans 0 source.toList found ∧
      lexed = .ofLexemes found source.utf8ByteSize := by
  rw [lex]
  cases h : lexemes source with
  | error e =>
    refine ⟨fun h => (nomatch h), ?_⟩
    rintro ⟨found, hs, -⟩
    rw [Lexer.lexemes_eq_ok.2 hs] at h
    cases h
  | ok found =>
    have hs := Lexer.lexemes_eq_ok.1 h
    constructor
    · intro h
      cases h
      exact ⟨found, hs, rfl⟩
    · rintro ⟨found', hs', rfl⟩
      rw [Lexer.lexemes_eq_ok.2 hs'] at h
      cases h
      rfl

/-- The text of a token is spelled as its kind demands. -/
def Token.Spelled (t : Token) : Prop :=
  Lexer.Spells (.token t.kind) t.text.toList ∧ t.span.stop = t.span.start + bytes t.text.toList

theorem ordered_of_lex {source : String} {lexed : Lexed} (h : lex source = .ok lexed) :
    Parser.Ordered lexed.tokens ∧ ∀ t ∈ lexed.tokens, t.Spelled := by
  obtain ⟨found, hs, rfl⟩ := lex_eq_ok.1 h
  have ha := hs.aligned
  rw [Lexed.tokens_ofLexemes]
  have of_token : ∀ {l : Lexeme} {t : Token}, l.token? = some t →
      t.span = l.span ∧ l.kind = .token t.kind ∧ t.text = l.text := by
    rintro ⟨kind, text, span⟩ t ht
    cases kind with
    | comment => cases ht
    | token kind =>
      cases ht
      exact ⟨rfl, rfl, rfl⟩
  refine ⟨⟨fun t ht => ?_, ?_⟩, fun t ht => ?_⟩
  · obtain ⟨l, hl, hlt⟩ := List.mem_filterMap.1 ht
    rw [(of_token hlt).1]
    exact (ha.bounds l hl).2.1
  · refine List.pairwise_filterMap.2 (ha.apart.imp fun {a b} hab t ht u hu => ?_)
    rw [(of_token ht).1, (of_token hu).1]
    exact hab
  · obtain ⟨l, hl, hlt⟩ := List.mem_filterMap.1 ht
    obtain ⟨hspan, hkind, htext⟩ := of_token hlt
    rw [Token.Spelled, hspan, ← hkind, htext]
    exact ha.spelled l hl

/-- A text is parsed by cutting it into tokens and reading those. -/
theorem parse_eq_ok {source : String} {tree : SourceProgram} :
    parse source = .ok tree ↔ ∃ lexed, lex source = .ok lexed ∧ lexed.parse = .ok tree := by
  rw [parse]
  cases lex source with
  | error e =>
    constructor
    · intro h
      cases h
    · rintro ⟨lexed, hl, -⟩
      cases hl
  | ok lexed =>
    constructor
    · exact fun h => ⟨lexed, rfl, h⟩
    · rintro ⟨_, ⟨⟩, h⟩
      exact h

/-- The parser puts trees where they stand in the text. -/
theorem wellPlaced_of_parse {source : String} {tree : SourceProgram}
    (h : parse source = .ok tree) : tree.WellPlaced := by
  obtain ⟨lexed, hl, hp⟩ := parse_eq_ok.1 h
  exact Lexed.wellPlaced hp (ordered_of_lex hl).1

end Recast
