import Mathlib.Data.List.Pairwise
import Recast.Proofs.Lexing.Slice
import Recast.Proofs.Printing.Parsed

/-!
# Lexing loses nothing

Tokens and comments stand in a source text one after the other, and between them there is nothing
but spaces, tabs and carriage returns. What a token is depends on its own text alone: the texts of
all tokens with spaces between them are cut into the same tokens again.
-/

namespace Recast

open Lexer (Breaks Scans Spells isSeparator)

/-! ### All places -/

/-- Of things that stand one after the other, two with a byte in common are the same. -/
theorem eq_of_overlap {β : Type} {span : β → Span} {xs : List β}
    (h : xs.Pairwise fun a b => (span a).stop ≤ (span b).start) {a b : β} (ha : a ∈ xs) (hb : b ∈ xs)
    (hab : (span a).start < (span b).stop) (hba : (span b).start < (span a).stop) : a = b := by
  let Apart (a b : β) : Prop := (span a).stop ≤ (span b).start ∨ (span b).stop ≤ (span a).start
  have : Std.Symm Apart := ⟨fun _ _ => Or.symm⟩
  have hapart : xs.Pairwise Apart := h.imp .inl
  by_contra hne
  have := hapart.forall ha hb hne
  omega

namespace Lexed

/-- Where the tokens and the comments stand, merged by position. -/
def spans (lexed : Lexed) : List Span :=
  (lexed.tokens.map Token.span).merge (lexed.trivia.comments.map Comment.span)
    fun s t => s.start ≤ t.start

theorem span_tokens_sublist (ls : List Lexeme) :
    ((ls.filterMap Lexeme.token?).map Token.span).Sublist (ls.map Lexeme.span) := by
  induction ls with
  | nil => exact .slnil
  | cons l ls ih =>
    obtain ⟨_ | kind, text, span⟩ := l
    · exact ih.cons_cons span
    · exact ih.cons span

theorem span_commentsOf_sublist (ls : List Lexeme) : ∀ content : Bool,
    ((commentsOf content ls).map Comment.span).Sublist (ls.map Lexeme.span) := by
  induction ls with
  | nil => exact fun _ => .slnil
  | cons l ls ih =>
    intro content
    obtain ⟨_ | kind, text, span⟩ := l
    · rw [commentsOf]
      split <;> exact (ih _).cons span
    · exact (ih true).cons_cons span

/-- Each lexeme is a token or a comment. -/
theorem span_tokens_append_perm (ls : List Lexeme) : ∀ content : Bool,
    ((ls.filterMap Lexeme.token?).map Token.span ++ (commentsOf content ls).map Comment.span).Perm
      (ls.map Lexeme.span) := by
  induction ls with
  | nil => exact fun _ => .nil
  | cons l ls ih =>
    intro content
    obtain ⟨_ | kind, text, span⟩ := l
    · rw [commentsOf]
      split <;> exact (ih _).cons span
    · exact List.perm_middle.trans ((ih true).cons span)

/-- The merged places are those of the lexemes in the order in which they were found. -/
theorem spans_ofLexemes {ls : List Lexeme} {pos stop : Nat} (h : Lexer.Aligned pos stop ls)
    (size : Nat) : (ofLexemes ls size).spans = ls.map Lexeme.span := by
  have hle : (ls.map Lexeme.span).Pairwise fun s t => decide (s.start ≤ t.start) = true :=
    List.pairwise_map.2 (h.apart.imp_of_mem fun {a b} ha _ hab =>
      decide_eq_true ((h.bounds a ha).2.1.le.trans hab))
  have hsorted : (ofLexemes ls size).spans.Pairwise fun s t => decide (s.start ≤ t.start) = true := by
    rw [spans, tokens_ofLexemes, trivia_ofLexemes]
    refine List.pairwise_merge (fun a b c hab hbc => ?_) (fun a b => ?_) _ _
      (hle.sublist (span_tokens_sublist ls)) (hle.sublist (span_commentsOf_sublist ls false))
    · rw [decide_eq_true_iff] at hab hbc ⊢
      exact hab.trans hbc
    · rw [Bool.or_eq_true, decide_eq_true_iff, decide_eq_true_iff]
      exact Nat.le_total _ _
  have hperm : (ofLexemes ls size).spans.Perm (ls.map Lexeme.span) := by
    rw [spans, tokens_ofLexemes, trivia_ofLexemes]
    exact (List.merge_perm_append _).trans (span_tokens_append_perm ls false)
  refine hperm.eq_of_pairwise (fun s t hs ht hst hts => ?_) hsorted hle
  obtain ⟨a, ha, rfl⟩ := List.mem_map.1 (hperm.mem_iff.1 hs)
  obtain ⟨b, hb, rfl⟩ := List.mem_map.1 ht
  rw [decide_eq_true_iff] at hst hts
  rw [eq_of_overlap h.apart ha hb (hst.trans_lt (h.bounds b hb).2.1)
    (hts.trans_lt (h.bounds a ha).2.1)]

end Lexed

/-! ### What stands between -/

/-- A byte of a text that belongs to no lexeme is a separator. -/
theorem Lexer.Scans.isSeparator_of_uncovered {pos : Nat} {cs : List Char} {found : List Lexeme}
    (h : Scans pos cs found) : ∀ i, pos ≤ i → i < pos + bytes cs →
      (∀ l ∈ found, ¬ l.span.contains i = true) →
        ∃ before c after, cs = before ++ c :: after ∧ i = pos + bytes before ∧ isSeparator c := by
  induction h with
  | nil =>
    intro i hlo hhi
    rw [bytes_nil] at hhi
    omega
  | @separator pos c cs found hs _ ih =>
    intro i hlo hhi hnone
    have hsize : c.utf8Size = 1 := by
      simp only [isSeparator, Bool.or_eq_true, beq_iff_eq] at hs
      rcases hs with (rfl | rfl) | rfl <;> rfl
    rw [bytes_cons] at hhi
    by_cases hi : i = pos
    · exact ⟨[], c, cs, rfl, by rw [hi]; rfl, hs⟩
    · obtain ⟨before, d, after, rfl, rfl, hd⟩ := ih i (by omega) (by omega) hnone
      exact ⟨c :: before, d, after, rfl, by rw [bytes_cons, Nat.add_assoc], hd⟩
  | @lexeme pos n c cs kind found hm _ ih =>
    intro i hlo hhi hnone
    rw [List.forall_mem_cons, Span.contains_iff] at hnone
    have hsplit : bytes (c :: cs) = bytes (c :: cs.take n) + bytes (cs.drop n) := by
      rw [← bytes_append, List.cons_append, List.take_append_drop]
    have hle : pos + bytes (c :: cs.take n) ≤ i := by
      have := hnone.1
      dsimp only at this
      omega
    obtain ⟨before, d, after, hcs, rfl, hd⟩ := ih i hle (by omega) hnone.2
    refine ⟨c :: cs.take n ++ before, d, after, ?_, by rw [bytes_append, Nat.add_assoc], hd⟩
    rw [List.append_assoc, ← hcs, List.cons_append, List.take_append_drop]

/-- Tokens and comments cover a source text but for separators: they stand where their spans say, one
after the other, and each byte outside of them is a space, a tab or a carriage return. -/
structure Lexed.Covers (lexed : Lexed) (source : String) : Prop extends lexed.ReadFrom source where
  nonempty : ∀ s ∈ lexed.spans, s.start < s.stop
  apart : lexed.spans.Pairwise fun s t => s.stop ≤ t.start
  inside : ∀ s ∈ lexed.spans, s.stop ≤ lexed.stop
  stop_eq : lexed.stop = source.utf8ByteSize
  between : ∀ pos < source.utf8ByteSize, (∀ s ∈ lexed.spans, ¬ s.contains pos) →
    ∃ blank ∈ [" ", "\t", "\r"], Span.Selects ⟨pos, pos + 1⟩ source blank

theorem covers_of_lex {source : String} {lexed : Lexed} (h : lex source = .ok lexed) :
    lexed.Covers source := by
  have hread := readFrom_of_lex h
  obtain ⟨found, hs, rfl⟩ := lex_eq_ok.1 h
  have ha := hs.aligned
  have hspans := Lexed.spans_ofLexemes ha source.utf8ByteSize
  have hsize : bytes source.toList = source.utf8ByteSize := by rw [bytes, String.ofList_toList]
  rw [Nat.zero_add, hsize] at ha
  refine { hread with nonempty := ?_, apart := ?_, inside := ?_, stop_eq := rfl, between := ?_ }
  · rw [hspans]
    exact List.forall_mem_map.2 fun l hl => (ha.bounds l hl).2.1
  · rw [hspans]
    exact List.pairwise_map.2 ha.apart
  · rw [hspans]
    exact List.forall_mem_map.2 fun l hl => (ha.bounds l hl).2.2
  · intro pos hpos hnone
    rw [hspans, List.forall_mem_map] at hnone
    obtain ⟨before, c, after, hsource, hat, hc⟩ := hs.isSeparator_of_uncovered pos (Nat.zero_le _)
      (by omega) hnone
    rw [Nat.zero_add] at hat
    refine ⟨String.singleton c, ?_, String.ofList before, String.ofList after, ?_, hat.symm, ?_⟩
    · simp only [isSeparator, Bool.or_eq_true, beq_iff_eq] at hc
      rcases hc with (rfl | rfl) | rfl <;> decide
    · rw [← String.toList_inj, hsource]
      simp
    · simp only [isSeparator, Bool.or_eq_true, beq_iff_eq] at hc
      rcases hc with (rfl | rfl) | rfl <;> rfl

/-! ### Cutting again -/

/-- What a token or lexeme is, without its place. -/
def Token.plain (t : Token) : TokenKind × String := (t.kind, t.text)

theorem Lexer.Spells.scans {kind : TokenKind} {cs rest : List Char} {pos : Nat}
    {found : List Lexeme} (h : Spells (.token kind) cs) (hr : Breaks rest)
    (hs : Scans (pos + bytes cs) rest found) :
    Scans pos (cs ++ rest) (⟨.token kind, String.ofList cs, ⟨pos, pos + bytes cs⟩⟩ :: found) := by
  obtain ⟨c, tail, rfl, hm⟩ := h
  have := @Scans.lexeme pos tail.length c (tail ++ rest) _ found (munch_append hm hr)
  rw [List.take_left, List.drop_left] at this
  exact this hs

/-- The texts of tokens with spaces between them are cut into these tokens. -/
theorem scans_spaced {ts : List Token} (h : ∀ t ∈ ts, t.Spelled) : ∀ pos, ∃ us : List Token,
    us.map Token.plain = ts.map Token.plain ∧
      Scans pos (" ".intercalate (ts.map Token.text)).toList (us.map Token.lexeme) := by
  induction ts with
  | nil => exact fun pos => ⟨[], rfl, .nil⟩
  | cons t ts ih =>
    intro pos
    obtain ⟨ht, hts⟩ := List.forall_mem_cons.1 h
    have place (rest : List Char) (us : List Token) (hr : Breaks rest)
        (hs : Scans (pos + bytes t.text.toList) rest (us.map Token.lexeme)) :
        Scans pos (t.text.toList ++ rest)
          ((⟨t.kind, t.text, ⟨pos, pos + bytes t.text.toList⟩⟩ :: us).map Token.lexeme) := by
      have := ht.1.scans hr hs
      rwa [String.ofList_toList] at this
    cases ts with
    | nil =>
      refine ⟨[⟨t.kind, t.text, ⟨pos, pos + bytes t.text.toList⟩⟩], rfl, ?_⟩
      simpa using place [] [] .nil .nil
    | cons t' ts =>
      obtain ⟨us, hus, hs⟩ := ih hts (pos + bytes t.text.toList + ' '.utf8Size)
      refine ⟨⟨t.kind, t.text, ⟨pos, pos + bytes t.text.toList⟩⟩ :: us, ?_, ?_⟩
      · rw [List.map_cons, hus]
        rfl
      · rw [List.map_cons, List.map_cons, String.intercalate_cons_cons, ← List.map_cons]
        simpa using place (' ' :: _) us (.cons rfl) (.separator rfl hs)

end Recast
