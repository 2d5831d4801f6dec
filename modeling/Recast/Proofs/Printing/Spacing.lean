import Mathlib.Data.List.Forall2
import Recast.Proofs.Printing.Recode

/-!
# Blank lines between statements

A layout keeps the blank lines that the source has between two statements of a function. It looks
for them from where the first statement stops, unless a comment starts in the statement: that
comment goes to the end of its line or to the next line, and the layout goes on from the comment. So
a blank line in the rest of the statement comes out after it.
-/

namespace Recast

open Lexer (Spells)
open Lexed (commentsOf blankLinesOf)
open Recast.Parser (Ordered ReadsFunctions Within)

variable {ε α : Type}

/-! ### Comments and blank lines of a source -/

namespace Trivia

/-- Comments stand one after the other, and a blank line ends before a comment or behind it. -/
structure Apart (t : Trivia String) : Prop where
  nonempty : ∀ c ∈ t.comments, c.span.start < c.span.stop
  comments : t.comments.Pairwise fun a b => a.span.stop ≤ b.span.start
  blankLines : ∀ c ∈ t.comments, ∀ pos ∈ t.blankLines, pos < c.span.start ∨ c.span.stop < pos

/-- The first comment that starts in a span. -/
def firstIn? (t : Trivia String) (span : Span) : Option (Comment String) :=
  t.comments.find? fun c => span.contains c.span.start

/-- Where the line that is written for a span stops in the source: the first comment in the span
ends it, or else the span does. -/
def lineStop (t : Trivia String) (span : Span) : Nat :=
  ((t.firstIn? span).map fun c => c.span.stop).getD span.stop

variable {t : Trivia String}

/-- A comment between two positions divides the blank lines between them. -/
theorem Apart.hasBlankLineBetween_iff (h : t.Apart) {c : Comment String} (hc : c ∈ t.comments)
    {start stop : Nat} (hstart : start ≤ c.span.start) (hstop : c.span.start < stop) :
    t.hasBlankLineBetween start stop ↔
      t.hasBlankLineBetween start c.span.start ∨ t.hasBlankLineBetween c.span.stop stop := by
  have hne := h.nonempty c hc
  simp only [Trivia.hasBlankLineBetween_iff]
  constructor
  · rintro ⟨pos, hpos, hlo, hhi⟩
    rcases h.blankLines c hc pos hpos with hlt | hlt
    · exact .inl ⟨pos, hpos, hlo, hlt⟩
    · exact .inr ⟨pos, hpos, hlt, hhi⟩
  · rintro (⟨pos, hpos, hlo, hhi⟩ | ⟨pos, hpos, hlo, hhi⟩)
    · exact ⟨pos, hpos, hlo, hhi.trans hstop⟩
    · exact ⟨pos, hpos, by omega, hhi⟩

/-- There are more blank lines from an earlier position on. -/
theorem hasBlankLineBetween_mono {start start' stop : Nat} (hle : start' ≤ start)
    (h : t.hasBlankLineBetween start stop) : t.hasBlankLineBetween start' stop := by
  rw [hasBlankLineBetween_iff] at h ⊢
  obtain ⟨pos, hpos, hlo, hhi⟩ := h
  exact ⟨pos, hpos, hle.trans_lt hlo, hhi⟩

theorem hasBlankLineBetween_of_le {start stop : Nat} (hle : stop ≤ start) :
    t.hasBlankLineBetween start stop = false := by
  rw [Bool.eq_false_iff]
  intro h
  obtain ⟨pos, -, hlo, hhi⟩ := Trivia.hasBlankLineBetween_iff.1 h
  omega

/-- The first comment in a span is one of the comments, and it starts in the span. -/
theorem firstIn?_spec {span : Span} {c : Comment String} (h : t.firstIn? span = some c) :
    c ∈ t.comments ∧ span.contains c.span.start = true := by
  rw [firstIn?] at h
  have hin := List.find?_some (p := fun c : Comment String => span.contains c.span.start) h
  exact ⟨List.mem_of_find?_eq_some h, hin⟩

/-- A comment in a span ends the line for the span if those before it are before the span. -/
theorem lineStop_of_inside {before after : List (Comment String)} {c : Comment String} {span : Span}
    (h : t.comments = before ++ c :: after) (hbefore : ∀ c ∈ before, c.span.start < span.start)
    (hc : span.contains c.span.start = true) : t.lineStop span = c.span.stop := by
  have hskip : ∀ c ∈ before, ¬span.contains c.span.start = true := fun c hc => by
    have := hbefore c hc
    rw [Span.contains_iff]
    omega
  have hfirst : t.firstIn? span = some c := by
    rw [firstIn?, h, List.find?_append, List.find?_eq_none.2 hskip, Option.none_or]
    exact List.find?_cons_of_pos (p := fun c : Comment String => span.contains c.span.start) hc
  rw [lineStop, hfirst]
  rfl

/-- The line for a span with no comment in it stops where the span does. -/
theorem lineStop_of_none {span : Span} (h : ∀ c ∈ t.comments, ¬span.contains c.span.start = true) :
    t.lineStop span = span.stop := by
  rw [lineStop, firstIn?, List.find?_eq_none.2 h]
  rfl

theorem lineStop_of_behind {before after : List (Comment String)} {span : Span}
    (h : t.comments = before ++ after) (hbefore : ∀ c ∈ before, c.span.start < span.start)
    (hafter : ∀ c ∈ after, span.stop ≤ c.span.start) : t.lineStop span = span.stop := by
  refine lineStop_of_none (h ▸ List.forall_mem_append.2 ⟨fun c hc => ?_, fun c hc => ?_⟩)
  · have := hbefore c hc
    rw [Span.contains_iff]
    omega
  · have := hafter c hc
    rw [Span.contains_iff]
    omega

end Trivia

namespace Arranged

variable {x : Lexeme} {ls : List Lexeme}

/-- The line on which something stands is not blank. -/
theorem stop_lt_blankLine (h : Arranged (x :: ls)) {pos : Nat} (hpos : pos ∈ blankLinesOf true ls) :
    x.span.stop < pos := by
  cases ls with
  | nil => cases hpos
  | cons l ls =>
    have hrest : ∃ y ∈ ls, y.span.start = pos := by
      obtain ⟨_ | kind, text, span⟩ := l
      · rw [blankLinesOf] at hpos
        split at hpos <;> exact Lexed.exists_of_mem_blankLinesOf hpos
      · exact Lexed.exists_of_mem_blankLinesOf hpos
    obtain ⟨y, hy, rfl⟩ := hrest
    exact (h.stop_le List.mem_cons_self).trans_lt (h.tail.head_lt hy)

/-- A blank line ends before a comment or behind it. -/
theorem blankLine_apart {c : Comment String} {pos : Nat} (h : Arranged ls) :
    ∀ {content : Bool}, c ∈ commentsOf content ls → pos ∈ blankLinesOf content ls →
      pos < c.span.start ∨ c.span.stop < pos := by
  induction ls with
  | nil => exact nofun
  | cons l ls ih =>
    intro content hc hpos
    obtain ⟨_ | kind, text, span⟩ := l
    · rw [commentsOf] at hc
      rw [blankLinesOf] at hpos
      split at hc
      · rename_i hline
        rw [if_pos hline] at hpos
        rcases List.mem_append.1 hpos with hpos | hpos
        · split at hpos
          · cases hpos
          · obtain rfl := List.mem_singleton.1 hpos
            exact .inl (h.head_lt (Lexed.lexeme_mem_of_mem_commentsOf hc))
        · exact ih h.tail hc hpos
      · rename_i hline
        rw [if_neg hline] at hpos
        exact ih h.tail hc hpos
    · rcases List.mem_cons.1 hc with rfl | hc
      · exact .inr (h.stop_lt_blankLine hpos)
      · exact ih h.tail hc hpos

/-- Comments stand one after the other as lexemes do. -/
theorem commentsOf_apart (h : Arranged ls) : ∀ {content : Bool},
    (commentsOf content ls).Pairwise fun a b => a.span.stop ≤ b.span.start := by
  induction ls with
  | nil => exact .nil
  | cons l ls ih =>
    intro content
    obtain ⟨_ | kind, text, span⟩ := l
    · rw [commentsOf]
      split <;> exact ih h.tail
    · refine List.pairwise_cons.2 ⟨fun c hc => ?_, ih h.tail⟩
      exact h.stop_le (Lexed.lexeme_mem_of_mem_commentsOf hc)

theorem trivia_apart (h : Arranged ls) :
    Trivia.Apart ⟨commentsOf false ls, blankLinesOf false ls⟩ where
  nonempty _ hc := h.nonempty _ (Lexed.lexeme_mem_of_mem_commentsOf hc)
  comments := h.commentsOf_apart
  blankLines _ hc _ hpos := h.blankLine_apart hc hpos

theorem lexeme_mem {t : Token} (ht : t ∈ tokensOf ls) : t.lexeme ∈ ls := by
  obtain ⟨⟨_ | kind, text, span⟩, hl, heq⟩ := List.mem_filterMap.1 ht
  · cases heq
    exact hl
  · cases heq

/-- A comment that starts before the end of a token stops before that end. -/
theorem stop_le_of_start_lt (h : Arranged ls) {c : Comment String} (hc : c.lexeme ∈ ls)
    {t : Token} (ht : t ∈ tokensOf ls) (hlt : c.span.start < t.span.stop) :
    c.span.stop ≤ t.span.stop := by
  have hmem := lexeme_mem ht
  obtain ⟨us, vs, rfl⟩ := List.append_of_mem hc
  rcases List.mem_append.1 hmem with hu | hv
  · have : t.span.stop ≤ c.span.start := (append.1 h).2.2 _ hu _ List.mem_cons_self
    omega
  · rcases List.mem_cons.1 hv with heq | hv
    · cases heq
    · have : c.span.stop ≤ t.span.start := h.right.stop_le hv
      have : t.span.start < t.span.stop := h.right.tail.nonempty _ hv
      omega

end Arranged

/-- Statements run from one token to another. -/
theorem Parser.ReadsFunctions.within {ts : List Token} {fs : List SourceFunction}
    (h : ReadsFunctions ts fs) : Ordered ts → ∀ f ∈ fs, ∀ s ∈ f.body, Within ts s.span := by
  induction h with
  | done => exact fun _ => nofun
  | @function ends ts us f fs he hf hrest ih =>
    intro ho
    obtain ⟨ho₁, ho₂, -⟩ := Ordered.append.1 ho
    refine List.forall_mem_cons.2 ⟨fun s hs => ?_, fun g hg s hs => ?_⟩
    · cases hf with
      | mk hp hpl hr hrl hb hbl =>
        have hbody := (Ordered.append.1 (Ordered.append.1 ho₁).2.1).2.1
        refine (((hb.placed (Ordered.cons.1 hbody).2.1).placed s hs).2).mono fun t ht => ?_
        simp [ht]
    · exact (ih ho₂ g hg s hs).mono (List.subset_append_right _ _)

/-- The lexemes that a program was read from. -/
theorem exists_lexemes {source : String} {tree : SourceProgram} (h : parse source = .ok tree) :
    ∃ ls, Arranged ls ∧ Ordered (tokensOf ls) ∧ ReadsFunctions (tokensOf ls) tree.functions ∧
      tree.trivia = ⟨commentsOf false ls, blankLinesOf false ls⟩ := by
  obtain ⟨lexed, hl, hp⟩ := parse_eq_ok.1 h
  have hordered := (ordered_of_lex hl).1
  obtain ⟨ls, hscans, rfl⟩ := lex_eq_ok.1 hl
  obtain ⟨hreads, htrivia⟩ := Lexed.parse_eq_ok.1 hp
  rw [Lexed.tokens_ofLexemes] at hreads hordered
  exact ⟨ls, hscans.arranged, hordered, hreads, htrivia.trans (Lexed.trivia_ofLexemes ls _)⟩

/-- The line for a statement does not stop behind the statement. -/
theorem lineStop_le {source : String} {tree : SourceProgram} (h : parse source = .ok tree)
    {f : SourceFunction} (hf : f ∈ tree.functions) {s : SourceStmt} (hs : s ∈ f.body) :
    tree.trivia.lineStop s.span ≤ s.span.stop := by
  obtain ⟨ls, ha, ho, hreads, htrivia⟩ := exists_lexemes h
  obtain ⟨t, ht, hstop⟩ := (hreads.within ho f hf s hs).stop
  rw [Trivia.lineStop]
  cases hfirst : tree.trivia.firstIn? s.span with
  | none => exact Nat.le_refl _
  | some c =>
    obtain ⟨hc, hin⟩ := Trivia.firstIn?_spec hfirst
    have hlt := (Span.contains_iff.1 hin).2
    rw [htrivia] at hc
    rw [← hstop] at hlt ⊢
    exact ha.stop_le_of_start_lt (Lexed.lexeme_mem_of_mem_commentsOf hc) ht hlt

/-! ### Comments that are placed -/

namespace Layout

variable {trivia : Trivia String} {l l' l'' : Layout} {pos limit : Nat}

theorem startsBefore_some {c : Comment String} :
    startsBefore (some limit) c = true ↔ c.span.start < limit := decide_eq_true_iff

/-- The comments that are placed already start before a position. -/
def Reached (trivia : Trivia String) (pos : Nat) (l : Layout) : Prop :=
  ∃ placed, trivia.comments = placed ++ l.pending ∧ ∀ c ∈ placed, c.span.start < pos

namespace Reached

theorem of_pending (h : l.Reached trivia pos) {us : List (Comment String)}
    (hp : l.pending = us ++ l'.pending) (hus : ∀ c ∈ us, c.span.start < pos) :
    l'.Reached trivia pos := by
  obtain ⟨placed, hplaced, hbefore⟩ := h
  refine ⟨placed ++ us, ?_, List.forall_mem_append.2 ⟨hbefore, hus⟩⟩
  rw [hplaced, hp, List.append_assoc]

theorem mono (h : l.Reached trivia pos) {pos' : Nat} (hle : pos ≤ pos') :
    l.Reached trivia pos' := by
  obtain ⟨placed, hplaced, hbefore⟩ := h
  exact ⟨placed, hplaced, fun c hc => (hbefore c hc).trans_le hle⟩

theorem separate (h : l.Reached trivia pos) (start : Nat) :
    (l.separate trivia start).Reached trivia pos :=
  h.of_pending (List.nil_append _ ▸ (pending_separate trivia start l).symm) (List.forall_mem_nil _)

theorem commentsBefore (h : l.Reached trivia pos) (hl : limit ≤ pos) (indented : Bool) :
    (l.commentsBefore trivia (some limit) indented).Reached trivia pos := by
  refine h.of_pending List.takeWhile_append_dropWhile.symm fun c hc => ?_
  exact (startsBefore_some.1 (List.mem_takeWhile_imp hc)).trans_le hl

theorem codeLine (h : l.Reached trivia pos) (hl : limit ≤ pos) (indented : Bool) (code : String) :
    (l.codeLine indented code (some limit)).Reached trivia pos := by
  refine h.of_pending (adds_codeLine indented code (some limit) l).pending fun c hc => ?_
  have hnext := (Option.filter_eq_some_iff.1 (Option.mem_toList.1 hc)).2
  exact (startsBefore_some.1 (Bool.and_eq_true_iff.1 hnext).2).trans_le hl

variable [Spanned α]

theorem stmts {close : Nat} (hc : close ≤ pos) (ss : List (Stmt ε α)) : ∀ {l : Layout},
    l.Reached trivia pos → (∀ s ∈ ss, s.span.start ≤ pos) →
      (l.stmts trivia close ss).Reached trivia pos := by
  induction ss with
  | nil => exact fun h _ => h
  | cons s ss ih =>
    intro l h hss
    obtain ⟨hs, hss⟩ := List.forall_mem_cons.1 hss
    have hnext : (ss.head?.map Stmt.span).elim close Span.start ≤ pos := by
      cases ss with
      | nil => exact hc
      | cons t ts => exact hss t List.mem_cons_self
    have hline : ({ (l.commentsBefore trivia (some s.span.start) true).separate trivia
        s.span.start with lastStop := s.span.stop } : Layout).Reached trivia pos :=
      (h.commentsBefore hs true).separate s.span.start
    exact ih (hline.codeLine hnext true s.text) hss

/-- A function up to a position. -/
theorem function (h : l.Reached trivia pos) (hl : limit ≤ pos) {f : Function ε α}
    (hf : f.span.start ≤ pos) (hclose : f.span.stop - 1 ≤ pos)
    (hbody : ∀ s ∈ f.body, s.span.start ≤ pos) :
    (l.function trivia (some limit) f).Reached trivia pos := by
  have hfirst : (f.body.head?.map Stmt.span).elim (f.span.stop - 1) Span.start ≤ pos := by
    cases hss : f.body with
    | nil => exact hclose
    | cons s ss => exact hbody s (hss ▸ List.mem_cons_self)
  have hheader := ((h.commentsBefore hf false).separate f.span.start).codeLine hfirst false f.header
  have hstmts := stmts (l := { Layout.codeLine _ _ _ _ with started := false }) hclose f.body
    hheader hbody
  exact Reached.codeLine (l := { Layout.commentsBefore _ _ _ _ with lastStop := f.span.stop })
    (hstmts.commentsBefore hclose true) hl false "\x7d"

theorem functions {last : Nat} (hlast : last ≤ pos) (fs : List (Function ε α)) : ∀ {l : Layout},
    l.Reached trivia pos →
    (∀ f ∈ fs, f.span.start ≤ pos ∧ f.span.stop - 1 ≤ pos ∧ ∀ s ∈ f.body, s.span.start ≤ pos) →
      (l.functions trivia (some last) fs).Reached trivia pos := by
  induction fs with
  | nil => exact fun h _ => h.commentsBefore hlast false
  | cons f fs ih =>
    intro l h hfs
    obtain ⟨⟨hf, hclose, hbody⟩, hfs⟩ := List.forall_mem_cons.1 hfs
    have hnext : ∃ limit ≤ pos, ((fs.head?.map Function.span).elim (some last) fun span =>
        some span.start) = some limit := by
      cases fs with
      | nil => exact ⟨last, hlast, rfl⟩
      | cons g gs => exact ⟨g.span.start, (hfs g List.mem_cons_self).1, rfl⟩
    obtain ⟨limit, hlimit, heq⟩ := hnext
    rw [Layout.functions, heq]
    exact ih (h.function hlimit hf hclose hbody) hfs

theorem mem (h : l.Reached trivia pos) : ∀ c ∈ l.pending, c ∈ trivia.comments := by
  obtain ⟨placed, hplaced, -⟩ := h
  exact fun c hc => hplaced ▸ List.mem_append_right _ hc

theorem pending_apart (h : l.Reached trivia pos) (ht : trivia.Apart) :
    l.pending.Pairwise fun a b => a.span.stop ≤ b.span.start := by
  obtain ⟨placed, hplaced, -⟩ := h
  exact (List.pairwise_append.1 (hplaced ▸ ht.comments)).2.1

/-- The next comment ends the line for a span if it starts in the span. -/
theorem lineStop_cases {span : Span} (h : l.Reached trivia span.start) (ht : trivia.Apart)
    (hnext : ∀ c ∈ l.pending.head?, span.start ≤ c.span.start) :
    (∃ c cs, l.pending = c :: cs ∧ c.span.start < span.stop ∧
        trivia.lineStop span = c.span.stop) ∨
      (∀ c ∈ l.pending, span.stop ≤ c.span.start) ∧ trivia.lineStop span = span.stop := by
  have hmem := h.mem
  have hapart := h.pending_apart ht
  obtain ⟨placed, hplaced, hbefore⟩ := h
  cases hp : l.pending with
  | nil =>
    rw [hp] at hplaced
    exact .inr ⟨List.forall_mem_nil _,
      Trivia.lineStop_of_behind hplaced hbefore (List.forall_mem_nil _)⟩
  | cons c cs =>
    rw [hp] at hplaced hmem hapart hnext
    by_cases hinside : c.span.start < span.stop
    · exact .inl ⟨c, cs, rfl, hinside, Trivia.lineStop_of_inside hplaced hbefore
        (Span.contains_iff.2 ⟨hnext c rfl, hinside⟩)⟩
    · have hbehind : ∀ d ∈ c :: cs, span.stop ≤ d.span.start := by
        refine List.forall_mem_cons.2 ⟨Nat.le_of_not_lt hinside, fun d hd => ?_⟩
        have := ht.nonempty c (hmem c List.mem_cons_self)
        have := (List.pairwise_cons.1 hapart).1 d hd
        omega
      exact .inr ⟨hbehind, Trivia.lineStop_of_behind hplaced hbefore hbehind⟩

end Reached

/-- No comment before a limit is next once those before it are placed. -/
theorem head?_commentsBefore (trivia : Trivia String) (limit? : Option Nat) (indented : Bool)
    (l : Layout) : ∀ c ∈ (l.commentsBefore trivia limit? indented).pending.head?,
      startsBefore limit? c = false := by
  intro c hc
  have hnot := List.head?_dropWhile_not (startsBefore limit?) l.pending
  rw [show (l.pending.dropWhile (startsBefore limit?)).head? = some c from hc] at hnot
  exact hnot

theorem commentsBefore_eq_self (trivia : Trivia String) {limit? : Option Nat} (indented : Bool)
    (h : ∀ c ∈ l.pending.head?, startsBefore limit? c = false) :
    l.commentsBefore trivia limit? indented = l := by
  have hnone : l.pending.takeWhile (startsBefore limit?) = [] := by
    cases hp : l.pending with
    | nil => rfl
    | cons c cs => exact List.takeWhile_cons_of_neg (by simp [h c (by rw [hp]; rfl)])
  have hall : l.pending.dropWhile (startsBefore limit?) = l.pending := by
    have := List.takeWhile_append_dropWhile (p := startsBefore limit?) (l := l.pending)
    rwa [hnone] at this
  unfold commentsBefore
  rw [hnone, hall]
  rfl

/-! ### Lines between statements -/

/-- The second layout has more lines than the first one. There is no code on them, and one of them
is blank just when `blank` holds. -/
def Gap (l l' : Layout) (blank : Prop) : Prop :=
  ∃ between, l'.lines.toList = l.lines.toList ++ between ∧
    (∀ line ∈ between, line.isCode = false) ∧ (Line.blank ∈ between ↔ blank)

variable {P Q : Prop}

theorem Gap.trans (h : l.Gap l' P) (h' : l'.Gap l'' Q) : l.Gap l'' (P ∨ Q) := by
  obtain ⟨xs, hl, hx, hp⟩ := h
  obtain ⟨ys, hl', hy, hq⟩ := h'
  refine ⟨xs ++ ys, ?_, List.forall_mem_append.2 ⟨hx, hy⟩, ?_⟩
  · rw [hl', hl, List.append_assoc]
  · rw [List.mem_append, hp, hq]

/-- A layout stands behind something in a block. -/
structure Underway (l : Layout) : Prop where
  started : l.started = true
  forceBlank : l.forceBlank = false

theorem underway_separate (start : Nat) : (l.separate trivia start).Underway := ⟨rfl, rfl⟩

theorem underway_ownLine (trivia : Trivia String) (indented : Bool) (c : Comment String)
    (l : Layout) : (l.ownLine trivia indented c).Underway := ⟨rfl, rfl⟩

theorem Underway.gap_separate (h : l.Underway) (start : Nat) :
    l.Gap (l.separate trivia start) (trivia.hasBlankLineBetween l.lastStop start) := by
  have hblank : l.blankBefore trivia start = trivia.hasBlankLineBetween l.lastStop start := by
    rw [blankBefore, h.started, h.forceBlank, Bool.false_or, Bool.true_and]
  refine ⟨_, lines_separate trivia start l, ?_⟩
  rw [hblank]
  cases trivia.hasBlankLineBetween l.lastStop start with
  | false => exact ⟨List.forall_mem_nil _, by simp [blankLines]⟩
  | true => exact ⟨List.forall_mem_singleton.2 rfl, by simp [blankLines]⟩

theorem Underway.gap_ownLine (h : l.Underway) {c : Comment String}
    (hc : Spells .comment c.text.toList) : l.Gap (l.ownLine trivia true c)
      (trivia.hasBlankLineBetween l.lastStop c.span.start) := by
  have hpush : (l.separate trivia c.span.start).Gap (l.ownLine trivia true c) False :=
    ⟨[⟨true, c.text, none⟩], by simp [ownLine, push],
      List.forall_mem_singleton.2 (startsCode_comment hc), by simp [Line.blank]⟩
  simpa using (h.gap_separate c.span.start).trans hpush

/-- Lays out what comes before a statement at some position. -/
def lead (trivia : Trivia String) (start : Nat) (l : Layout) : Layout :=
  (l.commentsBefore trivia (some start) true).separate trivia start

theorem lines_lead (trivia : Trivia String) (start : Nat) (l : Layout) :
    (l.lead trivia start).lines.toList
      = (((l.pending.takeWhile (startsBefore (some start))).foldl (ownLine trivia true) l).separate
        trivia start).lines.toList :=
  (lines_separate trivia start _).trans
    (lines_separate trivia start (List.foldl (ownLine trivia true) l _)).symm

section

variable (ht : trivia.Apart) (hspelled : ∀ c ∈ trivia.comments, Spells .comment c.text.toList)
include ht hspelled

/-- Comments of their own let the blank lines through that stand between a layout and a
position. -/
theorem Underway.gap_foldl (pos : Nat) (cs : List (Comment String)) : ∀ {l : Layout}, l.Underway →
    cs.Pairwise (fun a b => a.span.stop ≤ b.span.start) →
    (∀ c ∈ cs, c ∈ trivia.comments ∧ l.lastStop ≤ c.span.start ∧ c.span.start < pos) →
      l.Gap ((cs.foldl (ownLine trivia true) l).separate trivia pos)
        (trivia.hasBlankLineBetween l.lastStop pos) := by
  induction cs with
  | nil => exact fun h _ _ => h.gap_separate pos
  | cons c cs ih =>
    intro l h ha hcs
    obtain ⟨⟨hc, hlo, hhi⟩, hcs⟩ := List.forall_mem_cons.1 hcs
    obtain ⟨hbefore, ha⟩ := List.pairwise_cons.1 ha
    rw [ht.hasBlankLineBetween_iff hc hlo hhi]
    refine (h.gap_ownLine (hspelled c hc)).trans ?_
    exact ih (underway_ownLine trivia true c l) ha fun d hd =>
      ⟨(hcs d hd).1, hbefore d hd, (hcs d hd).2.2⟩

variable {q : Nat}

/-- The comments before a position let the blank lines through that stand before it. -/
theorem Underway.gap_lead (h : l.Underway) (hr : l.Reached trivia q)
    (hl : ∀ c ∈ l.pending, l.lastStop ≤ c.span.start) :
    l.Gap (l.lead trivia pos) (trivia.hasBlankLineBetween l.lastStop pos) := by
  have hsub := List.takeWhile_sublist (p := startsBefore (some pos)) (l := l.pending)
  obtain ⟨between, hlines, hbetween⟩ := gap_foldl ht hspelled pos _ h
    ((hr.pending_apart ht).sublist hsub) fun c hc => ⟨hr.mem c (hsub.subset hc),
      hl c (hsub.subset hc), startsBefore_some.1 (List.mem_takeWhile_imp hc)⟩
  exact ⟨between, (lines_lead trivia pos l).trans hlines, hbetween⟩

/-- A comment from inside of a statement comes out behind the statement. What follows the comment in
the source follows it then. -/
theorem Underway.gap_inside (h : l.Underway) (hr : l.Reached trivia q) {c : Comment String}
    {cs : List (Comment String)} (hp : l.pending = c :: cs) (hstop : c.span.start ≤ l.lastStop)
    (hpos : c.span.start < pos) :
    l.Gap (l.lead trivia pos) (trivia.hasBlankLineBetween c.span.stop pos) := by
  have hmem := hr.mem
  have hapart := hr.pending_apart ht
  rw [hp] at hmem hapart
  obtain ⟨hbefore, hapart⟩ := List.pairwise_cons.1 hapart
  have hsub := List.takeWhile_sublist (p := startsBefore (some pos)) (l := cs)
  have hfirst : l.Gap (l.ownLine trivia true c)
      (trivia.hasBlankLineBetween l.lastStop c.span.start) :=
    h.gap_ownLine (hspelled c (hmem c List.mem_cons_self))
  have hrest := gap_foldl ht hspelled pos _ (underway_ownLine trivia true c l)
    (hapart.sublist hsub) fun d hd => ⟨hmem d (List.mem_cons_of_mem c (hsub.subset hd)),
      hbefore d (hsub.subset hd), startsBefore_some.1 (List.mem_takeWhile_imp hd)⟩
  obtain ⟨between, hlines, hcode, hblank⟩ := hfirst.trans hrest
  rw [Trivia.hasBlankLineBetween_of_le hstop, Bool.false_eq_true, false_or] at hblank
  refine ⟨between, ?_, hcode, hblank⟩
  rw [lines_lead, hp, List.takeWhile_cons_of_pos (startsBefore_some.2 hpos), List.foldl_cons]
  exact hlines

/-- Between two statements there are comments and blank lines only. A blank line is there just when
the source has one between the end of the line for the first statement and the second statement. -/
theorem Underway.gap_codeLine (h : l.Underway) {span : Span} (hr : l.Reached trivia span.start)
    (hnext : ∀ c ∈ l.pending.head?, span.start ≤ c.span.start) (hle : span.stop ≤ pos)
    (hclear : ∀ c ∈ trivia.comments, c.span.start < span.stop ∨ pos ≤ c.span.start)
    {l₁ : Layout} {code : String}
    (hl₁ : l₁ = { l with lastStop := span.stop }.codeLine true code (some pos)) :
    l₁.Gap (l₁.lead trivia pos) (trivia.hasBlankLineBetween (trivia.lineStop span) pos) := by
  let l₀ : Layout := { l with lastStop := span.stop }
  have hcode := adds_codeLine true code (some pos) l₀
  have hlast := lastStop_codeLine true code (some pos) l₀
  have hr₀ : l₀.Reached trivia (max span.start pos) := hr.mono (Nat.le_max_left _ _)
  have hr₁ := hr₀.codeLine (Nat.le_max_right span.start pos) true code
  rw [← hl₁] at hcode hlast hr₁
  have hunderway : l₁.Underway :=
    ⟨(hcode.unchanged rfl).1.trans h.started, (hcode.unchanged rfl).2.trans h.forceBlank⟩
  have hpending : l.pending = (l₀.trailing? (some pos)).toList ++ l₁.pending := hcode.pending
  have htrailing : l₀.trailing? (some pos)
      = l.pending.head?.filter fun c => c.trailing && startsBefore (some pos) c := rfl
  rcases hr.lineStop_cases ht hnext with ⟨c, cs, hp, hinside, hstop⟩ | ⟨hbehind, hstop⟩
  · have hpos : startsBefore (some pos) c = true := startsBefore_some.2 (hinside.trans_le hle)
    rw [hp, List.head?_cons, Option.filter_some, hpos, Bool.and_true] at htrailing
    rw [hstop]
    cases hc : c.trailing with
    | true =>
      -- the comment goes to the end of the line
      rw [htrailing, if_pos hc] at hpending hlast
      have hlast : l₁.lastStop = c.span.stop := hlast
      have hapart := hr.pending_apart ht
      rw [hpending] at hapart
      have hbefore := (List.pairwise_cons.1 hapart).1
      rw [← hlast] at hbefore ⊢
      exact gap_lead ht hspelled hunderway hr₁ hbefore
    | false =>
      -- the comment is on a line of its own, so it goes to the next line
      rw [htrailing, hc, if_neg Bool.false_ne_true] at hpending hlast
      have hlast : l₁.lastStop = span.stop := hlast
      refine gap_inside ht hspelled hunderway hr₁ (hpending.symm.trans hp) ?_ (hinside.trans_le hle)
      exact hlast ▸ Nat.le_of_lt hinside
  · have hnone : l₀.trailing? (some pos) = none := by
      refine Option.filter_eq_none_iff.2 fun c hc => ?_
      have hmem : c ∈ l.pending := List.mem_of_mem_head? hc
      have := hbehind c hmem
      have := hclear c (hr.mem c hmem)
      simp only [startsBefore, Option.all_some, Bool.and_eq_true, decide_eq_true_eq]
      omega
    rw [hnone] at hpending hlast
    have hpending : l.pending = l₁.pending := hpending
    have hlast : l₁.lastStop = span.stop := hlast
    rw [hstop, ← hlast]
    exact gap_lead ht hspelled hunderway hr₁ (hlast ▸ hpending ▸ hbehind)

end

end Layout

/-! ### Neighbouring lines of code -/

/-- The lines of code among lines. -/
def codesOf (lines : List Line) : List String := (lines.filter Line.isCode).map Line.code

theorem codesOf_recode {ls : List Line} {codes : List String}
    (h : codes.length = ls.countP Line.isCode) (hcodes : ∀ code ∈ codes, startsCode code = true) :
    codesOf (recode ls codes) = codes := by
  induction ls generalizing codes with
  | nil => exact (List.eq_nil_of_length_eq_zero h).symm
  | cons l ls ih =>
    by_cases hcode : l.isCode
    · rw [List.countP_cons_of_pos hcode] at h
      obtain ⟨code, codes, rfl⟩ := List.exists_cons_of_length_eq_add_one h
      obtain ⟨hfirst, hcodes⟩ := List.forall_mem_cons.1 hcodes
      have hline : Line.isCode { l with code } = true := hfirst
      rw [recode, if_pos hcode, codesOf, List.headD_cons, List.filter_cons_of_pos hline]
      exact congrArg (code :: ·) (ih (Nat.succ.inj h) hcodes)
    · rw [List.countP_cons_of_neg hcode] at h
      rw [recode, if_neg hcode, codesOf, List.filter_cons_of_neg hcode]
      exact ih h hcodes

/-- After the lines with the code `codes` come those of two statements, with no code between. A
blank line is between just when `blank` holds. -/
def Neighbours (lines : List Line) (codes : List String) (first second : String) (blank : Prop) :
    Prop :=
  ∃ (before between after : List Line) (trailing? trailing?' : Option String),
    lines = before ++ ⟨true, first, trailing?⟩ :: (between ++ ⟨true, second, trailing?'⟩ :: after) ∧
      codesOf before = codes ∧ (∀ line ∈ between, line.isCode = false) ∧
      (Line.blank ∈ between ↔ blank)

variable {lines : List Line} {codes : List String} {first second : String} {blank : Prop}

theorem Neighbours.append (h : Neighbours lines codes first second blank) (more : List Line) :
    Neighbours (lines ++ more) codes first second blank := by
  obtain ⟨before, between, after, trailing?, trailing?', rfl, hrest⟩ := h
  exact ⟨before, between, after ++ more, trailing?, trailing?', by simp, hrest⟩

namespace Layout

variable {trivia : Trivia String} {l : Layout} [Spanned α]

/-- The statements up to one are laid out before it is. -/
theorem stmts_append (trivia : Trivia String) (close : Nat) (s : Stmt ε α) (ts : List (Stmt ε α))
    (ss : List (Stmt ε α)) : ∀ l : Layout, l.stmts trivia close (ss ++ s :: ts)
      = (l.stmts trivia s.span.start ss).stmts trivia close (s :: ts) := by
  induction ss with
  | nil => exact fun _ => rfl
  | cons r ss ih =>
    intro l
    have hnext : ((ss ++ s :: ts).head?.map Stmt.span).elim close Span.start
        = (ss.head?.map Stmt.span).elim s.span.start Span.start := by
      cases ss <;> rfl
    rw [List.cons_append, stmts, stmts, hnext]
    exact ih _

/-- The functions up to one are laid out before it is. -/
theorem functions_append (trivia : Trivia String) (last? : Option Nat) (f : Function ε α)
    (gs : List (Function ε α)) (fs : List (Function ε α)) : ∀ l : Layout,
      l.functions trivia last? (fs ++ f :: gs)
        = (l.functions trivia (some f.span.start) fs).functions trivia last? (f :: gs) := by
  induction fs with
  | nil =>
    intro l
    have htwice := commentsBefore_eq_self trivia false
      (head?_commentsBefore trivia (some f.span.start) false l)
    rw [List.nil_append, functions, functions, functions, function, function, htwice]
  | cons r fs ih =>
    intro l
    have hnext : (((fs ++ f :: gs).head?.map Function.span).elim last? fun span => some span.start)
        = (fs.head?.map Function.span).elim (some f.span.start) fun span => some span.start := by
      cases fs <;> rfl
    rw [List.cons_append, functions, functions, hnext]
    exact ih _

theorem exists_lines_stmt (trivia : Trivia String) (limit? : Option Nat) (l : Layout)
    (s : SourceStmt) : ∃ trailing? : Option String,
      (l.stmt trivia limit? s).lines.toList
        = (l.lead trivia s.span.start).lines.toList ++ [⟨true, s.text, trailing?⟩] :=
  ⟨_, (adds_codeLine true s.text limit?
    { l.lead trivia s.span.start with lastStop := s.span.stop }).lines⟩

/-- A layout comes to a statement with another one after it, and its lines of code are `codes`. -/
structure Meets (trivia : Trivia String) (s t : SourceStmt) (codes : List String) (l : Layout) :
    Prop where
  apart : trivia.Apart
  spelled : ∀ c ∈ trivia.comments, Spells .comment c.text.toList
  clear : ∀ c ∈ trivia.comments, c.span.start < s.span.stop ∨ t.span.start ≤ c.span.start
  order : s.span.stop ≤ t.span.start
  recodes : Recodes codes l l
  codes : ∀ code ∈ codes, startsCode code = true
  reached : l.Reached trivia s.span.start

namespace Meets

variable {codes : List String} {s t : SourceStmt} {ss ts : List SourceStmt}

/-- Statements before the two. -/
theorem stmts (h : Meets trivia s t codes l) (hss : ∀ r ∈ ss, r.span.start ≤ s.span.start)
    (hprintable : ∀ r ∈ ss, r.Printable) :
    Meets trivia s t (codes ++ ss.map Stmt.text) (l.stmts trivia s.span.start ss) where
  apart := h.apart
  spelled := h.spelled
  clear := h.clear
  order := h.order
  recodes := h.recodes.stmts trivia s.span.start ss hprintable rfl
  codes := by
    refine List.forall_mem_append.2 ⟨h.codes, fun code hc => ?_⟩
    obtain ⟨r, hr, rfl⟩ := List.mem_map.1 hc
    exact (hprintable r hr).startsCode
  reached := h.reached.stmts (Nat.le_refl _) ss hss

/-- The two statements and those after them. -/
theorem neighbours (h : Meets trivia s t codes l) (ts : List SourceStmt) (close : Nat) :
    Neighbours (l.stmts trivia close (s :: t :: ts)).lines.toList codes s.text t.text
      (trivia.hasBlankLineBetween (trivia.lineStop s.span) t.span.start) := by
  let l₁ := l.stmt trivia (some t.span.start) s
  let l₂ := l₁.stmt trivia (some ((ts.head?.map Stmt.span).elim close Span.start)) t
  have hlead : Recodes codes (l.lead trivia s.span.start) (l.lead trivia s.span.start) :=
    (h.recodes.commentsBefore trivia _ true).separate trivia _
  have hcodes : codesOf (l.lead trivia s.span.start).lines.toList = codes := by
    rw [hlead.lines, codesOf_recode hlead.counted h.codes]
  have hnext : ∀ c ∈ (l.lead trivia s.span.start).pending.head?, s.span.start ≤ c.span.start := by
    intro c hc
    rw [lead, pending_separate] at hc
    have hnot := head?_commentsBefore trivia (some s.span.start) true l c hc
    exact Nat.le_of_not_lt (of_decide_eq_false hnot)
  have hunderway : (l.lead trivia s.span.start).Underway := underway_separate s.span.start
  obtain ⟨between, hbetween, hrest⟩ := hunderway.gap_codeLine h.apart h.spelled
    ((h.reached.commentsBefore (Nat.le_refl _) true).separate _) hnext h.order h.clear
      (rfl : l₁ = _)
  obtain ⟨x, hx⟩ := exists_lines_stmt trivia (some t.span.start) l s
  obtain ⟨y, hy⟩ := exists_lines_stmt trivia
    (some ((ts.head?.map Stmt.span).elim close Span.start)) l₁ t
  obtain ⟨entries, -, hafter⟩ := l₂.adds_stmts trivia close ts
  refine ⟨_, between, entries.flatMap (Entry.lines true Stmt.text), x, y, ?_, hcodes, hrest⟩
  have hlines : (l.stmts trivia close (s :: t :: ts)).lines.toList
      = l₂.lines.toList ++ entries.flatMap (Entry.lines true Stmt.text) := hafter.lines
  rw [hlines, hy, hbetween, hx]
  simp

/-- The first line of the function with the statements. -/
theorem header (h : Meets trivia s t codes l) {f : SourceFunction}
    (hstart : f.span.start ≤ s.span.start) {first : Nat} (hfirst : first ≤ s.span.start) :
    Meets trivia s t (codes ++ [f.header])
      { ((l.commentsBefore trivia (some f.span.start) false).separate trivia
        f.span.start).codeLine false f.header (some first) with started := false } where
  apart := h.apart
  spelled := h.spelled
  clear := h.clear
  order := h.order
  recodes := (((h.recodes.commentsBefore trivia _ false).separate trivia _).codeLine false f.header
    f.startsCode_header f.header (some first)).startBlock
  codes := List.forall_mem_append.2 ⟨h.codes, List.forall_mem_singleton.2 f.startsCode_header⟩
  reached := ((h.reached.commentsBefore hstart false).separate _).codeLine hfirst false f.header

/-- The function with the statements. -/
theorem function (h : Meets trivia s t codes l) {f : SourceFunction} (hp : f.Printable)
    (hbody : f.body = ss ++ s :: t :: ts) (hstart : f.span.start ≤ s.span.start)
    (hss : ∀ r ∈ ss, r.span.start ≤ s.span.start) (next? : Option Nat) :
    Neighbours (l.function trivia next? f).lines.toList (codes ++ f.header :: ss.map Stmt.text)
      s.text t.text (trivia.hasBlankLineBetween (trivia.lineStop s.span) t.span.start) := by
  have hfirst : (f.body.head?.map Stmt.span).elim (f.span.stop - 1) Span.start ≤ s.span.start := by
    rw [hbody]
    cases ss with
    | nil => exact Nat.le_refl _
    | cons r ss => exact hss r List.mem_cons_self
  have hprintable : ∀ r ∈ ss, r.Printable := fun r hr =>
    hp.body.2 r (hbody ▸ List.mem_append_left _ hr)
  have hpair := ((h.header hstart hfirst).stmts hss hprintable).neighbours ts
    (f.span.stop - 1)
  rw [← stmts_append, ← hbody, List.append_assoc, List.singleton_append] at hpair
  obtain ⟨notes, hnotes⟩ := adds_commentsBefore trivia (some (f.span.stop - 1)) true
    (Layout.stmts trivia (f.span.stop - 1) { Layout.codeLine _ _ _ _ with started := false } f.body)
  have hclose := (hnotes.trans (adds_lastStop _ f.span.stop)).trans
    (adds_codeLine false "\x7d" next? _)
  have hlines : (l.function trivia next? f).lines.toList = _ := hclose.lines
  rw [hlines]
  exact hpair.append _

end Meets

end Layout

/-! ### Programs -/

theorem Function.Printable.startsCode_codes {f : Function ε α} (h : f.Printable) :
    ∀ code ∈ f.codes, startsCode code = true := by
  intro code hc
  rcases List.mem_cons.1 hc with rfl | hc
  · exact f.startsCode_header
  · rcases List.mem_append.1 hc with hc | hc
    · obtain ⟨s, hs, rfl⟩ := List.mem_map.1 hc
      exact (h.body.2 s hs).startsCode
    · obtain rfl := List.mem_singleton.1 hc
      rfl

namespace Function.WellPlaced

variable {f : SourceFunction} {s t : SourceStmt} {ss ts : List SourceStmt}

theorem start_le_of_body (h : f.WellPlaced) (hbody : f.body = ss ++ s :: ts) :
    ∀ r ∈ ss, r.span.start ≤ s.span.start := by
  intro r hr
  have hne := (h.body r (hbody ▸ List.mem_append_left _ hr)).nonempty
  have hapart := h.apart
  rw [hbody] at hapart
  have hle := (List.pairwise_append.1 hapart).2.2 r hr s List.mem_cons_self
  omega

theorem stop_le_of_body (h : f.WellPlaced) (hbody : f.body = ss ++ s :: t :: ts) :
    s.span.stop ≤ t.span.start := by
  have hapart := h.apart
  rw [hbody] at hapart
  exact (List.pairwise_cons.1 (List.pairwise_append.1 hapart).2.1).1 t List.mem_cons_self

end Function.WellPlaced

/-- A layout of the functions up to one comes to the statements of that one. -/
theorem meets_functions {source : String} {tree : SourceProgram} (h : parse source = .ok tree)
    {fs gs : List SourceFunction} {f : SourceFunction} (hf : tree.functions = fs ++ f :: gs)
    {ss ts : List SourceStmt} {s t : SourceStmt} (hbody : f.body = ss ++ s :: t :: ts)
    (hclear : ∀ c ∈ tree.trivia.comments,
      ¬(s.span.stop ≤ c.span.start ∧ c.span.start < t.span.start)) :
    Layout.Meets tree.trivia s t (fs.flatMap Function.codes)
      ((Layout.start tree.trivia.comments).functions tree.trivia (some f.span.start) fs) := by
  have hp := Program.printable_of_parse h
  obtain ⟨hapart, hplaced⟩ := wellPlaced_of_parse h
  obtain ⟨ls, ha, -, -, htrivia⟩ := exists_lexemes h
  rw [hf] at hapart hplaced
  obtain ⟨hfs, hplaced⟩ := List.forall_mem_append.1 hplaced
  have hwell : f.WellPlaced := hplaced f List.mem_cons_self
  have hstart : f.span.start ≤ s.span.start := (hwell.inside s (by simp [hbody])).start
  have hprintable : ∀ g ∈ fs, g.Printable := fun g hg =>
    hp.functions g (hf ▸ List.mem_append_left _ hg)
  refine ⟨htrivia ▸ ha.trivia_apart, hp.comments, fun c hc => ?_, hwell.stop_le_of_body hbody, ?_,
    fun code hc => ?_, ?_⟩
  · have := hclear c hc
    omega
  · have hsame : List.Forall₂ Function.SamePlaces fs fs := List.forall₂_same.2 fun _ _ => ⟨rfl, rfl⟩
    have hempty : Layout.Recodes [] (.start tree.trivia.comments) (.start tree.trivia.comments) :=
      ⟨rfl, rfl, rfl, hp.comments⟩
    exact hempty.functions tree.trivia (some f.span.start) hsame hprintable
  · obtain ⟨g, hg, hc⟩ := List.mem_flatMap.1 hc
    exact (hprintable g hg).startsCode_codes code hc
  · refine Layout.Reached.functions hstart fs ⟨[], rfl, nofun⟩ fun g hg => ?_
    have hle := (List.pairwise_append.1 hapart).2.2 g hg f List.mem_cons_self
    have hne := (hfs g hg).nonempty
    refine ⟨by omega, by omega, fun r hr => ?_⟩
    have hin := ((hfs g hg).inside r hr).stop
    have hne := ((hfs g hg).body r hr).nonempty
    omega

/-- Between two statements of a function that have no comment between them in the source there are
no other lines of code. A blank line of the source between them is kept. If no comment starts in the
first statement, no other blank line comes out; if one does, blank lines behind that comment in the
statement come out too. -/
theorem blank_between {source : String} {tree : SourceProgram} (h : parse source = .ok tree)
    {fs gs : List SourceFunction} {f : SourceFunction} (hf : tree.functions = fs ++ f :: gs)
    {ss ts : List SourceStmt} {s t : SourceStmt} (hbody : f.body = ss ++ s :: t :: ts)
    (hclear : ∀ c ∈ tree.trivia.comments,
      ¬(s.span.stop ≤ c.span.start ∧ c.span.start < t.span.start)) :
    ∃ (before between after : List Line) (trailing? trailing?' : Option String),
      (Store.ofProgram tree).program.render.toList = lineChars (before
        ++ ⟨true, s.text, trailing?⟩ :: (between ++ ⟨true, t.text, trailing?'⟩ :: after)) ∧
      codesOf before = fs.flatMap Function.codes ++ f.header :: ss.map Stmt.text ∧
      (∀ line ∈ between, line.isCode = false) ∧
      (tree.trivia.hasBlankLineBetween s.span.stop t.span.start → Line.blank ∈ between) ∧
      ((∀ c ∈ tree.trivia.comments, ¬s.span.contains c.span.start) → Line.blank ∈ between →
        tree.trivia.hasBlankLineBetween s.span.stop t.span.start) ∧
      (Line.blank ∈ between ↔
        tree.trivia.hasBlankLineBetween (tree.trivia.lineStop s.span) t.span.start) := by
  have hmem : f ∈ tree.functions := by simp [hf]
  have hs : s ∈ f.body := by simp [hbody]
  have hwell : f.WellPlaced := (wellPlaced_of_parse h).functions f hmem
  let l := (Layout.start tree.trivia.comments).functions tree.trivia (some f.span.start) fs
  let next? := (gs.head?.map Function.span).elim none fun span => some span.start
  have hpair := (meets_functions h hf hbody hclear).function
    ((Program.printable_of_parse h).functions f hmem) hbody (hwell.inside s hs).start
    (hwell.start_le_of_body hbody) next?
  obtain ⟨bs, notes, -, -, hlines, -⟩ := Layout.exists_blocks tree.trivia gs
    (show (l.function tree.trivia next? f).forceBlank = true from rfl) nofun
  have hall : tree.lines = (l.function tree.trivia next? f).lines.toList
      ++ (bs.flatMap Block.lines ++ notes.flatMap (Note.lines false)) := by
    rw [Program.lines, Program.linesBefore, hf, Layout.functions_append]
    exact hlines
  obtain ⟨before, between, after, trailing?, trailing?', heq, hcodes, hcode, hblank⟩ :=
    hall ▸ hpair.append (bs.flatMap Block.lines ++ notes.flatMap (Note.lines false))
  refine ⟨before, between, after, trailing?, trailing?', ?_, hcodes, hcode, fun hkept => ?_,
    fun hnone hmade => ?_, hblank⟩
  · rw [Program.toList_render, (stored_program tree).lines, heq]
  · exact hblank.2 (Trivia.hasBlankLineBetween_mono (lineStop_le h hmem hs) hkept)
  · rw [← Trivia.lineStop_of_none hnone]
    exact hblank.1 hmade

/-- The blank line in the call comes out behind the call. -/
theorem blank_between_moved : ∃ (tree : SourceProgram) (f : SourceFunction) (s t : SourceStmt),
    parse "func f() \x7b\n\tg(a, // first\n\n\t\tb)\n\tx = 1\n\x7d\n" = .ok tree ∧
      tree.functions = [] ++ f :: [] ∧ f.body = [] ++ s :: t :: [] ∧
      (∀ c ∈ tree.trivia.comments,
        ¬(s.span.stop ≤ c.span.start ∧ c.span.start < t.span.start)) ∧
      tree.trivia.hasBlankLineBetween s.span.stop t.span.start = false ∧
      ∃ (before between after : List Line) (trailing? trailing?' : Option String),
        (Store.ofProgram tree).program.render.toList = lineChars (before
          ++ ⟨true, s.text, trailing?⟩ :: (between ++ ⟨true, t.text, trailing?'⟩ :: after)) ∧
        codesOf before = [f.header] ∧ (∀ line ∈ between, line.isCode = false) ∧
        Line.blank ∈ between := by
  obtain ⟨tree, hp, hcheck⟩ := exists_parse
    (fun tree => decide (tree.functions.map (fun f => f.body.length) = [2] ∧
      ∀ f ∈ tree.functions, ∀ p ∈ f.body.zip f.body.tail,
        (∀ c ∈ tree.trivia.comments,
          ¬(p.1.span.stop ≤ c.span.start ∧ c.span.start < p.2.span.start)) ∧
        tree.trivia.hasBlankLineBetween p.1.span.stop p.2.span.start = false ∧
        tree.trivia.hasBlankLineBetween (tree.trivia.lineStop p.1.span) p.2.span.start = true))
    (by decide +kernel : (parse
      "func f() \x7b\n\tg(a, // first\n\n\t\tb)\n\tx = 1\n\x7d\n").toOption.any _ = true)
  obtain ⟨hlength, hpairs⟩ := of_decide_eq_true hcheck
  obtain ⟨f, hf, hbody⟩ := List.map_eq_singleton_iff.1 hlength
  obtain ⟨s, t, hbody⟩ := List.length_eq_two.1 hbody
  obtain ⟨hclear, hnone, hsome⟩ := hpairs f (by simp [hf]) (s, t) (by simp [hbody])
  obtain ⟨before, between, after, trailing?, trailing?', hrender, hcodes, hcode, -, -, hblank⟩ :=
    blank_between hp (show tree.functions = [] ++ f :: [] from hf)
      (show f.body = [] ++ s :: t :: [] from hbody) hclear
  exact ⟨tree, f, s, t, hp, hf, hbody, hclear, hnone, before, between, after, trailing?, trailing?',
    hrender, hcodes, hcode, hblank.2 hsome⟩

end Recast
