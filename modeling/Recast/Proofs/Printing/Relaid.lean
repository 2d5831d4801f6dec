import Recast.Proofs.Printing.Parsed

/-!
# Documents are laid out again

A layout of the functions, comments and blank lines that were read from a document takes the lexemes
of the document one after the other, and at each comment it finds the same reason to put it where it
was.
-/

namespace Recast

open Lexed (commentsOf blankLinesOf)

/-! ### Lexemes in order -/

/-- Lexemes stand one after the other, and none is empty. -/
structure Arranged (ls : List Lexeme) : Prop where
  nonempty : ∀ l ∈ ls, l.span.start < l.span.stop
  apart : ls.Pairwise fun a b => a.span.stop ≤ b.span.start

namespace Arranged

variable {us vs : List Lexeme}

theorem append : Arranged (us ++ vs) ↔ Arranged us ∧ Arranged vs ∧
    ∀ u ∈ us, ∀ v ∈ vs, u.span.stop ≤ v.span.start := by
  constructor
  · rintro ⟨hn, ha⟩
    obtain ⟨h₁, h₂, h₃⟩ := List.pairwise_append.1 ha
    exact ⟨⟨fun l hl => hn l (by simp [hl]), h₁⟩, ⟨fun l hl => hn l (by simp [hl]), h₂⟩, h₃⟩
  · rintro ⟨⟨hn, h₁⟩, ⟨hn', h₂⟩, h₃⟩
    exact ⟨List.forall_mem_append.2 ⟨hn, hn'⟩, List.pairwise_append.2 ⟨h₁, h₂, h₃⟩⟩

theorem left (h : Arranged (us ++ vs)) : Arranged us := (append.1 h).1

theorem right (h : Arranged (us ++ vs)) : Arranged vs := (append.1 h).2.1

/-- What comes first starts first. -/
theorem start_lt (h : Arranged (us ++ vs)) {u v : Lexeme} (hu : u ∈ us) (hv : v ∈ vs) :
    u.span.start < v.span.start := by
  obtain ⟨hus, -, ha⟩ := append.1 h
  have := hus.nonempty u hu
  have := ha u hu v hv
  omega

theorem tail {l : Lexeme} (h : Arranged (l :: vs)) : Arranged vs :=
  ⟨fun v hv => h.nonempty v (List.mem_cons_of_mem _ hv), (List.pairwise_cons.1 h.apart).2⟩

theorem stop_le {l v : Lexeme} (h : Arranged (l :: vs)) (hv : v ∈ vs) :
    l.span.stop ≤ v.span.start := (List.pairwise_cons.1 h.apart).1 v hv

theorem head_lt {l v : Lexeme} (h : Arranged (l :: vs)) (hv : v ∈ vs) :
    l.span.start < v.span.start :=
  (h.nonempty l List.mem_cons_self).trans_le (h.stop_le hv)

/-- The first lexeme starts first. -/
theorem start_le {l : Lexeme} (h : Arranged (l :: vs)) {v : Lexeme} (hv : v ∈ l :: vs) :
    l.span.start ≤ v.span.start := by
  rcases List.mem_cons.1 hv with rfl | hv
  · exact Nat.le_refl _
  · exact Nat.le_of_lt (h.head_lt hv)

theorem ordered {ts : List Token} (h : Arranged (ts.map Token.lexeme)) : Parser.Ordered ts where
  nonempty _ ht := h.nonempty _ (List.mem_map_of_mem ht)
  apart := List.pairwise_map.1 h.apart

end Arranged

theorem Lexer.Scans.arranged {pos : Nat} {cs : List Char} {ls : List Lexeme}
    (h : Lexer.Scans pos cs ls) : Arranged ls :=
  ⟨fun l hl => (h.aligned.bounds l hl).2.1, h.aligned.apart⟩

/-! ### Limits -/

/-- The limit is inside the first of the lexemes, which is not at the end of its line. Without a
limit there are no lexemes. -/
inductive Limits : Option Nat → List Lexeme → Prop
  | none : Limits none []
  | some {limit : Nat} (t : Token) (vs : List Lexeme) (line : t.kind ≠ .newline)
      (start : t.span.start ≤ limit) (stop : limit < t.span.stop) :
      Limits (some limit) (t.lexeme :: vs)

section

variable {limit? : Option Nat} {us vs bs : List Lexeme} {blank content : Bool} {c : Comment String}
  {notes : List Note}

/-- Comments before the limit start before it. -/
theorem Limits.startsBefore (h : Limits limit? vs) (ha : Arranged (us ++ vs)) (hc : c.lexeme ∈ us) :
    Layout.startsBefore limit? c = true := by
  cases h with
  | none => rfl
  | some t vs line start stop =>
    have hlt : c.span.start < t.span.start := ha.start_lt hc (List.mem_cons_self (a := t.lexeme))
    exact decide_eq_true (hlt.trans_le start)

/-- Comments behind the limit do not start before it. -/
theorem Limits.not_startsBefore (h : Limits limit? vs) (ha : Arranged vs)
    (hc : c ∈ commentsOf content vs) : Layout.startsBefore limit? c = false := by
  cases h with
  | none => cases hc
  | some t vs line start stop =>
    have hskip : commentsOf content (t.lexeme :: vs) = commentsOf true vs := if_neg line
    have hle : t.span.stop ≤ c.span.start :=
      ha.stop_le (Lexed.lexeme_mem_of_mem_commentsOf (hskip ▸ hc))
    exact decide_eq_false (Nat.not_lt.2 (stop.le.trans hle))

/-- Only comments of their own and blank lines stand before the limit. -/
inductive Clear (limit? : Option Nat) : List Lexeme → Prop
  | mk {notes : List Note} {us bs vs : List Lexeme} {blank : Bool}
      (own : AllScanned Note.Scanned notes us) (separated : BlankScanned blank bs)
      (limits : Limits limit? vs) : Clear limit? (us ++ (bs ++ vs))

theorem Note.Scanned.own {n : Note} (h : n.Scanned us) : n.comment.trailing = false := by
  cases h with
  | mk pos scanned own => exact own

theorem AllScanned.own (h : AllScanned Note.Scanned notes us) :
    ∀ n ∈ notes, n.comment.trailing = false := by
  induction h with
  | nil => exact fun _ => nofun
  | cons hn _ ih => exact List.forall_mem_cons.2 ⟨hn.own, ih⟩

/-- The comments of notes have their lexemes. -/
theorem AllScanned.lexeme_mem (h : AllScanned Note.Scanned notes us)
    (hc : c ∈ notes.map Note.comment) : c.lexeme ∈ us := by
  have hcomments := (h.trivia []).1
  rw [List.append_nil] at hcomments
  have hmem : c ∈ commentsOf false us := hcomments ▸ List.mem_append_left _ hc
  exact Lexed.lexeme_mem_of_mem_commentsOf hmem

/-- The next comment up to a limit does not trail what stands before it. -/
theorem Clear.not_trailing (h : Clear limit? vs) (ha : Arranged vs) :
    (commentsOf false vs).head?.filter (fun c => c.trailing && Layout.startsBefore limit? c)
      = none := by
  cases h with
  | @mk notes us bs vs blank own separated limits =>
    rw [(own.trivia _).1, (separated.trivia _).1, Option.filter_eq_none_iff]
    intro c hc
    cases notes with
    | cons n notes =>
      obtain rfl : n.comment = c := by simpa using hc
      simp [own.own n List.mem_cons_self]
    | nil =>
      have hc : c ∈ commentsOf false vs := List.mem_of_mem_head? hc
      simp [limits.not_startsBefore ha.right.right hc]

theorem Clear.startsBefore (h : Clear limit? vs) (ha : Arranged (us ++ vs)) (hc : c.lexeme ∈ us) :
    Layout.startsBefore limit? c = true := by
  cases h with
  | @mk notes ns bs vs blank own separated limits =>
    have ha : Arranged (us ++ (ns ++ bs) ++ vs) := by simpa using ha
    exact limits.startsBefore ha (List.mem_append_left _ hc)

/-- The comments up to a limit. -/
theorem takeWhile_startsBefore (hn : AllScanned Note.Scanned notes us) (hb : BlankScanned blank bs)
    (hl : Limits limit? vs) (ha : Arranged (us ++ (bs ++ vs))) :
    (commentsOf false (us ++ (bs ++ vs))).takeWhile (Layout.startsBefore limit?)
      = notes.map Note.comment := by
  rw [(hn.trivia _).1, (hb.trivia _).1, List.takeWhile_append_of_pos, List.append_right_eq_self]
  · rw [List.takeWhile_eq_nil_iff]
    intro hlen hc
    rw [hl.not_startsBefore ha.right.right (List.get_mem _ ⟨0, hlen⟩)] at hc
    cases hc
  · intro c hc
    have ha : Arranged (us ++ bs ++ vs) := by simpa using ha
    exact hl.startsBefore ha (List.mem_append_left _ (hn.lexeme_mem hc))

end

namespace Layout

/-! ### Where a layout stands -/

/-- The lexemes of a line of a source are still to come, and all blank lines of the source are among
them or lie behind. -/
structure Behind (trivia : Trivia String) (l : Layout) (rest : List Lexeme) : Prop where
  arranged : Arranged rest
  ahead : ∀ q ∈ blankLinesOf false rest, q ∈ trivia.blankLines
  passed : ∀ q ∈ trivia.blankLines, q ∉ blankLinesOf false rest → ∀ x ∈ rest, q < x.span.start
  last : l.started = true → l.forceBlank = false →
    (∀ q ∈ trivia.blankLines, q ∉ blankLinesOf false rest → q ≤ l.lastStop) ∧
      ∀ x ∈ rest, l.lastStop < x.span.start

/-- Blank lines come where the layout has them. -/
def Allows (l : Layout) (blanks : List Bool) : Prop :=
  ∀ blank ∈ blanks.head?, blank = (l.forceBlank || (l.started && blank))

/-- The layout did all lexemes but these. -/
structure Stands (trivia : Trivia String) (l : Layout) (rest : List Lexeme) : Prop
    extends l.Behind trivia rest where
  pending : l.pending = commentsOf false rest

variable {trivia : Trivia String} {l l' : Layout} {us vs ws bs mid rest : List Lexeme} {blank : Bool}
  {blanks blanks' : List Bool} {n : Note} {notes : List Note} {xs : List Line}
  {cs cs' : List (Comment String)} {limit? : Option Nat}

theorem Allows.left (h : l.Allows (blanks ++ blanks')) : l.Allows blanks := by
  intro b hb
  refine h b ?_
  rw [Option.mem_def] at hb ⊢
  rw [List.head?_append, hb]
  rfl

theorem Adds.allows (h : l.Adds l' xs blanks cs) (hb : l.Allows (blanks ++ blanks')) :
    l'.Allows blanks' := by
  by_cases hnil : blanks = []
  · obtain ⟨hs, hf⟩ := h.unchanged hnil
    rw [Allows, hs, hf]
    rwa [hnil] at hb
  · obtain ⟨hs, hf⟩ := h.changed hnil
    rw [Allows, hs, hf]
    exact fun _ _ => rfl

/-- A blank line comes before what is next just when one does in the source. -/
theorem Behind.blankBefore {x : Lexeme} (h : l.Behind trivia (bs ++ x :: rest))
    (hb : BlankScanned blank bs) (hf : l.Allows [blank]) :
    l.blankBefore trivia x.span.start = blank := by
  have hf : blank = (l.forceBlank || (l.started && blank)) := hf blank rfl
  rw [Layout.blankBefore]
  cases hforce : l.forceBlank with
  | true => rw [hf, hforce]; rfl
  | false =>
    cases hstarted : l.started with
    | false => rw [hf, hforce, hstarted]; rfl
    | true =>
      obtain ⟨hseen, hnext⟩ := h.last hstarted hforce
      rw [Bool.false_or, Bool.true_and, Bool.eq_iff_iff, Trivia.hasBlankLineBetween_iff]
      cases hb with
      | none =>
        refine ⟨?_, fun h => absurd h Bool.false_ne_true⟩
        rintro ⟨q, hq, hlast, hx⟩
        by_cases hmem : q ∈ blankLinesOf false (x :: rest)
        · obtain ⟨y, hy, rfl⟩ := Lexed.exists_of_mem_blankLinesOf hmem
          have := h.arranged.start_le hy
          omega
        · have := hseen q hq hmem
          omega
      | some pos =>
        refine ⟨fun _ => rfl, fun _ => ⟨pos, h.ahead pos List.mem_cons_self, ?_, ?_⟩⟩
        · exact hnext (newlineAt pos) List.mem_cons_self
        · exact h.arranged.head_lt List.mem_cons_self

/-- A line is laid out whose blank lines come first. -/
theorem Behind.pass (h : l.Behind trivia (us ++ (mid ++ rest)))
    (hb : blankLinesOf false (us ++ (mid ++ rest)) = blankLinesOf false us ++ blankLinesOf false rest)
    (hl : l'.started = true → l'.forceBlank = false →
      (∃ y ∈ mid, y.span.start ≤ l'.lastStop) ∧ ∀ x ∈ rest, l'.lastStop < x.span.start) :
    l'.Behind trivia rest := by
  have hbefore : ∀ q ∈ trivia.blankLines, q ∉ blankLinesOf false rest →
      ∀ y ∈ mid ++ rest, q < y.span.start := by
    intro q hq hrest y hy
    by_cases hmem : q ∈ blankLinesOf false us
    · obtain ⟨x, hx, rfl⟩ := Lexed.exists_of_mem_blankLinesOf hmem
      exact h.arranged.start_lt hx hy
    · refine h.passed q hq (fun hall => ?_) y (List.mem_append_right _ hy)
      rw [hb] at hall
      exact (List.mem_append.1 hall).elim hmem hrest
  refine ⟨h.arranged.right.right, fun q hq => h.ahead q (hb ▸ List.mem_append_right _ hq),
    fun q hq hrest x hx => hbefore q hq hrest x (List.mem_append_right _ hx), fun hs hforce => ?_⟩
  obtain ⟨⟨y, hy, hle⟩, hlast⟩ := hl hs hforce
  refine ⟨fun q hq hrest => ?_, hlast⟩
  have := hbefore q hq hrest y (List.mem_append_left _ hy)
  omega

/-- A comment of its own is laid out as one. -/
theorem Behind.ownLine (h : l.Behind trivia (us ++ rest)) (hn : n.Scanned us)
    (hf : l.Allows [n.blank]) (indented : Bool) :
    l.Adds (l.ownLine trivia indented n.comment) (n.lines indented) [n.blank] [] ∧
      (l.ownLine trivia indented n.comment).Behind trivia rest := by
  have htrivia := (hn.trivia rest).2
  cases hn with
  | @mk bs pos scanned own =>
    rw [List.append_assoc] at h
    have hblank : l.blankBefore trivia n.comment.lexeme.span.start = n.blank :=
      h.blankBefore scanned hf
    refine ⟨adds_ownLine trivia indented l hblank.symm, ?_⟩
    have hbs : blankLinesOf false (bs ++ [n.comment.lexeme, newlineAt pos]) = blankLinesOf false bs := by
      rw [(scanned.trivia _).2]
      exact List.append_nil _
    rw [List.append_assoc, hbs] at htrivia
    refine h.pass htrivia fun _ _ => ⟨⟨n.comment.lexeme, List.mem_cons_self, ?_⟩, fun x hx => ?_⟩
    · exact Nat.le_of_lt (h.arranged.right.nonempty n.comment.lexeme List.mem_cons_self)
    · have harr : Arranged (n.comment.lexeme :: newlineAt pos :: rest) := h.arranged.right
      exact (harr.stop_le List.mem_cons_self).trans_lt (harr.tail.head_lt hx)

/-- Comments of their own are laid out as such. -/
theorem Behind.foldl_ownLine (indented : Bool) (hn : AllScanned Note.Scanned notes us) :
    ∀ {l : Layout}, l.Behind trivia (us ++ rest) → l.Allows (notes.map Note.blank) →
      l.Adds ((notes.map Note.comment).foldl (Layout.ownLine trivia indented) l)
          (notes.flatMap (Note.lines indented)) (notes.map Note.blank) [] ∧
        ((notes.map Note.comment).foldl (Layout.ownLine trivia indented) l).Behind trivia rest := by
  induction hn with
  | nil => exact fun {l} h _ => ⟨.refl l, h⟩
  | @cons n notes us vs hn _ ih =>
    intro l h hf
    rw [List.append_assoc] at h
    have hfirst : l.Allows ([n.blank] ++ notes.map Note.blank) := hf
    obtain ⟨hadds, hbehind⟩ := h.ownLine hn hfirst.left indented
    obtain ⟨hadds', hbehind'⟩ := ih hbehind (hadds.allows hf)
    exact ⟨hadds.trans hadds', hbehind'⟩

theorem Adds.pending_eq (h : l.Adds l' xs blanks cs) (hl : l.pending = cs ++ cs') :
    l'.pending = cs' :=
  List.append_cancel_left (h.pending.symm.trans hl)

/-- The comments before a limit are laid out on lines of their own. -/
theorem Stands.commentsBefore (h : l.Stands trivia (us ++ (bs ++ vs)))
    (hn : AllScanned Note.Scanned notes us) (hb : BlankScanned blank bs) (hl : Limits limit? vs)
    (hf : l.Allows (notes.map Note.blank)) (indented : Bool) :
    l.Adds (l.commentsBefore trivia limit? indented) (notes.flatMap (Note.lines indented))
        (notes.map Note.blank) (notes.map Note.comment) ∧
      (l.commentsBefore trivia limit? indented).Stands trivia (bs ++ vs) := by
  obtain ⟨hadds, hbehind⟩ := h.toBehind.foldl_ownLine indented hn hf
  have htake : l.pending.takeWhile (startsBefore limit?) = notes.map Note.comment := by
    rw [h.pending]
    exact takeWhile_startsBefore hn hb hl h.arranged
  have hadds : l.Adds (l.commentsBefore trivia limit? indented) (notes.flatMap (Note.lines indented))
      (notes.map Note.blank) (notes.map Note.comment) := by
    unfold Layout.commentsBefore
    rw [htake]
    refine ⟨hadds.lines, ?_, hadds.first, hadds.unchanged, hadds.changed⟩
    rw [← htake]
    exact List.takeWhile_append_dropWhile.symm
  refine ⟨hadds, ⟨?_, hadds.pending_eq (h.pending.trans (hn.trivia _).1)⟩⟩
  unfold Layout.commentsBefore
  rw [htake]
  exact ⟨hbehind.arranged, hbehind.ahead, hbehind.passed, hbehind.last⟩

/-- A line of code gets the comment that trailed it. -/
theorem trailing?_eq {trailing? : Option (Comment String)} {tail : List Lexeme}
    (ht : TailScanned trailing? tail) (hl : Clear limit? rest) (ha : Arranged (tail ++ rest))
    (hp : l.pending = trailing?.toList ++ commentsOf false rest) : l.trailing? limit? = trailing? := by
  rw [Layout.trailing?, hp]
  cases ht with
  | none pos => exact hl.not_trailing ha.right
  | @some c pos trailing =>
    have hstarts := hl.startsBefore ha (List.mem_cons_self (a := c.lexeme))
    simp [trailing, hstarts]

theorem lastStop_codeLine (indented : Bool) (code : String) (limit? : Option Nat) (l : Layout) :
    (l.codeLine indented code limit?).lastStop
      = ((l.trailing? limit?).map fun c => c.span.stop).getD l.lastStop := by
  unfold codeLine trailing?
  split
  · rename_i c cs hp
    rw [hp, List.head?_cons, Option.filter_some]
    split <;> rfl
  · rename_i hp
    rw [hp]
    rfl

/-- What was laid out last stops before the end of its line. -/
theorem lastStop_lt {trailing? : Option (Comment String)} {tail : List Lexeme} {pos : Nat}
    (ht : TailScanned trailing? tail) (ha : Arranged (tail ++ rest))
    (hpos : ∀ x ∈ tail, pos ≤ x.span.start) :
    pos ≤ (trailing?.map fun c => c.span.stop).getD pos ∧
      ∀ x ∈ rest, (trailing?.map fun c => c.span.stop).getD pos < x.span.start := by
  cases ht with
  | none end_ =>
    refine ⟨Nat.le_refl _, fun x hx => ?_⟩
    exact (hpos _ List.mem_cons_self).trans_lt (ha.start_lt List.mem_cons_self hx)
  | @some c end_ trailing =>
    have harr : Arranged (c.lexeme :: newlineAt end_ :: rest) := ha
    refine ⟨((hpos _ List.mem_cons_self).trans_lt (harr.nonempty _ List.mem_cons_self)).le,
      fun x hx => ?_⟩
    exact (harr.stop_le List.mem_cons_self).trans_lt (harr.tail.head_lt hx)

/-! ### Lines of code -/

section

variable {γ : Type} {e : Entry γ} {ns tail : List Lexeme} {t : Token} {ts : List Token}

/-- A line of code is laid out with the comments before it. -/
theorem Stands.line (h : l.Stands trivia (ns ++ (bs ++ ((t :: ts).map Token.lexeme ++ (tail ++ rest)))))
    (hn : AllScanned Note.Scanned e.notes ns) (hb : BlankScanned e.blank bs)
    (hline : ∀ u ∈ t :: ts, u.kind ≠ .newline) (ht : TailScanned e.trailing? tail)
    (hl : Clear limit? rest) (hf : l.Allows e.blanks) (indented : Bool) (text : γ → String)
    (stop : Layout → Nat) {l₀ l₁ : Layout} (hl₀ : l₀ = (l.commentsBefore trivia
      (some t.span.start) indented).separate trivia t.span.start)
    (hl₁ : l₁ = { l₀ with lastStop := stop l₀ }) :
    l.Adds (l₁.codeLine indented (text e.code) limit?) (e.lines indented text) e.blanks e.comments ∧
      (l₁.codeLine indented (text e.code) limit?).pending = commentsOf false rest ∧
      l₁.trailing? limit? = e.trailing? := by
  have hlimits : Limits (some t.span.start) (((t :: ts).map Token.lexeme) ++ (tail ++ rest)) :=
    .some t _ (hline t List.mem_cons_self) (Nat.le_refl _)
      (h.arranged.right.right.nonempty t.lexeme List.mem_cons_self)
  obtain ⟨hadds, hstands⟩ := h.commentsBefore hn hb hlimits hf.left indented
  have hblank : blankBefore trivia t.span.start _ = e.blank :=
    hstands.blankBefore hb (hadds.allows hf)
  have hlead := (hadds.trans (adds_separate trivia t.span.start _)).trans (adds_lastStop _ (stop l₀))
  rw [hblank, ← hl₀, ← hl₁] at hlead
  simp only [List.append_nil] at hlead
  have hpending : l₁.pending = e.trailing?.toList ++ commentsOf false rest :=
    hlead.pending_eq
      (h.pending.trans (trivia_line hn hb (List.cons_ne_nil t ts) hline ht rest).1)
  have htrailing := trailing?_eq ht hl h.arranged.right.right.right hpending
  have hcode := adds_codeLine indented (text e.code) limit? l₁
  rw [htrailing] at hcode
  have hadds := hlead.trans hcode
  rw [List.append_nil] at hadds
  exact ⟨hadds, hcode.pending_eq hpending, htrailing⟩

/-- A line of code is passed. -/
theorem Behind.pass_line
    (h : l.Behind trivia (ns ++ (bs ++ ((t :: ts).map Token.lexeme ++ (tail ++ rest)))))
    (hn : AllScanned Note.Scanned e.notes ns) (hb : BlankScanned e.blank bs)
    (hline : ∀ u ∈ t :: ts, u.kind ≠ .newline) (ht : TailScanned e.trailing? tail)
    (hl : l'.started = true → l'.forceBlank = false →
      t.span.start ≤ l'.lastStop ∧ ∀ x ∈ rest, l'.lastStop < x.span.start) :
    l'.Behind trivia rest := by
  have htrivia := (trivia_line hn hb (List.cons_ne_nil t ts) hline ht rest).2
  simp only [← List.append_assoc ns bs, ← List.append_assoc _ tail rest] at h htrivia
  refine h.pass htrivia fun hs hforce => ⟨⟨t.lexeme, ?_, (hl hs hforce).1⟩, (hl hs hforce).2⟩
  exact List.mem_append_left _ List.mem_cons_self

end

/-! ### Statements -/

/-- Lays out one statement. -/
def stmt (trivia : Trivia String) (limit? : Option Nat) (l : Layout) (s : SourceStmt) : Layout :=
  let l := (l.commentsBefore trivia (some s.span.start) true).separate trivia s.span.start
  { l with lastStop := s.span.stop }.codeLine true s.text limit?

theorem Stands.stmt {e : Entry SourceStmt} (h : l.Stands trivia (us ++ rest))
    (he : e.Scanned (fun s ts => Parser.ReadsStmt ts s) us) (hl : Clear limit? rest)
    (hf : l.Allows e.blanks) :
    l.Adds (l.stmt trivia limit? e.code) (e.lines true Stmt.text) e.blanks e.comments ∧
      (l.stmt trivia limit? e.code).Stands trivia rest := by
  cases he with
  | @mk ns bs tail ts before separated code line ended =>
    simp only [List.append_assoc] at h
    have harr := h.arranged.right.right
    have hcovers := (code.placed harr.left.ordered).covers
    obtain ⟨t, ts, rfl, -⟩ := code.starts
    have hstart : t.span.start = e.code.span.start := Option.some.inj hcovers.start
    obtain ⟨hadds, hpending, htrailing⟩ :=
      h.line before separated line ended hl hf true Stmt.text (fun _ => e.code.span.stop) rfl rfl
    rw [hstart] at hadds hpending htrailing
    refine ⟨hadds, ⟨h.toBehind.pass_line before separated line ended fun _ _ => ?_, hpending⟩⟩
    obtain ⟨last, hmem, hstop⟩ := hcovers.within.stop
    have hbefore : ∀ x ∈ tail, e.code.span.stop ≤ x.span.start := fun x hx => hstop ▸
      (Arranged.append.1 harr).2.2 _ (List.mem_map_of_mem hmem) x (List.mem_append_left _ hx)
    obtain ⟨hle, hlt⟩ := lastStop_lt ended harr.right hbefore
    rw [stmt, lastStop_codeLine, htrailing, hstart]
    have := hcovers.nonempty harr.left.ordered
    exact ⟨Nat.le_trans (Nat.le_of_lt this) hle, hlt⟩

/-- Comments before the next statement or the closing brace are on lines of their own. -/
theorem clear_next {entries : List (Entry SourceStmt)} {close : Nat}
    (hs : AllScanned (Entry.Scanned fun s ts => Parser.ReadsStmt ts s) entries us)
    (hl : Clear (some close) rest) (ha : Arranged (us ++ rest)) :
    Clear (some (((entries.map Entry.code).head?.map Stmt.span).elim close Span.start))
      (us ++ rest) := by
  cases hs with
  | nil => exact hl
  | @cons e _ _ vs he _ =>
    cases he with
    | @mk ns bs tail ts before separated code line ended =>
      simp only [List.append_assoc] at ha ⊢
      have hcovers := (code.placed ha.right.right.left.ordered).covers
      obtain ⟨t, ts, rfl, -⟩ := code.starts
      have hstart : t.span.start = e.code.span.start := Option.some.inj hcovers.start
      refine .mk before separated (.some t _ (line t List.mem_cons_self) (Nat.le_of_eq hstart) ?_)
      have hpos := ha.right.right.nonempty t.lexeme List.mem_cons_self
      exact hstart.symm.trans_lt hpos

/-- The statements in a function are laid out. -/
theorem Stands.stmts {entries : List (Entry SourceStmt)} {close : Nat}
    (hs : AllScanned (Entry.Scanned fun s ts => Parser.ReadsStmt ts s) entries us)
    (hl : Clear (some close) rest) :
    ∀ {l : Layout}, l.Stands trivia (us ++ rest) → l.Allows (entries.flatMap Entry.blanks) →
      l.Adds (l.stmts trivia close (entries.map Entry.code))
          (entries.flatMap (Entry.lines true Stmt.text)) (entries.flatMap Entry.blanks)
          (entries.flatMap Entry.comments) ∧
        (l.stmts trivia close (entries.map Entry.code)).Stands trivia rest := by
  induction hs with
  | nil => exact fun {l} h _ => ⟨.refl l, h⟩
  | @cons e entries us vs he hs ih =>
    intro l h hf
    rw [List.append_assoc] at h
    obtain ⟨hadds, hstands⟩ := h.stmt he (clear_next hs hl h.arranged.right) hf.left
    obtain ⟨hadds', hstands'⟩ := ih hstands (hadds.allows hf)
    exact ⟨hadds.trans hadds', hstands'⟩

/-! ### Functions -/

/-- Where nothing was laid out before, a blank line comes first just when one has to. -/
theorem Allows.of_first {force : Bool} (h : ∀ blank ∈ blanks.head?, blank = force)
    (hf : l.forceBlank = force) (hs : force = false → l.started = false) : l.Allows blanks := by
  intro blank hb
  rw [hf, h blank hb]
  cases force with
  | true => rfl
  | false => rw [hs rfl]; rfl

/-- The first line of a function has the first token of the function. -/
theorem exists_opens {e : Entry SourceFunction} {close : Span} (he : e.Scanned (Opens close) us) :
    ∃ t ts, Opens close e.code (t :: ts) ∧ t.lexeme ∈ us := by
  cases he with
  | @mk ns bs tail ts before separated code line ended =>
    obtain ⟨t, ts, rfl, -⟩ := code.first
    exact ⟨t, ts, code, by simp⟩

/-- A function runs from its first token to its closing brace. -/
theorem span_of_opens {f : SourceFunction} {close : Span} {t : Token} {ts : List Token}
    (h : Opens close f (t :: ts)) (ht : t.lexeme ∈ us) (ha : Arranged (us ++ vs))
    (hclose : Token.lexeme ⟨.rightBrace, "\x7d", close⟩ ∈ vs) : f.span = ⟨t.span.start, close.stop⟩ := by
  obtain ⟨first, ts, heq, htag⟩ := h.first
  obtain ⟨rfl, -⟩ := List.cons.inj heq
  obtain ⟨hus, hvs, hle⟩ := Arranged.append.1 ha
  have h₁ : t.span.start < t.span.stop := hus.nonempty _ ht
  have h₂ : close.start < close.stop := hvs.nonempty _ hclose
  have h₃ : t.span.stop ≤ close.start := hle _ ht _ hclose
  have : f.tag = ⟨t.span.start, close.stop⟩ := by
    rw [htag, Span.merge, Nat.min_eq_left (by omega), Nat.max_eq_right (by omega)]
  exact this

/-- The first line of a function is laid out, and nothing in the function is yet. -/
theorem Stands.header {e : Entry SourceFunction} {close : Span} (h : l.Stands trivia (us ++ rest))
    (he : e.Scanned (Opens close) us) (hspan : ∀ t ts, Opens close e.code (t :: ts) →
      t.lexeme ∈ us → t.span.start = e.code.span.start)
    (hl : Clear limit? rest) (hf : l.Allows e.blanks) {l₁ : Layout}
    (hl₁ : l₁ = ((l.commentsBefore trivia (some e.code.span.start) false).separate trivia
      e.code.span.start).codeLine false e.code.header limit?) :
    l.Adds l₁ (e.lines false Function.header) e.blanks e.comments ∧
      { l₁ with started := false }.Stands trivia rest := by
  cases he with
  | @mk ns bs tail ts before separated code line ended =>
    obtain ⟨t, ts, rfl, -⟩ := code.first
    have hstart := hspan t ts code (by simp)
    simp only [List.append_assoc] at h
    obtain ⟨hadds, hpending, -⟩ :=
      h.line before separated line ended hl hf false Function.header lastStop rfl rfl
    rw [hstart] at hadds hpending
    exact ⟨hl₁ ▸ hadds, h.toBehind.pass_line before separated line ended nofun, hl₁ ▸ hpending⟩

/-- Comments before a function are on lines of their own. -/
theorem clear_header {e : Entry SourceFunction} {close : Span} (he : e.Scanned (Opens close) us)
    (hspan : ∀ t ts, Opens close e.code (t :: ts) → t.lexeme ∈ us →
      t.span.start = e.code.span.start) (ha : Arranged (us ++ rest)) :
    Clear (some e.code.span.start) (us ++ rest) := by
  cases he with
  | @mk ns bs tail ts before separated code line ended =>
    obtain ⟨t, ts, rfl, -⟩ := code.first
    have hstart := hspan t ts code (by simp)
    simp only [List.append_assoc] at ha ⊢
    refine .mk before separated (.some t _ (line t List.mem_cons_self) (Nat.le_of_eq hstart) ?_)
    have hpos := ha.right.right.nonempty t.lexeme List.mem_cons_self
    exact hstart.symm.trans_lt hpos

/-- The line with the closing brace of a function is laid out. -/
theorem Stands.close {trailing? : Option (Comment String)} {close : Span} {tail : List Lexeme}
    (h : l.Stands trivia (Token.lexeme ⟨.rightBrace, "\x7d", close⟩ :: (tail ++ rest)))
    (ht : TailScanned trailing? tail) (hl : Clear limit? rest) {l₁ : Layout} {stop : Nat}
    (hl₁ : l₁ = { l with lastStop := stop }.codeLine false "\x7d" limit?) :
    l.Adds l₁ [⟨false, "\x7d", trailing?.map Comment.text⟩] [] trailing?.toList ∧
      { l₁ with forceBlank := true }.Stands trivia rest := by
  have hline : ∀ t ∈ [(⟨.rightBrace, "\x7d", close⟩ : Token)], t.kind ≠ .newline := by simp
  have hpending : l.pending = trailing?.toList ++ commentsOf false rest :=
    h.pending.trans (trivia_line .nil .none (by simp) hline ht rest).1
  have htrailing : ({ l with lastStop := stop } : Layout).trailing? limit? = trailing? :=
    trailing?_eq ht hl h.arranged.tail hpending
  have hcode := adds_codeLine false "\x7d" limit? { l with lastStop := stop }
  rw [htrailing, ← hl₁] at hcode
  have hadds := (adds_lastStop l stop).trans hcode
  refine ⟨hadds, ?_, hcode.pending_eq hpending⟩
  have hbehind : l.Behind trivia ([] ++ ([] ++ ([(⟨.rightBrace, "\x7d", close⟩ : Token)].map
    Token.lexeme ++ (tail ++ rest)))) := h.toBehind
  exact hbehind.pass_line (e := ⟨[], false, (), trailing?⟩) .nil .none hline ht nofun

/-- A function is laid out. -/
theorem Stands.function {b : Block Empty Span} (h : l.Stands trivia (us ++ rest))
    (hb : b.Scanned us) (hl : Clear limit? rest) (hf : l.Allows b.header.blanks)
    (hinside : ∀ blank ∈ b.blanks.head?, blank = false) :
    (l.function trivia limit? b.header.code).lines.toList = l.lines.toList ++ b.lines ∧
      (l.function trivia limit? b.header.code).Stands trivia rest := by
  cases hb with
  | @mk header body notes tail close first inside after ended =>
    simp only [List.append_assoc, List.cons_append] at h
    have hspan : ∀ t ts, Opens close b.header.code (t :: ts) → t.lexeme ∈ header →
        b.header.code.span = ⟨t.span.start, close.stop⟩ := fun t ts ho ht =>
      span_of_opens ho ht h.arranged (by simp [Token.lexeme])
    have hstop : b.header.code.span.stop = close.stop := by
      obtain ⟨t, ts, ho, ht⟩ := exists_opens first
      rw [hspan t ts ho ht]
    have hlimits : Limits (some (b.header.code.span.stop - 1))
        (Token.lexeme ⟨.rightBrace, "\x7d", close⟩ :: (tail ++ rest)) := by
      have hpos : close.start < close.stop :=
        h.arranged.right.right.right.nonempty _ List.mem_cons_self
      rw [hstop]
      exact .some _ _ (by simp) (show close.start ≤ _ by omega) (show _ < close.stop by omega)
    have hafter : Clear (some (b.header.code.span.stop - 1)) (notes ++ ([] ++
        Token.lexeme ⟨.rightBrace, "\x7d", close⟩ :: (tail ++ rest))) := .mk after .none hlimits
    have hnext := clear_next inside hafter h.arranged.right
    rw [b.complete] at hnext
    obtain ⟨hheader, hin⟩ := h.header first (fun t ts ho ht => by rw [hspan t ts ho ht]) hnext hf rfl
    have hallows := Allows.of_first (l := { Layout.codeLine _ _ _ _ with started := false }) hinside
      (hheader.changed (by simp [Entry.blanks])).2 fun _ => rfl
    obtain ⟨hbody, hin⟩ := hin.stmts inside hafter hallows.left
    obtain ⟨hnotes, hin⟩ := hin.commentsBefore after .none hlimits (hbody.allows hallows) true
    obtain ⟨hclose, hin⟩ := hin.close ended hl rfl
    have hlines := ((hbody.trans hnotes).trans hclose).lines
    rw [b.complete] at hlines hin
    refine ⟨hlines.trans ?_, hin⟩
    rw [Block.lines, ← List.append_assoc l.lines.toList, ← hheader.lines, List.append_assoc]

/-- Comments before the next function or after the last one are on lines of their own. -/
theorem clear_function {blocks : List (Block Empty Span)} (hs : AllScanned Block.Scanned blocks us)
    (hn : AllScanned Note.Scanned notes vs) (ha : Arranged (us ++ vs)) :
    Clear (((blocks.map fun b => b.header.code).head?.map Function.span).elim none
      fun span => some span.start) (us ++ vs) := by
  cases hs with
  | nil => simpa using Clear.mk hn .none .none
  | @cons b _ _ ws hb _ =>
    cases hb with
    | @mk header body notes tail close first inside after ended =>
      simp only [List.append_assoc, List.cons_append] at ha ⊢
      refine clear_header first (fun t ts ho ht => ?_) ha
      rw [span_of_opens ho ht ha (by simp [Token.lexeme])]

/-- Functions and the comments after them are laid out. -/
theorem Stands.functions {blocks : List (Block Empty Span)}
    (hs : AllScanned Block.Scanned blocks us) (hn : AllScanned Note.Scanned notes vs) :
    ∀ {l : Layout} {force : Bool}, l.Stands trivia (us ++ vs) → Document.FitsFrom force blocks notes →
      l.forceBlank = force → (force = false → l.started = false) →
      (l.functions trivia none (blocks.map fun b => b.header.code)).lines.toList
        = l.lines.toList ++ (blocks.flatMap Block.lines ++ notes.flatMap (Note.lines false)) := by
  induction hs with
  | nil =>
    intro l force h hfits hforce hstarted
    have h : l.Stands trivia (vs ++ ([] ++ [])) := by simpa using h
    exact (h.commentsBefore hn .none .none (.of_first hfits hforce hstarted) false).1.lines
  | @cons b blocks us ws hb hs ih =>
    intro l force h hfits hforce hstarted
    rw [List.append_assoc] at h
    obtain ⟨hlines, hstands⟩ := h.function hb (clear_function hs hn h.arranged.right)
      (.of_first hfits.1.before hforce hstarted) hfits.1.inside
    refine (ih hstands hfits.2 rfl nofun).trans ?_
    rw [hlines, List.flatMap_cons, List.append_assoc, List.append_assoc]

end Layout

/-- What was read from a document is laid out as the document. -/
theorem Document.Scanned.lines {d : Document Empty Span} {ls : List Lexeme} (h : d.Scanned ls)
    (ha : Arranged ls) (hfits : d.Fits) :
    (Program.mk d.functions ⟨commentsOf false ls, blankLinesOf false ls⟩).lines = d.lines := by
  cases h with
  | @mk us vs functions after =>
    have hstart : (Layout.start (commentsOf false (us ++ vs))).Stands
        ⟨commentsOf false (us ++ vs), blankLinesOf false (us ++ vs)⟩ (us ++ vs) :=
      ⟨⟨ha, fun _ => id, fun q hq hrest => absurd hq hrest, nofun⟩, rfl⟩
    exact hstart.functions functions after hfits rfl fun _ => rfl

end Recast
