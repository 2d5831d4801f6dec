import Recast.Proofs.Printing.Document
import Recast.Proofs.Printing.Reread

/-!
# Documents are read back

The text of a document is cut into lexemes where it was put together, so what one reads is a document
with the same code, the same comments and the same blank lines.
-/

namespace Recast

open Lexer (Scans Spells)

variable {ε α β γ δ : Type}

/-! ### Documents without places -/

/-- The comment without its place. -/
def Comment.plain (c : Comment String) : Comment String := ⟨c.text, ⟨0, 0⟩, false⟩

/-- The comment of its own without its place. -/
def Note.plain (n : Note) : Note := ⟨n.blank, n.comment.plain⟩

/-- The code without its place. -/
def Entry.plain (f : γ → δ) (e : Entry γ) : Entry δ :=
  ⟨e.notes.map Note.plain, e.blank, f e.code, e.trailing?.map Comment.plain⟩

/-- The function without its place. -/
def Block.plain (b : Block ε α) : Block Unit Unit where
  header := b.header.plain Function.bare
  body := b.body.map (Entry.plain Stmt.bare)
  notes := b.notes.map Note.plain
  closing? := b.closing?.map Comment.plain
  complete := by
    rw [List.map_map]
    exact (List.map_map (g := Stmt.bare)).symm.trans (congrArg _ b.complete)

/-- The document without places. -/
def Document.plain (d : Document ε α) : Document Unit Unit :=
  ⟨d.blocks.map Block.plain, d.notes.map Note.plain⟩

@[simp] theorem Note.lines_plain (indented : Bool) (n : Note) :
    n.plain.lines indented = n.lines indented := rfl

theorem Entry.lines_plain (indented : Bool) {text : γ → String} {text' : δ → String} {f : γ → δ}
    (h : ∀ x, text' (f x) = text x) (e : Entry γ) :
    (e.plain f).lines indented text' = e.lines indented text := by
  simp [Entry.lines, Entry.plain, List.flatMap_map, h, Function.comp_def, Comment.plain]

@[simp] theorem Entry.blanks_plain (f : γ → δ) (e : Entry γ) : (e.plain f).blanks = e.blanks := by
  simp [Entry.blanks, Entry.plain, Function.comp_def, Note.plain]

@[simp] theorem Block.lines_plain (b : Block ε α) : b.plain.lines = b.lines := by
  simp [Block.lines, Block.plain, List.flatMap_map, Function.comp_def, Comment.plain,
    Entry.lines_plain false Function.header_bare, Entry.lines_plain true Stmt.text_bare]

@[simp] theorem Document.lines_plain (d : Document ε α) : d.plain.lines = d.lines := by
  simp [Document.lines, Document.plain, List.flatMap_map]

theorem Block.fits_plain {force : Bool} {b : Block ε α} : b.plain.Fits force ↔ b.Fits force := by
  have hinside : b.plain.blanks = b.blanks := by
    simp [Block.blanks, Block.plain, List.flatMap_map, Function.comp_def, Note.plain]
  have hbefore : b.plain.header.blanks = b.header.blanks := Entry.blanks_plain _ _
  constructor
  · rintro ⟨h, h'⟩
    exact ⟨hbefore ▸ h, hinside ▸ h'⟩
  · rintro ⟨h, h'⟩
    exact ⟨hbefore ▸ h, hinside ▸ h'⟩

theorem Document.fitsFrom_plain (bs : List (Block ε α)) (notes : List Note) : ∀ {force : Bool},
    FitsFrom force (bs.map Block.plain) (notes.map Note.plain) ↔ FitsFrom force bs notes := by
  induction bs with
  | nil =>
    intro force
    simp [FitsFrom, Note.plain]
  | cons b bs ih =>
    intro force
    rw [List.map_cons, FitsFrom, FitsFrom, Block.fits_plain, ih]

theorem Document.fits_plain {d : Document ε α} : d.plain.Fits ↔ d.Fits :=
  Document.fitsFrom_plain d.blocks d.notes

theorem Document.functions_plain (d : Document ε α) :
    d.plain.functions = d.functions.map Function.bare := by
  simp [Document.functions, Document.plain, Function.comp_def, Block.plain, Entry.plain]

theorem Entry.comments_plain (f : γ → δ) (e : Entry γ) :
    (e.plain f).comments = e.comments.map Comment.plain := by
  have hnotes : Note.comment ∘ Note.plain = Comment.plain ∘ Note.comment := rfl
  cases h : e.trailing? <;> simp [Entry.comments, Entry.plain, h, hnotes]

theorem Block.comments_plain (b : Block ε α) :
    b.plain.comments = b.comments.map Comment.plain := by
  have hnotes : Note.comment ∘ Note.plain = Comment.plain ∘ Note.comment := rfl
  cases h : b.closing? <;> simp [Block.comments, Block.plain, Entry.comments_plain, h, hnotes,
    List.flatMap_map, List.map_flatMap]

theorem Document.comments_plain (d : Document ε α) :
    d.plain.comments = d.comments.map Comment.plain := by
  have hnotes : Note.comment ∘ Note.plain = Comment.plain ∘ Note.comment := rfl
  simp [Document.comments, Document.plain, Block.comments_plain, hnotes, List.flatMap_map,
    List.map_flatMap]

/-! ### Lexemes of documents -/

/-- A newline. -/
def newlineAt (pos : Nat) : Lexeme := ⟨.token .newline, "\n", ⟨pos, pos + 1⟩⟩

/-- The lexeme that a comment is. -/
def Comment.lexeme (c : Comment String) : Lexeme := ⟨.comment, c.text, c.span⟩

/-- The lexemes of a blank line or none. -/
inductive BlankScanned : Bool → List Lexeme → Prop
  | none : BlankScanned false []
  | some (pos : Nat) : BlankScanned true [newlineAt pos]

/-- The lexemes at the end of a line of code. -/
inductive TailScanned : Option (Comment String) → List Lexeme → Prop
  | none (pos : Nat) : TailScanned none [newlineAt pos]
  | some {c : Comment String} (pos : Nat) (trailing : c.trailing = true) :
      TailScanned (some c) [c.lexeme, newlineAt pos]

/-- The lexemes of a comment of its own. -/
inductive Note.Scanned (n : Note) : List Lexeme → Prop
  | mk {blank : List Lexeme} (pos : Nat) (scanned : BlankScanned n.blank blank)
      (own : n.comment.trailing = false) :
      Scanned n (blank ++ [n.comment.lexeme, newlineAt pos])

/-- The lexemes of some things in order. -/
inductive AllScanned (scanned : β → List Lexeme → Prop) : List β → List Lexeme → Prop
  | nil : AllScanned scanned [] []
  | cons {x : β} {xs : List β} {us vs : List Lexeme} :
      scanned x us → AllScanned scanned xs vs → AllScanned scanned (x :: xs) (us ++ vs)

/-- The lexemes of a line of code with the comments before it, where `reads` says what tokens the
code may have. -/
inductive Entry.Scanned (reads : γ → List Token → Prop) (e : Entry γ) : List Lexeme → Prop
  | mk {notes blank tail : List Lexeme} {ts : List Token}
      (before : AllScanned Note.Scanned e.notes notes) (separated : BlankScanned e.blank blank)
      (code : reads e.code ts) (line : ∀ t ∈ ts, t.kind ≠ .newline)
      (ended : TailScanned e.trailing? tail) :
      Scanned reads e (notes ++ blank ++ ts.map Token.lexeme ++ tail)

/-- The tokens are the first line of a function that has its closing brace at `close`. -/
structure Opens (close : Span) (f : SourceFunction) (ts : List Token) : Prop where
  first : ∃ first rest, ts = first :: rest ∧ f.tag = first.span.merge close
  reads : ∀ bs, Parser.ReadsBlock bs f.body close → Parser.ReadsFunction (ts ++ bs) f

/-- The lexemes of a function. -/
inductive Block.Scanned (b : Block Empty Span) : List Lexeme → Prop
  | mk {header body notes tail : List Lexeme} {close : Span}
      (first : b.header.Scanned (Opens close) header)
      (inside : AllScanned (Entry.Scanned fun s ts => Parser.ReadsStmt ts s) b.body body)
      (after : AllScanned Note.Scanned b.notes notes) (ended : TailScanned b.closing? tail) :
      Scanned b (header ++ (body ++ notes ++ ⟨.token .rightBrace, "\x7d", close⟩ :: tail))

/-- The lexemes of a document. -/
inductive Document.Scanned (d : Document Empty Span) : List Lexeme → Prop
  | mk {blocks notes : List Lexeme} (functions : AllScanned Block.Scanned d.blocks blocks)
      (after : AllScanned Note.Scanned d.notes notes) : Scanned d (blocks ++ notes)

/-! ### Scanning lines -/

/-- Scanning the text gives lexemes of the form `P`, whatever follows. -/
def Lays (cs : List Char) (P : List Lexeme → Prop) : Prop :=
  ∀ ⦃pos : Nat⦄ ⦃rest : List Char⦄ ⦃found : List Lexeme⦄, Scans (pos + bytes cs) rest found →
    ∃ ls, P ls ∧ Scans pos (cs ++ rest) (ls ++ found)

/-- The lexemes have the form `P` up to some point and the form `Q` from there. -/
def Followed (P Q : List Lexeme → Prop) (ls : List Lexeme) : Prop :=
  ∃ us vs, ls = us ++ vs ∧ P us ∧ Q vs

section

variable {cs ds : List Char} {P Q : List Lexeme → Prop}

theorem Lays.mono (h : Lays cs P) (hPQ : ∀ ls, P ls → Q ls) : Lays cs Q := by
  intro pos rest found hs
  obtain ⟨ls, hp, hs⟩ := h hs
  exact ⟨ls, hPQ ls hp, hs⟩

theorem Lays.append (h : Lays cs P) (h' : Lays ds Q) : Lays (cs ++ ds) (Followed P Q) := by
  intro pos rest found hs
  rw [bytes_append, ← Nat.add_assoc] at hs
  obtain ⟨vs, hq, hs⟩ := h' hs
  obtain ⟨us, hp, hs⟩ := h hs
  refine ⟨us ++ vs, ⟨us, vs, rfl, hp, hq⟩, ?_⟩
  rwa [List.append_assoc, List.append_assoc]

theorem Lays.nil : Lays [] (· = []) := fun _ _ _ hs => ⟨[], rfl, by simpa using hs⟩

theorem Lays.newline : Lays ['\n'] fun ls => ∃ pos, ls = [newlineAt pos] := by
  intro pos rest found hs
  have hm : Lexer.munch '\n' rest = some (.token .newline, 0) := rfl
  exact ⟨_, ⟨pos, rfl⟩, .lexeme hm hs⟩

theorem Lays.tab : Lays ['\t'] (· = []) := fun _ _ _ hs => ⟨[], rfl, .separator rfl hs⟩

theorem Lays.space : Lays [' '] (· = []) := fun _ _ _ hs => ⟨[], rfl, .separator rfl hs⟩

/-- A comment up to the end of its line. -/
theorem Lays.comment {text : String} (h : Spells .comment text.toList) (trailing : Bool) :
    Lays (text.toList ++ ['\n']) fun ls => ∃ (c : Comment String) (pos : Nat),
      c.plain = ⟨text, ⟨0, 0⟩, false⟩ ∧ c.trailing = trailing ∧ ls = [c.lexeme, newlineAt pos] := by
  intro pos rest found hs
  rw [bytes_append, ← Nat.add_assoc] at hs
  obtain ⟨_, ⟨pos', rfl⟩, hs⟩ := Lays.newline hs
  obtain ⟨c, tail, htext, hm⟩ := h.comment rest
  rw [htext] at hs ⊢
  refine ⟨_, ⟨⟨text, ⟨pos, pos + bytes (c :: tail)⟩, trailing⟩, pos', rfl, rfl, rfl⟩, ?_⟩
  have hrest : Scans (pos + bytes (c :: tail)) ('\n' :: rest) (newlineAt pos' :: found) := hs
  have hlexeme := Scans.lexeme hm (by simpa using hrest)
  have htext' : String.ofList (c :: tail) = text := by rw [← htext, String.ofList_toList]
  simpa [Comment.lexeme, htext'] using hlexeme

/-- A line break and what follows end the code before them. -/
theorem Writes.lays {text : String} {P : List Token → Prop} (h : Writes text P)
    (hmark : cs.head?.any Lexer.isBreak = true) (h' : Lays cs Q) :
    Lays (text.toList ++ cs) fun ls => ∃ ts vs, ls = ts.map Token.lexeme ++ vs ∧ P ts ∧
      (∀ t ∈ ts, t.kind ≠ .newline) ∧ Q vs := by
  intro pos rest found hs
  rw [bytes_append, ← Nat.add_assoc] at hs
  obtain ⟨vs, hq, hs⟩ := h' hs
  have hbreaks : Lexer.Breaks (cs ++ rest) := by
    intro c hc
    cases cs with
    | nil => cases hmark
    | cons d ds =>
      cases hc
      exact hmark
  obtain ⟨ts, hp, hline, hs⟩ := h hbreaks hs
  refine ⟨ts.map Token.lexeme ++ vs, ⟨ts, vs, rfl, hp, hline, hq⟩, ?_⟩
  rwa [List.append_assoc, List.append_assoc]

/-- Things in order are scanned one by one. -/
theorem Lays.all {scanned : γ → List Lexeme → Prop} {chars : β → List Char} {f : β → δ} {g : γ → δ}
    (xs : List β) (h : ∀ x ∈ xs, Lays (chars x) fun ls => ∃ y, scanned y ls ∧ g y = f x) :
    Lays (xs.flatMap chars) fun ls => ∃ ys, AllScanned scanned ys ls ∧ ys.map g = xs.map f := by
  induction xs with
  | nil =>
    refine Lays.nil.mono ?_
    rintro _ rfl
    exact ⟨[], .nil, rfl⟩
  | cons x xs ih =>
    have hxs := ih fun y hy => h y (List.mem_cons_of_mem _ hy)
    refine ((h x List.mem_cons_self).append hxs).mono ?_
    rintro _ ⟨us, vs, rfl, ⟨y, hy, hyx⟩, ys, hys, hyxs⟩
    exact ⟨y :: ys, .cons hy hys, by rw [List.map_cons, List.map_cons, hyx, hyxs]⟩

end

/-- The characters of lines. -/
def lineChars (lines : List Line) : List Char := lines.flatMap fun l => l.text.toList

@[simp] theorem lineChars_append (xs ys : List Line) :
    lineChars (xs ++ ys) = lineChars xs ++ lineChars ys := List.flatMap_append

theorem lineChars_flatMap (f : β → List Line) (xs : List β) :
    lineChars (xs.flatMap f) = xs.flatMap fun x => lineChars (f x) := List.flatMap_assoc

theorem lays_blankLines (blank : Bool) : Lays (lineChars (blankLines blank)) (BlankScanned blank) := by
  cases blank with
  | false =>
    refine Lays.nil.mono ?_
    rintro _ rfl
    exact .none
  | true =>
    refine Lays.newline.mono ?_
    rintro _ ⟨pos, rfl⟩
    exact .some pos

/-- A tab or none. -/
theorem lays_indent (indented : Bool) :
    Lays (if indented then "\t" else "").toList (· = []) := by
  cases indented with
  | false => exact Lays.nil
  | true => exact Lays.tab

/-- What follows the code on a line. -/
def Line.tail (trailing? : Option String) : List Char :=
  (match trailing? with | some comment => ' ' :: comment.toList | none => []) ++ ['\n']

theorem Line.chars (l : Line) : l.text.toList
    = (if l.indented then "\t" else "").toList ++ (l.code.toList ++ tail l.trailing?) := by
  obtain ⟨indented, code, trailing?⟩ := l
  cases trailing? <;> simp [text, tail, String.toList_append]

theorem lays_tail {trailing? : Option (Comment String)}
    (h : ∀ c ∈ trailing?, Spells .comment c.text.toList) :
    Lays (Line.tail (trailing?.map Comment.text)) fun ls => ∃ trailing?' : Option (Comment String),
      TailScanned trailing?' ls ∧ trailing?'.map Comment.plain = trailing?.map Comment.plain := by
  cases trailing? with
  | none =>
    refine Lays.newline.mono ?_
    rintro _ ⟨pos, rfl⟩
    exact ⟨none, .none pos, rfl⟩
  | some c =>
    refine (Lays.space.append (Lays.comment (h c rfl) true)).mono ?_
    rintro _ ⟨_, _, rfl, rfl, c', pos, hc, htrailing, rfl⟩
    exact ⟨some c', .some pos htrailing, congrArg some hc⟩

theorem Line.isBreak_tail (trailing? : Option String) :
    (tail trailing?).head?.any Lexer.isBreak = true := by
  cases trailing? <;> rfl

/-- A comment of its own is scanned as such. -/
theorem Note.lays {n : Note} (indented : Bool) (h : Spells .comment n.comment.text.toList) :
    Lays (lineChars (n.lines indented)) fun ls => ∃ n' : Note, n'.Scanned ls ∧ n'.plain = n.plain := by
  have hline : lineChars [⟨indented, n.comment.text, none⟩]
      = (if indented then "\t" else "").toList ++ (n.comment.text.toList ++ ['\n']) := by
    rw [lineChars, List.flatMap_singleton, Line.chars]
    rfl
  rw [Note.lines, lineChars_append, hline]
  refine ((lays_blankLines n.blank).append ((lays_indent indented).append (.comment h false))).mono ?_
  rintro _ ⟨bs, _, rfl, hblank, _, _, rfl, rfl, c, pos, hc, hown, rfl⟩
  exact ⟨⟨n.blank, c⟩, .mk pos hblank hown, congrArg (Note.mk n.blank) hc⟩

theorem Note.lays_all {notes : List Note} (indented : Bool)
    (h : ∀ n ∈ notes, Spells .comment n.comment.text.toList) :
    Lays (lineChars (notes.flatMap (Note.lines indented))) fun ls => ∃ notes' : List Note,
      AllScanned Note.Scanned notes' ls ∧ notes'.map Note.plain = notes.map Note.plain := by
  rw [lineChars_flatMap]
  exact .all notes fun n hn => Note.lays indented (h n hn)

/-- A line of code with the comments before it is scanned as such. -/
theorem Entry.lays {e : Entry γ} (indented : Bool) {text : γ → String} {f : γ → β} {g : δ → β}
    {reads : δ → List Token → Prop}
    (hcode : Writes (text e.code) fun ts => ∃ x, reads x ts ∧ g x = f e.code)
    (h : ∀ c ∈ e.comments, Spells .comment c.text.toList) :
    Lays (lineChars (e.lines indented text)) fun ls =>
      ∃ e' : Entry δ, e'.Scanned reads ls ∧ e'.plain g = e.plain f := by
  have hline : lineChars [⟨indented, text e.code, e.trailing?.map Comment.text⟩]
      = (if indented then "\t" else "").toList
        ++ ((text e.code).toList ++ Line.tail (e.trailing?.map Comment.text)) := by
    rw [lineChars, List.flatMap_singleton, Line.chars]
  have hnotes : ∀ n ∈ e.notes, Spells .comment n.comment.text.toList := fun n hn =>
    h _ (List.mem_append_left _ (List.mem_map_of_mem hn))
  have htail : ∀ c ∈ e.trailing?, Spells .comment c.text.toList := fun c hc =>
    h c (List.mem_append_right _ (Option.mem_toList.2 hc))
  rw [Entry.lines, lineChars_append, lineChars_append, hline]
  refine (((Note.lays_all indented hnotes).append (lays_blankLines e.blank)).append
    ((lays_indent indented).append (hcode.lays (Line.isBreak_tail _) (lays_tail htail)))).mono ?_
  rintro _ ⟨_, _, rfl, ⟨ns, bs, rfl, ⟨notes, hns, hn⟩, hbs⟩, _, _, rfl, rfl, ts, vs, rfl,
    ⟨x, hx, hxe⟩, hts, trailing?, hvs, ht⟩
  refine ⟨⟨notes, e.blank, x, trailing?⟩, ?_, ?_⟩
  · have : Entry.Scanned reads ⟨notes, e.blank, x, trailing?⟩
        (ns ++ bs ++ ts.map Token.lexeme ++ vs) := .mk hns hbs hx hts hvs
    simpa using this
  · simp only [Entry.plain, hn, hxe, ht]

/-- Only the code of a line depends on what it is read as. -/
theorem Entry.Scanned.map {reads : γ → List Token → Prop} {reads' : δ → List Token → Prop}
    {e : Entry γ} {ls : List Lexeme} (h : e.Scanned reads ls) {x : δ}
    (hx : ∀ ts, reads e.code ts → reads' x ts) :
    (Entry.mk e.notes e.blank x e.trailing?).Scanned reads' ls := by
  cases h with
  | mk before separated code line ended => exact .mk before separated (hx _ code) line ended

/-- A function is scanned as such. -/
theorem Block.lays {b : Block ε α} (hp : b.header.code.Printable)
    (h : ∀ c ∈ b.comments, Spells .comment c.text.toList) :
    Lays (lineChars b.lines) fun ls =>
      ∃ b' : Block Empty Span, b'.Scanned ls ∧ b'.plain = b.plain := by
  have hheader : ∀ c ∈ b.header.comments, Spells .comment c.text.toList := fun c hc =>
    h c (List.mem_append_left _ hc)
  have hbody : ∀ e ∈ b.body, ∀ c ∈ e.comments, Spells .comment c.text.toList := fun e he c hc =>
    h c (List.mem_append_right _ (List.mem_append_left _ (List.mem_append_left _
      (List.mem_flatMap.2 ⟨e, he, hc⟩))))
  have hnotes : ∀ n ∈ b.notes, Spells .comment n.comment.text.toList := fun n hn =>
    h _ (List.mem_append_right _ (List.mem_append_left _ (List.mem_append_right _
      (List.mem_map_of_mem hn))))
  have hclosing : ∀ c ∈ b.closing?, Spells .comment c.text.toList := fun c hc =>
    h c (List.mem_append_right _ (List.mem_append_right _ (Option.mem_toList.2 hc)))
  have hstmt : ∀ e ∈ b.body, e.code.Printable := fun e he =>
    hp.body.2 _ (b.complete ▸ List.mem_map_of_mem he)
  have hfirst := Entry.lays (e := b.header) false
    (f := fun f => (f.name, f.params.map Param.bare, f.results.map TypeRef.bare))
    (g := fun x : Header => (b.header.code.name, x.params.map Param.bare, x.results.map TypeRef.bare))
    (hp.writes.writes.mono (by
      rintro ts ⟨x, hx, hd⟩
      exact ⟨x, hx, by rw [hd.1, hd.2]⟩)) hheader
  have hinside : Lays (lineChars (b.body.flatMap (Entry.lines true Stmt.text))) fun ls =>
      ∃ entries : List (Entry SourceStmt),
        AllScanned (Entry.Scanned fun s ts => Parser.ReadsStmt ts s) entries ls ∧
          entries.map (Entry.plain Stmt.bare) = b.body.map (Entry.plain Stmt.bare) := by
    rw [lineChars_flatMap]
    exact .all b.body fun e he => Entry.lays true (hstmt e he).writes (hbody e he)
  have hclose : lineChars [⟨false, "\x7d", b.closing?.map Comment.text⟩]
      = "\x7d".toList ++ Line.tail (b.closing?.map Comment.text) := by
    simp [lineChars, Line.chars]
  rw [Block.lines, lineChars_append, lineChars_append, lineChars_append, hclose]
  refine (hfirst.append ((hinside.append (Note.lays_all true hnotes)).append
    (Closes.rightBrace.writes.lays (Line.isBreak_tail _) (lays_tail hclosing)))).mono ?_
  rintro _ ⟨hs, _, rfl, ⟨header, hheader, hx⟩, _, _, rfl, ⟨bs, ns, rfl, ⟨body, hbs, hbody⟩, notes,
    hns, hnotes⟩, _, tail, rfl, ⟨close, rfl⟩, -, closing?, htail, hclosing⟩
  have hcodes : (body.map Entry.code).map Stmt.bare = b.header.code.body.map Stmt.bare := by
    have := congrArg (List.map Entry.code) hbody
    simpa [← b.complete, Function.comp_def, Entry.plain] using this
  have hlength : (body.map Entry.code).length ≤ maxItems := by
    have := congrArg List.length hcodes
    simp only [List.length_map] at this ⊢
    exact this ▸ hp.body.1
  have hplain := Entry.mk.inj hx
  obtain ⟨hparams, hresults⟩ := Prod.mk.inj (Prod.mk.inj hplain.2.2.1).2
  refine ⟨⟨⟨header.notes, header.blank, header.code.function b.header.code.name
    (body.map Entry.code) close, header.trailing?⟩, body, notes, closing?, rfl⟩, ?_, ?_⟩
  · refine .mk (hheader.map fun ts hts => ?_) hbs hns htail
    obtain ⟨⟨first, rest, rfl, hstart⟩, hreads⟩ := hts
    exact ⟨⟨first, rest, rfl, by rw [hstart]; rfl⟩, fun bs hb => hreads bs _ close hb hlength⟩
  · simp only [Block.plain, Block.mk.injEq, Entry.plain, Entry.mk.injEq]
    refine ⟨⟨hplain.1, hplain.2.1, ?_, hplain.2.2.2⟩, hbody, hnotes, hclosing⟩
    simp only [Function.bare, Header.function, hparams, hresults, hcodes]

/-- A document is scanned as such. -/
theorem Document.lays {d : Document ε α} (hp : ∀ f ∈ d.functions, f.Printable)
    (h : ∀ c ∈ d.comments, Spells .comment c.text.toList) :
    Lays (lineChars d.lines) fun ls =>
      ∃ d' : Document Empty Span, d'.Scanned ls ∧ d'.plain = d.plain := by
  have hblocks : Lays (lineChars (d.blocks.flatMap Block.lines)) fun ls =>
      ∃ bs : List (Block Empty Span), AllScanned Block.Scanned bs ls ∧
        bs.map Block.plain = d.blocks.map Block.plain := by
    rw [lineChars_flatMap]
    refine .all d.blocks fun b hb => Block.lays (hp _ (List.mem_map_of_mem hb)) fun c hc => ?_
    exact h c (List.mem_append_left _ (List.mem_flatMap.2 ⟨b, hb, hc⟩))
  have hnotes := Note.lays_all false fun n hn =>
    h _ (List.mem_append_right _ (List.mem_map_of_mem hn))
  rw [Document.lines, lineChars_append]
  refine (hblocks.append hnotes).mono ?_
  rintro _ ⟨us, vs, rfl, ⟨bs, hbs, hb⟩, notes, hns, hn⟩
  exact ⟨⟨bs, notes⟩, .mk hbs hns, by simp only [Document.plain, hb, hn]⟩

end Recast
