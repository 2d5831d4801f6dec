import Recast.Proofs.Printing.Relaid
import Recast.Proofs.Store.Parsed

/-!
# Printed programs are read back

The text of a printable program is read as a program with the same code and the same comments, and
that program is laid out in the same way.
-/

namespace Recast

open Lexer (Spells Scans)

variable {ε α δ β : Type}

/-! ### Programs with the same text -/

/-- Two programs differ only in their tags and in where their comments and blank lines are. -/
structure Program.SameText (p : Program ε α) (q : Program δ β) : Prop where
  functions : p.functions.map Function.bare = q.functions.map Function.bare
  comments : p.trivia.comments.map Comment.text = q.trivia.comments.map Comment.text

/-- The program can be printed: its functions can, and its comments are spelled as such. -/
structure Program.Printable (p : Program ε α) : Prop where
  functions : ∀ f ∈ p.functions, f.Printable
  comments : ∀ c ∈ p.trivia.comments, Spells .comment c.text.toList

namespace Program

/-- The characters of a program in canonical layout. -/
theorem toList_render [Spanned α] (p : Program ε α) : p.render.toList = lineChars p.lines := by
  have hfold (ls : List Line) : ∀ text : String,
      (ls.foldl (fun text line => text ++ line.text) text).toList = text.toList ++ lineChars ls := by
    induction ls with
    | nil => exact fun text => (List.append_nil _).symm
    | cons l ls ih =>
      intro text
      rw [List.foldl_cons, ih, String.toList_append, List.append_assoc]
      rfl
  exact hfold p.lines ""

theorem render_eq [Spanned α] [Spanned β] {p : Program ε α} {q : Program δ β}
    (h : p.lines = q.lines) : p.render = q.render :=
  String.toList_injective (by rw [toList_render, toList_render, h])

/-- A printable program is read back from its text. -/
theorem Printable.exists_parse_render [Spanned α] {p : Program ε α} (h : p.Printable) :
    ∃ tree, parse p.render = .ok tree ∧ tree.SameText p ∧ tree.lines = p.lines := by
  obtain ⟨d, hfunctions, hcomments, hfits, hlines⟩ := p.exists_document
  have hend : Scans (0 + bytes (lineChars d.lines)) [] [] := .nil
  obtain ⟨ls, ⟨d', hscanned, hplain⟩, hscans⟩ :=
    Document.lays (hfunctions ▸ h.functions) (hcomments ▸ h.comments) hend
  rw [List.append_nil, List.append_nil, hlines, ← toList_render] at hscans
  have hfits' : d'.Fits := Document.fits_plain.1 (hplain ▸ Document.fits_plain.2 hfits)
  have hlines' : d'.lines = p.lines := by
    rw [← Document.lines_plain, hplain, Document.lines_plain, hlines]
  have htrivia := Lexed.trivia_ofLexemes ls p.render.utf8ByteSize
  refine ⟨⟨d'.functions, ⟨Lexed.commentsOf false ls, Lexed.blankLinesOf false ls⟩⟩, ?_, ⟨?_, ?_⟩,
    (hscanned.lines hscans.arranged hfits').trans hlines'⟩
  · rw [parse, lex_eq_ok.2 ⟨ls, hscans, rfl⟩]
    refine Lexed.parse_eq_ok.2 ⟨?_, htrivia.symm⟩
    rw [Lexed.tokens_ofLexemes]
    exact hscanned.readsFunctions
  · rw [← Document.functions_plain, hplain, Document.functions_plain, hfunctions]
  · have htexts (cs : List (Comment String)) :
        cs.map Comment.text = (cs.map Comment.plain).map Comment.text := by
      rw [List.map_map]
      rfl
    show (Lexed.commentsOf false ls).map Comment.text = _
    rw [hscanned.comments, htexts, ← Document.comments_plain, hplain, Document.comments_plain,
      ← htexts, hcomments]

end Program

/-- Comments of a source text are spelled as such. -/
theorem Program.printable_of_parse {source : String} {tree : SourceProgram}
    (h : parse source = .ok tree) : tree.Printable where
  functions := Recast.printable_of_parse h
  comments := by
    obtain ⟨lexed, hl, hp⟩ := parse_eq_ok.1 h
    obtain ⟨ls, hscans, rfl⟩ := lex_eq_ok.1 hl
    rw [(Lexed.parse_eq_ok.1 hp).2, Lexed.trivia_ofLexemes]
    exact fun c hc => (hscans.aligned.spelled _ (Lexed.lexeme_mem_of_mem_commentsOf hc)).1

/-! ### Layouts of programs with other tags -/

theorem Stmt.text_retag (g : α → β) (s : Stmt ε α) : (s.retag g).text = s.text := by
  rw [← Stmt.text_bare, Stmt.bare_retag, Stmt.text_bare]

theorem Function.header_retag (g : α → β) (f : Function ε α) : (f.retag g).header = f.header := by
  rw [← Function.header_bare, Function.bare_retag, Function.header_bare]

section Retag

variable [Spanned α] [Spanned β] {g : α → β} (hg : ∀ tag, Spanned.span (g tag) = Spanned.span tag)
include hg

theorem Layout.stmts_retag (trivia : Trivia String) (close : Nat) (ss : List (Stmt ε α)) :
    ∀ l : Layout, l.stmts trivia close (ss.map (Stmt.retag g)) = l.stmts trivia close ss := by
  induction ss with
  | nil => exact fun _ => rfl
  | cons s ss ih =>
    intro l
    have hnext : ((ss.map (Stmt.retag g)).head?.map Stmt.span) = ss.head?.map Stmt.span := by
      cases ss <;> simp [Stmt.span_retag hg]
    rw [List.map_cons, stmts, stmts, ih, hnext, Stmt.span_retag hg, Stmt.text_retag]

theorem Layout.function_retag (trivia : Trivia String) (next? : Option Nat) (l : Layout)
    (f : Function ε α) : l.function trivia next? (f.retag g) = l.function trivia next? f := by
  have hbody : (f.retag g).body = f.body.map (Stmt.retag g) := rfl
  have hfirst : ((f.body.map (Stmt.retag g)).head?.map Stmt.span) = f.body.head?.map Stmt.span := by
    cases f.body <;> simp [Stmt.span_retag hg]
  simp only [function, hbody, hfirst, Function.span_retag hg, Function.header_retag,
    stmts_retag hg]

theorem Layout.functions_retag (trivia : Trivia String) (last? : Option Nat)
    (fs : List (Function ε α)) : ∀ l : Layout,
      l.functions trivia last? (fs.map (Function.retag g)) = l.functions trivia last? fs := by
  induction fs with
  | nil => exact fun _ => rfl
  | cons f fs ih =>
    intro l
    have hnext : ((fs.map (Function.retag g)).head?.map Function.span)
        = fs.head?.map Function.span := by
      cases fs <;> simp [Function.span_retag hg]
    rw [List.map_cons, functions, functions, ih, hnext, function_retag hg]

end Retag

namespace Stored

variable {source : String} {tree : SourceProgram} {p : PlacedProgram}

/-- A stored program is laid out as the tree that it was made of. -/
theorem lines (h : Stored tree p) : p.lines = tree.lines := by
  have hp := Layout.functions_retag (g := Placed.span) (fun _ => rfl) p.trivia none p.functions
    (.start p.trivia.comments)
  have ht := Layout.functions_retag (g := id) (fun _ => rfl) tree.trivia none tree.functions
    (.start tree.trivia.comments)
  unfold Program.lines Program.linesBefore
  rw [← hp, ← ht, h.functions, h.trivia]

theorem sameText (h : Stored tree p) : p.SameText tree where
  functions := by
    have := congrArg (List.map Function.bare) h.functions
    simpa [Function.comp_def] using this
  comments := by rw [h.trivia]

theorem printableProgram (h : Stored tree p) (hp : parse source = .ok tree) : p.Printable where
  functions := h.printable hp
  comments := h.trivia ▸ (Program.printable_of_parse hp).comments

end Stored

end Recast
