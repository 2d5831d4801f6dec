import Mathlib.Data.List.Basic
import Recast.Proofs.Printing.RoundTrip

/-!
# Other code at the same places

A layout looks at where code stands, not at what it says. If the functions and statements of two
programs stand at the same places, the lines of one are the lines of the other with other code on
them.
-/

namespace Recast

open Lexer (Spells)

variable {ε α δ β : Type}

/-! ### Code and comments -/

/-- The text starts, and not as a comment does. -/
def startsCode (text : String) : Bool := text.toList.head?.any (· != '/')

theorem startsCode_iff {text : String} :
    startsCode text = true ↔ ∃ c rest, text.toList = c :: rest ∧ c ≠ '/' := by
  rw [startsCode]
  cases text.toList <;> simp

theorem startsCode_append {s : String} (t : String) (h : startsCode s = true) :
    startsCode (s ++ t) = true := by
  obtain ⟨c, rest, hs, hc⟩ := startsCode_iff.1 h
  refine startsCode_iff.2 ⟨c, rest ++ t.toList, ?_, hc⟩
  rw [String.toList_append, hs, List.cons_append]

theorem startsCode_comment {text : String} (h : Spells .comment text.toList) :
    startsCode text = false := by
  obtain ⟨c, rest, htext, hm⟩ := h
  obtain ⟨rfl, -⟩ := Lexer.munch_comment hm
  rw [startsCode, htext]
  rfl

/-- Texts of characters that are no slashes start as code does. -/
theorem startsCode_spells {kind : LexemeKind} {text : String} (h : Spells kind text.toList)
    (hslash : '/' ∉ text.toList) : startsCode text = true := by
  obtain ⟨c, rest, htext, -⟩ := h
  refine startsCode_iff.2 ⟨c, rest, htext, ?_⟩
  rintro rfl
  rw [htext] at hslash
  exact hslash List.mem_cons_self

theorem startsCode_listText (es : List (Expr ε α)) : ∀ {written : String} (separator : String),
    startsCode written = true → startsCode (Expr.listText written separator es) = true := by
  induction es with
  | nil => exact fun _ h => h
  | cons e es ih =>
    intro written separator h
    exact ih ", " (startsCode_append _ (startsCode_append _ h))

theorem Expr.Printable.startsCode {m : Nat} {e : Expr ε α} (h : e.Printable m) :
    startsCode e.text = true := by
  induction e using Expr.inductArgs generalizing m with
  | hole => cases h
  | literal _ kind lexeme => exact startsCode_spells h fun hm => nomatch h.isNumberChar _ hm
  | name _ text => exact startsCode_spells h fun hm => nomatch Spells.isWordChar h _ hm
  | paren => exact startsCode_append _ (startsCode_append _ rfl)
  | neg => exact startsCode_append _ rfl
  | binary _ op left right ihl =>
    have hleft : Recast.startsCode left.text = true := ihl h.2.1
    rw [Expr.text]
    iterate 4 apply startsCode_append
    exact hleft
  | call _ callee args ihc =>
    exact startsCode_append _ (startsCode_listText args "" (startsCode_append _ (ihc h.1)))

theorem PrintableList.startsCode {es : List (Expr ε α)} (h : PrintableList es) (hne : es ≠ []) :
    Recast.startsCode (Expr.commaText es) = true := by
  cases es with
  | nil => exact absurd rfl hne
  | cons e es =>
    have hfirst : Expr.commaText (e :: es) = Expr.listText e.text ", " es := by
      rw [Expr.commaText, Expr.listText, String.empty_append, String.empty_append]
    rw [hfirst]
    exact startsCode_listText es _ (h.printable e List.mem_cons_self).startsCode

theorem Stmt.Printable.startsCode {s : Stmt ε α} (h : s.Printable) :
    Recast.startsCode s.text = true := by
  cases s with
  | hole => cases h
  | var => exact startsCode_append _ (startsCode_append _ (startsCode_append _ rfl))
  | assign => exact startsCode_append _ (startsCode_append _ (h.1.2.startsCode h.1.1))
  | ret =>
    rw [Stmt.text]
    split
    · rfl
    · exact startsCode_append _ rfl
  | expr => exact Expr.Printable.startsCode h

theorem Function.startsCode_header (f : Function ε α) : startsCode f.header = true := by
  rw [Function.header]
  iterate 6 apply startsCode_append
  rfl

/-! ### Lines with other code -/

/-- The line has code on it, rather than a comment alone or nothing. -/
def Line.isCode (l : Line) : Bool := startsCode l.code

/-- The lines, with other code on those that have code. -/
def recode : List Line → (codes : List String) → List Line
  | [], _ => []
  | l :: ls, codes =>
    if l.isCode then { l with code := codes.headD "" } :: recode ls codes.tail
    else l :: recode ls codes

theorem recode_append {ls : List Line} {codes : List String}
    (h : codes.length = ls.countP Line.isCode) (ls' : List Line) (codes' : List String) :
    recode (ls ++ ls') (codes ++ codes') = recode ls codes ++ recode ls' codes' := by
  induction ls generalizing codes with
  | nil =>
    obtain rfl := List.eq_nil_of_length_eq_zero h
    rfl
  | cons l ls ih =>
    by_cases hcode : l.isCode
    · rw [List.countP_cons_of_pos hcode] at h
      obtain ⟨code, codes, rfl⟩ := List.exists_cons_of_length_eq_add_one h
      simp only [List.cons_append, recode, if_pos hcode, List.tail_cons, List.headD_cons,
        ih (Nat.succ.inj h)]
    · rw [List.countP_cons_of_neg hcode] at h
      simp only [List.cons_append, recode, if_neg hcode, ih h]

/-- The lines of code of a function. -/
def Function.codes (f : Function ε α) : List String :=
  f.header :: (f.body.map Stmt.text ++ ["\x7d"])

/-- The lines of code of a program. -/
def Program.codes (p : Program ε α) : List String := p.functions.flatMap Function.codes

theorem Function.codes_bare (f : Function ε α) : f.bare.codes = f.codes := by
  have hbody : f.bare.body.map Stmt.text = f.body.map Stmt.text := by
    show (f.body.map Stmt.bare).map Stmt.text = _
    rw [List.map_map]
    exact List.map_congr_left fun s _ => s.text_bare
  rw [codes, codes, Function.header_bare, hbody]

/-- Programs with the same functions have the same lines of code. -/
theorem Program.codes_eq {p : Program ε α} {q : Program δ β}
    (h : p.functions.map Function.bare = q.functions.map Function.bare) : p.codes = q.codes := by
  have hbare {ε α : Type} (fs : List (Function ε α)) :
      (fs.map Function.bare).flatMap Function.codes = fs.flatMap Function.codes := by
    rw [List.flatMap_map]
    exact List.flatMap_congr fun f _ => f.codes_bare
  rw [codes, ← hbare, h, hbare, codes]

/-- The functions and their statements stand at the same places. -/
structure Function.SamePlaces [Spanned α] [Spanned β] (f : Function ε α) (g : Function δ β) :
    Prop where
  span : g.span = f.span
  body : g.body.map Stmt.span = f.body.map Stmt.span

/-! ### Layouts -/

namespace Layout

/-- The layout `m` is as far as `l`, and its lines are those of `l` with the code `codes`. -/
structure Recodes (codes : List String) (l m : Layout) : Prop where
  rest : m = { l with lines := m.lines }
  counted : codes.length = l.lines.toList.countP Line.isCode
  lines : m.lines.toList = recode l.lines.toList codes
  comments : ∀ c ∈ l.pending, Spells .comment c.text.toList

namespace Recodes

variable {codes : List String} {l m : Layout}

theorem pending (h : Recodes codes l m) : m.pending = l.pending := by rw [h.rest]

/-- A line without code is the same in both layouts. -/
theorem push (h : Recodes codes l m) (line : Line) (hline : line.isCode = false) :
    Recodes codes (l.push line) (m.push line) where
  rest := by rw [h.rest]; rfl
  counted := by
    rw [Layout.push, Array.toList_push, List.countP_append, List.countP_singleton, hline]
    exact h.counted
  lines := by
    have happend := recode_append h.counted [line] []
    rw [List.append_nil, ← h.lines] at happend
    rw [Layout.push, Layout.push, Array.toList_push, Array.toList_push, happend, recode, hline]
    rfl
  comments := h.comments

/-- Two lines of code with the same comment after them. -/
theorem pushCode (h : Recodes codes l m) (line : Line) (hline : line.isCode = true)
    (code : String) :
    Recodes (codes ++ [code]) (l.push line) (m.push { line with code }) where
  rest := by rw [h.rest]; rfl
  counted := by
    rw [Layout.push, Array.toList_push, List.countP_append, List.countP_singleton, hline,
      List.length_append, h.counted]
    rfl
  lines := by
    rw [Layout.push, Layout.push, Array.toList_push, Array.toList_push, recode_append h.counted,
      ← h.lines, recode, if_pos hline]
    rfl
  comments := h.comments

/-- The layouts go on from another place. -/
theorem resume (h : Recodes codes l m) (lastStop : Nat) (started forceBlank : Bool)
    {comments : List (Comment String)} (hc : ∀ c ∈ comments, Spells .comment c.text.toList) :
    Recodes codes { l with pending := comments, lastStop, started, forceBlank }
      { m with pending := comments, lastStop, started, forceBlank } where
  rest := rfl
  counted := h.counted
  lines := h.lines
  comments := hc

theorem stop (h : Recodes codes l m) (pos : Nat) :
    Recodes codes { l with lastStop := pos } { m with lastStop := pos } := by
  rw [h.rest]
  exact h.resume pos _ _ h.comments

theorem startBlock (h : Recodes codes l m) :
    Recodes codes { l with started := false } { m with started := false } := by
  rw [h.rest]
  exact h.resume _ false _ h.comments

theorem endBlock (h : Recodes codes l m) :
    Recodes codes { l with forceBlank := true } { m with forceBlank := true } := by
  rw [h.rest]
  exact h.resume _ _ true h.comments

theorem separate (h : Recodes codes l m) (trivia : Trivia String) (pos : Nat) :
    Recodes codes (l.separate trivia pos) (m.separate trivia pos) := by
  have hsame : (m.forceBlank || m.started && trivia.hasBlankLineBetween m.lastStop pos)
      = (l.forceBlank || l.started && trivia.hasBlankLineBetween l.lastStop pos) := by
    rw [h.rest]
  unfold Layout.separate
  dsimp only
  rw [hsame]
  split
  · have hpush := h.push .blank rfl
    rw [hpush.rest]
    exact (hpush.resume _ _ _ h.comments)
  · rw [h.rest]
    exact (h.resume _ _ _ h.comments)

theorem ownLine (h : Recodes codes l m) (trivia : Trivia String) (indented : Bool)
    {c : Comment String} (hc : Spells .comment c.text.toList) :
    Recodes codes (l.ownLine trivia indented c) (m.ownLine trivia indented c) := by
  have hpush := (h.separate trivia c.span.start).push ⟨indented, c.text, none⟩
    (startsCode_comment hc)
  unfold Layout.ownLine
  dsimp only
  rw [hpush.rest]
  exact hpush.resume _ _ _ hpush.comments

theorem foldl_ownLine (trivia : Trivia String) (indented : Bool) (cs : List (Comment String)) :
    ∀ {l m : Layout}, Recodes codes l m → (∀ c ∈ cs, Spells .comment c.text.toList) →
      Recodes codes (cs.foldl (Layout.ownLine trivia indented) l)
        (cs.foldl (Layout.ownLine trivia indented) m) := by
  induction cs with
  | nil => exact fun h _ => h
  | cons c cs ih =>
    intro l m h hcs
    exact ih (h.ownLine trivia indented (hcs c List.mem_cons_self))
      fun c hc => hcs c (List.mem_cons_of_mem _ hc)

theorem commentsBefore (h : Recodes codes l m) (trivia : Trivia String) (limit? : Option Nat)
    (indented : Bool) :
    Recodes codes (l.commentsBefore trivia limit? indented)
      (m.commentsBefore trivia limit? indented) := by
  have hfold := foldl_ownLine trivia indented (l.pending.takeWhile (startsBefore limit?)) h
    fun c hc => h.comments c ((List.takeWhile_sublist _).subset hc)
  unfold Layout.commentsBefore
  dsimp only
  rw [h.pending, hfold.rest]
  exact hfold.resume _ _ _ fun c hc => h.comments c ((List.dropWhile_sublist _).subset hc)

/-- Code that is laid out in the place of other code. -/
theorem codeLine (h : Recodes codes l m) (indented : Bool) (code : String)
    (hcode : startsCode code = true) (code' : String) (limit? : Option Nat) :
    Recodes (codes ++ [code']) (l.codeLine indented code limit?)
      (m.codeLine indented code' limit?) := by
  have hpush (trailing? : Option String) :=
    h.pushCode ⟨indented, code, trailing?⟩ hcode code'
  unfold Layout.codeLine
  rw [h.pending]
  cases hp : l.pending with
  | nil => exact hpush none
  | cons c rest =>
    have hrest : ∀ c ∈ rest, Spells .comment c.text.toList := fun c hc =>
      h.comments c (hp ▸ List.mem_cons_of_mem _ hc)
    dsimp only
    split
    · rw [(hpush c.text).rest]
      exact (hpush c.text).resume _ _ _ hrest
    · exact hpush none

variable [Spanned α] [Spanned β]

/-- Statements at the same places. -/
theorem stmts (trivia : Trivia String) (close : Nat) (ss : List (Stmt ε α)) :
    ∀ {codes : List String} {l m : Layout} {ts : List (Stmt δ β)}, Recodes codes l m →
      (∀ s ∈ ss, s.Printable) → ts.map Stmt.span = ss.map Stmt.span →
        Recodes (codes ++ ts.map Stmt.text) (l.stmts trivia close ss)
          (m.stmts trivia close ts) := by
  induction ss with
  | nil =>
    intro codes l m ts h _ hspans
    obtain rfl := List.map_eq_nil_iff.1 hspans
    rw [List.map_nil, List.append_nil]
    exact h
  | cons s ss ih =>
    intro codes l m ts h hss hspans
    obtain ⟨t, ts, rfl, hspan, hspans⟩ := List.map_eq_cons_iff.1 hspans
    have hnext : ts.head?.map Stmt.span = ss.head?.map Stmt.span := by
      rw [← List.head?_map, hspans, List.head?_map]
    have hbefore := (h.commentsBefore trivia (some s.span.start) true).separate trivia s.span.start
    have hline := (hbefore.stop s.span.stop).codeLine true s.text
      (hss s List.mem_cons_self).startsCode t.text (some ((ss.head?.map Stmt.span).elim close Span.start))
    rw [Layout.stmts, Layout.stmts, hspan, hnext, List.map_cons, List.append_cons]
    exact ih hline (fun s hs => hss s (List.mem_cons_of_mem _ hs)) hspans

/-- A function with its statements at the same places. -/
theorem function (h : Recodes codes l m) (trivia : Trivia String) (next? : Option Nat)
    {f : Function ε α} {g : Function δ β} (hp : f.Printable) (hplaces : f.SamePlaces g) :
    Recodes (codes ++ g.codes) (l.function trivia next? f) (m.function trivia next? g) := by
  have hfirst : g.body.head?.map Stmt.span = f.body.head?.map Stmt.span := by
    rw [← List.head?_map, hplaces.body, List.head?_map]
  have hheader := ((h.commentsBefore trivia (some f.span.start) false).separate trivia
    f.span.start).codeLine false f.header f.startsCode_header g.header
      (some ((f.body.head?.map Stmt.span).elim (f.span.stop - 1) Span.start))
  have hstmts := hheader.startBlock.stmts trivia (f.span.stop - 1) f.body hp.body.2 hplaces.body
  have hclose := ((hstmts.commentsBefore trivia (some (f.span.stop - 1)) true).stop
    f.span.stop).codeLine false "\x7d" rfl "\x7d" next?
  have hcodes : codes ++ g.codes = codes ++ [g.header] ++ g.body.map Stmt.text ++ ["\x7d"] := by
    simp [Function.codes]
  unfold Layout.function
  dsimp only
  rw [hplaces.span, hfirst, hcodes]
  exact hclose.endBlock

/-- Functions at the same places. -/
theorem functions (trivia : Trivia String) (last? : Option Nat) {fs : List (Function ε α)}
    {gs : List (Function δ β)} (hplaces : List.Forall₂ Function.SamePlaces fs gs) :
    ∀ {codes : List String} {l m : Layout}, Recodes codes l m → (∀ f ∈ fs, f.Printable) →
      Recodes (codes ++ gs.flatMap Function.codes) (l.functions trivia last? fs)
        (m.functions trivia last? gs) := by
  induction hplaces with
  | nil =>
    intro codes l m h _
    rw [List.flatMap_nil, List.append_nil]
    exact h.commentsBefore trivia last? false
  | @cons f g fs gs hfirst hrest ih =>
    intro codes l m h hfs
    have hnext : gs.head?.map Function.span = fs.head?.map Function.span := by
      cases hrest with
      | nil => rfl
      | cons hsecond => exact congrArg some hsecond.span
    have hfunction := h.function trivia
      ((fs.head?.map Function.span).elim last? fun span => some span.start)
      (hfs f List.mem_cons_self) hfirst
    rw [Layout.functions, Layout.functions, hnext, List.flatMap_cons, ← List.append_assoc]
    exact ih hfunction fun f hf => hfs f (List.mem_cons_of_mem _ hf)

end Recodes

end Layout

/-- A program with its functions and statements where a printable program has them, and the same
comments, is laid out like that program. -/
theorem Program.lines_eq_recode [Spanned α] [Spanned β] {p : Program ε α} {q : Program δ β}
    (hp : p.Printable) (htrivia : q.trivia = p.trivia)
    (hplaces : List.Forall₂ Function.SamePlaces p.functions q.functions) :
    q.lines = recode p.lines q.codes := by
  have hstart : Layout.Recodes [] (.start p.trivia.comments) (.start p.trivia.comments) :=
    ⟨rfl, rfl, rfl, hp.comments⟩
  have hlines := (hstart.functions p.trivia none hplaces hp.functions).lines
  rw [List.nil_append] at hlines
  rw [lines, linesBefore, htrivia]
  exact hlines

end Recast
