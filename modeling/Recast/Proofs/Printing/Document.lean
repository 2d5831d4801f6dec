import Mathlib.Data.List.TakeWhile
import Recast.Layout

/-!
# Documents

A document is what a layout puts on lines: code with the comments before it and at the end of its
line, and blank lines between. The layout of a program is always the lines of some document; what
the positions in the source decide is only where the comments go and where blank lines are.
-/

namespace Recast

/-- A comment on a line of its own. -/
structure Note where
  /-- A blank line comes before the comment. -/
  blank : Bool
  comment : Comment String

/-- A line of code with the comments before it. -/
structure Entry (γ : Type) where
  notes : List Note
  /-- A blank line comes before the code. -/
  blank : Bool
  code : γ
  /-- The comment at the end of the line. -/
  trailing? : Option (Comment String)

/-- A function on lines. -/
structure Block (ε α : Type) where
  /-- The first line of the function. -/
  header : Entry (Function ε α)
  body : List (Entry (Stmt ε α))
  /-- The comments before the closing brace. -/
  notes : List Note
  /-- The comment after the closing brace. -/
  closing? : Option (Comment String)
  complete : body.map Entry.code = header.code.body

/-- A program on lines. -/
structure Document (ε α : Type) where
  blocks : List (Block ε α)
  /-- The comments after the last function. -/
  notes : List Note

variable {ε α γ : Type}

/-! ### Lines, comments and blank lines -/

/-- One blank line or none. -/
def blankLines (blank : Bool) : List Line := if blank then [.blank] else []

/-- The lines of a comment of its own. -/
def Note.lines (indented : Bool) (n : Note) : List Line :=
  blankLines n.blank ++ [⟨indented, n.comment.text, none⟩]

namespace Entry

/-- The lines of some code. -/
def lines (indented : Bool) (text : γ → String) (e : Entry γ) : List Line :=
  e.notes.flatMap (Note.lines indented) ++ blankLines e.blank
    ++ [⟨indented, text e.code, e.trailing?.map Comment.text⟩]

/-- The comments with some code. -/
def comments (e : Entry γ) : List (Comment String) :=
  e.notes.map Note.comment ++ e.trailing?.toList

/-- Whether blank lines come before the comments and before the code. -/
def blanks (e : Entry γ) : List Bool := e.notes.map Note.blank ++ [e.blank]

end Entry

namespace Block

/-- The lines of a function. -/
def lines (b : Block ε α) : List Line :=
  b.header.lines false Function.header
    ++ (b.body.flatMap (Entry.lines true Stmt.text) ++ b.notes.flatMap (Note.lines true)
      ++ [⟨false, "\x7d", b.closing?.map Comment.text⟩])

/-- The comments with a function. -/
def comments (b : Block ε α) : List (Comment String) :=
  b.header.comments
    ++ (b.body.flatMap Entry.comments ++ b.notes.map Note.comment ++ b.closing?.toList)

/-- Whether blank lines come before the comments and statements in a function. -/
def blanks (b : Block ε α) : List Bool :=
  b.body.flatMap Entry.blanks ++ b.notes.map Note.blank

/-- A blank line comes first just when it has to, and none inside. -/
structure Fits (force : Bool) (b : Block ε α) : Prop where
  before : ∀ blank ∈ b.header.blanks.head?, blank = force
  inside : ∀ blank ∈ b.blanks.head?, blank = false

end Block

namespace Document

/-- The lines of a document. -/
def lines (d : Document ε α) : List Line :=
  d.blocks.flatMap Block.lines ++ d.notes.flatMap (Note.lines false)

/-- The comments of a document. -/
def comments (d : Document ε α) : List (Comment String) :=
  d.blocks.flatMap Block.comments ++ d.notes.map Note.comment

/-- The functions of a document. -/
def functions (d : Document ε α) : List (Function ε α) := d.blocks.map fun b => b.header.code

/-- Blank lines come before what is laid out first just when they have to. -/
def FitsFrom : (force : Bool) → List (Block ε α) → List Note → Prop
  | force, [], notes => ∀ blank ∈ (notes.map Note.blank).head?, blank = force
  | force, b :: bs, notes => b.Fits force ∧ FitsFrom true bs notes

/-- No blank line comes first, and one comes after each function. -/
def Fits (d : Document ε α) : Prop := FitsFrom false d.blocks d.notes

end Document

/-! ### What steps of a layout add -/

namespace Layout

/-- The second layout has more lines than the first one and fewer comments to place. Of the lines
that may come after a blank line, `blanks` says whether they do. -/
structure Adds (l l' : Layout) (lines : List Line) (blanks : List Bool)
    (comments : List (Comment String)) : Prop where
  lines : l'.lines.toList = l.lines.toList ++ lines
  pending : l.pending = comments ++ l'.pending
  first : ∀ blank ∈ blanks.head?, blank = (l.forceBlank || (l.started && blank))
  unchanged : blanks = [] → l'.started = l.started ∧ l'.forceBlank = l.forceBlank
  changed : blanks ≠ [] → l'.started = true ∧ l'.forceBlank = false

variable {l l' l'' : Layout} {xs ys : List Line} {bs cs : List Bool} {us vs : List (Comment String)}

theorem Adds.trans (h : l.Adds l' xs bs us) (h' : l'.Adds l'' ys cs vs) :
    l.Adds l'' (xs ++ ys) (bs ++ cs) (us ++ vs) where
  lines := by rw [h'.lines, h.lines, List.append_assoc]
  pending := by rw [h.pending, h'.pending, List.append_assoc]
  first := by
    cases bs with
    | nil =>
      obtain ⟨hs, hf⟩ := h.unchanged rfl
      rw [← hs, ← hf]
      exact h'.first
    | cons b bs => exact h.first
  unchanged hnil := by
    obtain ⟨rfl, rfl⟩ := List.append_eq_nil_iff.1 hnil
    obtain ⟨hs, hf⟩ := h'.unchanged rfl
    exact ⟨hs.trans (h.unchanged rfl).1, hf.trans (h.unchanged rfl).2⟩
  changed hne := by
    by_cases hc : cs = []
    · obtain ⟨hs, hf⟩ := h'.unchanged hc
      rw [hs, hf]
      refine h.changed fun hb => hne ?_
      rw [hb, hc]
      rfl
    · exact h'.changed hc

/-- Where nothing was laid out before, a blank line comes first just when one has to. -/
theorem Adds.first_eq (h : l.Adds l' xs bs us) {force : Bool} (hforce : l.forceBlank = force)
    (hstarted : force = false → l.started = false) : ∀ blank ∈ bs.head?, blank = force := by
  intro blank hb
  rw [h.first blank hb, hforce]
  cases force with
  | true => rfl
  | false => rw [hstarted rfl]; rfl

theorem Adds.refl (l : Layout) : l.Adds l [] [] [] :=
  ⟨by simp, rfl, by simp, fun _ => ⟨rfl, rfl⟩, fun h => absurd rfl h⟩

theorem adds_push (l : Layout) (line : Line) : l.Adds (l.push line) [line] [] [] :=
  ⟨by simp [push], rfl, by simp, fun _ => ⟨rfl, rfl⟩, fun h => absurd rfl h⟩

theorem adds_lastStop (l : Layout) (pos : Nat) : l.Adds { l with lastStop := pos } [] [] [] :=
  ⟨by simp, rfl, by simp, fun _ => ⟨rfl, rfl⟩, fun h => absurd rfl h⟩

/-- Whether a blank line comes before what is laid out next. -/
def blankBefore (trivia : Trivia String) (pos : Nat) (l : Layout) : Bool :=
  l.forceBlank || (l.started && trivia.hasBlankLineBetween l.lastStop pos)

theorem lines_separate (trivia : Trivia String) (pos : Nat) (l : Layout) :
    (l.separate trivia pos).lines.toList
      = l.lines.toList ++ blankLines (l.blankBefore trivia pos) := by
  unfold separate blankLines
  cases h : l.blankBefore trivia pos <;> rw [blankBefore] at h <;> simp [h, push]

theorem pending_separate (trivia : Trivia String) (pos : Nat) (l : Layout) :
    (l.separate trivia pos).pending = l.pending := by
  unfold separate push
  dsimp only
  split <;> rfl

theorem adds_separate (trivia : Trivia String) (pos : Nat) (l : Layout) :
    l.Adds (l.separate trivia pos) (blankLines (l.blankBefore trivia pos))
      [l.blankBefore trivia pos] [] := by
  refine ⟨lines_separate trivia pos l, (pending_separate trivia pos l).symm, ?_, nofun,
    fun _ => ⟨rfl, rfl⟩⟩
  rintro blank ⟨⟩
  unfold blankBefore
  cases l.forceBlank <;> cases l.started <;> simp

theorem adds_ownLine (trivia : Trivia String) (indented : Bool) (l : Layout) {n : Note}
    (h : n.blank = l.blankBefore trivia n.comment.span.start) :
    l.Adds (l.ownLine trivia indented n.comment) (n.lines indented) [n.blank] [] := by
  have := ((adds_separate trivia n.comment.span.start l).trans
    (adds_push _ ⟨indented, n.comment.text, none⟩)).trans (adds_lastStop _ n.comment.span.stop)
  rw [← h] at this
  simp only [List.append_nil] at this
  exact this

theorem adds_foldl_ownLine (trivia : Trivia String) (indented : Bool) (us : List (Comment String)) :
    ∀ l : Layout, ∃ notes : List Note, notes.map Note.comment = us ∧
      l.Adds (us.foldl (ownLine trivia indented) l) (notes.flatMap (Note.lines indented))
        (notes.map Note.blank) [] := by
  induction us with
  | nil => exact fun l => ⟨[], rfl, .refl l⟩
  | cons c us ih =>
    intro l
    obtain ⟨notes, rfl, hnotes⟩ := ih (l.ownLine trivia indented c)
    let n : Note := ⟨l.blankBefore trivia c.span.start, c⟩
    exact ⟨n :: notes, rfl, (l.adds_ownLine trivia indented (n := n) rfl).trans hnotes⟩

theorem adds_commentsBefore (trivia : Trivia String) (limit? : Option Nat) (indented : Bool)
    (l : Layout) : ∃ notes : List Note,
      l.Adds (l.commentsBefore trivia limit? indented) (notes.flatMap (Note.lines indented))
        (notes.map Note.blank) (notes.map Note.comment) := by
  obtain ⟨notes, hc, h⟩ :=
    adds_foldl_ownLine trivia indented (l.pending.takeWhile (startsBefore limit?)) l
  refine ⟨notes, h.lines, ?_, h.first, h.unchanged, h.changed⟩
  rw [hc]
  exact List.takeWhile_append_dropWhile.symm

/-- The comment that goes to the end of a line of code. -/
def trailing? (limit? : Option Nat) (l : Layout) : Option (Comment String) :=
  l.pending.head?.filter fun c => c.trailing && startsBefore limit? c

theorem adds_codeLine (indented : Bool) (code : String) (limit? : Option Nat) (l : Layout) :
    l.Adds (l.codeLine indented code limit?)
      [⟨indented, code, (l.trailing? limit?).map Comment.text⟩] [] (l.trailing? limit?).toList := by
  unfold codeLine trailing?
  split
  · rename_i c rest hp
    rw [hp, List.head?_cons, Option.filter_some]
    split
    · exact ⟨by simp [push], hp, by simp, fun _ => ⟨rfl, rfl⟩, fun h => absurd rfl h⟩
    · exact adds_push l _
  · rename_i hp
    rw [hp]
    exact adds_push l _

variable [Spanned α]

theorem adds_stmts (trivia : Trivia String) (close : Nat) (ss : List (Stmt ε α)) :
    ∀ l : Layout, ∃ entries : List (Entry (Stmt ε α)), entries.map Entry.code = ss ∧
      l.Adds (l.stmts trivia close ss) (entries.flatMap (Entry.lines true Stmt.text))
        (entries.flatMap Entry.blanks) (entries.flatMap Entry.comments) := by
  induction ss with
  | nil => exact fun l => ⟨[], rfl, .refl l⟩
  | cons s ss ih =>
    intro l
    let l₁ := l.commentsBefore trivia (some s.span.start) true
    let l₂ : Layout := { l₁.separate trivia s.span.start with lastStop := s.span.stop }
    let next := some ((ss.head?.map Stmt.span).elim close Span.start)
    obtain ⟨notes, hnotes⟩ := l.adds_commentsBefore trivia (some s.span.start) true
    have hcode := (hnotes.trans (adds_separate trivia s.span.start l₁)).trans
      (adds_lastStop _ s.span.stop)
    have hline := hcode.trans (adds_codeLine true s.text next l₂)
    obtain ⟨entries, hentries, hrest⟩ := ih (l₂.codeLine true s.text next)
    refine ⟨⟨notes, l₁.blankBefore trivia s.span.start, s, l₂.trailing? next⟩ :: entries,
      congrArg (s :: ·) hentries, ?_⟩
    have := hline.trans hrest
    simp only [List.append_nil] at this
    simpa [Entry.lines, Entry.blanks, Entry.comments, stmts, l₁, l₂, next] using this

/-- What laying out a function adds, and which blank lines. -/
theorem exists_block (trivia : Trivia String) (next? : Option Nat) (l : Layout)
    (f : Function ε α) {force : Bool} (hforce : l.forceBlank = force)
    (hstarted : force = false → l.started = false) :
    ∃ b : Block ε α, b.header.code = f ∧ b.Fits force ∧
      (l.function trivia next? f).lines.toList = l.lines.toList ++ b.lines ∧
      l.pending = b.comments ++ (l.function trivia next? f).pending ∧
      (l.function trivia next? f).forceBlank = true := by
  unfold function
  dsimp only
  let l₁ := l.commentsBefore trivia (some f.span.start) false
  let first := some ((f.body.head?.map Stmt.span).elim (f.span.stop - 1) Span.start)
  obtain ⟨notes, hnotes⟩ := l.adds_commentsBefore trivia (some f.span.start) false
  have hheader := (hnotes.trans (adds_separate trivia f.span.start l₁)).trans
    (adds_codeLine false f.header first (l₁.separate trivia f.span.start))
  generalize Layout.codeLine false f.header _ _ = l₂ at hheader ⊢
  obtain ⟨entries, hentries, hbody⟩ :=
    adds_stmts trivia (f.span.stop - 1) f.body { l₂ with started := false }
  obtain ⟨after, hafter⟩ := adds_commentsBefore trivia (some (f.span.stop - 1)) true
    (stmts trivia (f.span.stop - 1) { l₂ with started := false } f.body)
  have hinside := (hbody.trans hafter).trans (adds_lastStop _ f.span.stop)
  generalize ({ commentsBefore trivia _ true (stmts trivia _ _ f.body) with
    lastStop := f.span.stop } : Layout) = l₃ at hinside ⊢
  have hinside := hinside.trans (adds_codeLine false "\x7d" next? l₃)
  refine ⟨⟨⟨notes, l₁.blankBefore trivia f.span.start, f, (l₁.separate trivia f.span.start).trailing?
    first⟩, entries, after, l₃.trailing? next?, hentries⟩, rfl, ⟨?_, ?_⟩, ?_, ?_, rfl⟩
  · rw [List.append_nil] at hheader
    exact hheader.first_eq hforce hstarted
  · have hfresh : l₂.forceBlank = false := (hheader.changed (by simp)).2
    simpa [Block.blanks] using hinside.first_eq hfresh fun _ => rfl
  · simp [hinside.lines, hheader.lines, Block.lines, Entry.lines]
  · refine (hheader.pending.trans (congrArg (_ ++ ·) hinside.pending)).trans ?_
    simp only [Block.comments, Entry.comments, List.append_nil, List.append_assoc]

/-- What laying out functions and the comments after them adds. -/
theorem exists_blocks (trivia : Trivia String) (fs : List (Function ε α)) :
    ∀ {l : Layout} {force : Bool}, l.forceBlank = force → (force = false → l.started = false) →
      ∃ (bs : List (Block ε α)) (notes : List Note), bs.map (fun b => b.header.code) = fs ∧
        Document.FitsFrom force bs notes ∧
        (l.functions trivia none fs).lines.toList
          = l.lines.toList ++ (bs.flatMap Block.lines ++ notes.flatMap (Note.lines false)) ∧
        l.pending = bs.flatMap Block.comments ++ notes.map Note.comment := by
  induction fs with
  | nil =>
    intro l force hforce hstarted
    obtain ⟨notes, h⟩ := l.adds_commentsBefore trivia none false
    refine ⟨[], notes, rfl, h.first_eq hforce hstarted, h.lines, ?_⟩
    have hrest : (l.commentsBefore trivia none false).pending = [] :=
      List.dropWhile_eq_nil_iff.2 fun _ _ => rfl
    simpa [hrest] using h.pending
  | cons f fs ih =>
    intro l force hforce hstarted
    obtain ⟨b, hcode, hfits, hlines, hpending, hafter⟩ :=
      l.exists_block trivia ((fs.head?.map Function.span).elim none fun span => some span.start) f
        hforce hstarted
    obtain ⟨bs, notes, hcodes, hrest, hlines', hpending'⟩ := ih hafter nofun
    refine ⟨b :: bs, notes, by rw [List.map_cons, hcode, hcodes], ⟨hfits, hrest⟩, ?_, ?_⟩
    · rw [functions, hlines', hlines]
      simp
    · rw [hpending, hpending']
      simp

end Layout

/-- The layout of a program is the lines of a document. -/
theorem Program.exists_document [Spanned α] (p : Program ε α) : ∃ d : Document ε α,
    d.functions = p.functions ∧ d.comments = p.trivia.comments ∧ d.Fits ∧ d.lines = p.lines := by
  obtain ⟨bs, notes, hcodes, hfits, hlines, hpending⟩ :=
    Layout.exists_blocks p.trivia p.functions (l := .start p.trivia.comments) rfl fun _ => rfl
  refine ⟨⟨bs, notes⟩, hcodes, hpending.symm, hfits, ?_⟩
  rw [Program.lines, Program.linesBefore, hlines]
  rfl

end Recast
