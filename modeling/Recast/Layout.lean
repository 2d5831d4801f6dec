import Recast.Tree.Text

/-!
# Layout

`Program.lines` lays a program out in one canonical way: one statement a line behind a tab, a blank
line between functions. Comments come back where they were, on a line of their own before what
follows them or at the end of the line that they trail; a blank line between two statements or
comments of the source is kept as one blank line. `Program.render` is the text.

The layout walks the tree in order and keeps the comments that are still to be placed. A comment
goes out before the first item that starts after it.
-/

namespace Recast

/-- One line of laid out source text. -/
structure Line where
  /-- The line starts with a tab. -/
  indented : Bool
  /-- The code on the line, or the comment if it stands alone. -/
  code : String
  /-- The comment after the code. -/
  trailing? : Option String
deriving DecidableEq, Repr

namespace Line

/-- The empty line. -/
def blank : Line := ⟨false, "", none⟩

/-- The line as text, with its newline. -/
def text (l : Line) : String :=
  (if l.indented then "\t" else "") ++ l.code
    ++ (match l.trailing? with
      | some comment => " " ++ comment
      | none => "")
    ++ "\n"

end Line

/-- Progress of a layout. -/
structure Layout where
  /-- The comments that are not placed yet. -/
  pending : List (Comment String)
  /-- Where the last statement, function or comment that was laid out stops. -/
  lastStop : Nat
  /-- Something was laid out in the current block. -/
  started : Bool
  /-- A blank line comes before the next item whatever the source had. -/
  forceBlank : Bool
  lines : Array Line

namespace Layout

/-- The layout before the first line. -/
def start (comments : List (Comment String)) : Layout := ⟨comments, 0, false, false, #[]⟩

/-- Adds a line. -/
def push (l : Layout) (line : Line) : Layout := { l with lines := l.lines.push line }

/-- Starts an item that stands at `pos`, after a blank line if the source had one there. -/
def separate (trivia : Trivia String) (pos : Nat) (l : Layout) : Layout :=
  let blank := l.started && trivia.hasBlankLineBetween l.lastStop pos
  let l := if l.forceBlank || blank then l.push .blank else l
  { l with forceBlank := false, started := true }

/-- Lays out a comment on a line of its own. -/
def ownLine (trivia : Trivia String) (indented : Bool) (l : Layout) (c : Comment String) : Layout :=
  let l := (l.separate trivia c.span.start).push ⟨indented, c.text, none⟩
  { l with lastStop := c.span.stop }

/-- Whether a comment starts before a limit, if there is one. -/
def startsBefore (limit? : Option Nat) (c : Comment String) : Bool :=
  limit?.all fun limit => c.span.start < limit

/-- Lays out the pending comments that start before a limit. -/
def commentsBefore (trivia : Trivia String) (limit? : Option Nat) (indented : Bool) (l : Layout) :
    Layout :=
  let rest := l.pending.dropWhile (startsBefore limit?)
  let l' := (l.pending.takeWhile (startsBefore limit?)).foldl (ownLine trivia indented) l
  { l' with pending := rest }

/-- Lays out a line of code, with the next comment if that trailed code and starts before a limit.
-/
def codeLine (indented : Bool) (code : String) (limit? : Option Nat) (l : Layout) : Layout :=
  match l.pending with
  | c :: rest =>
    if c.trailing && startsBefore limit? c then
      let l := l.push ⟨indented, code, some c.text⟩
      { l with pending := rest, lastStop := c.span.stop }
    else l.push ⟨indented, code, none⟩
  | [] => l.push ⟨indented, code, none⟩

variable {ε α : Type} [Spanned α]

/-- Lays out statements up to `close`, where the closing brace of their block stands. -/
def stmts (trivia : Trivia String) (close : Nat) (l : Layout) : List (Stmt ε α) → Layout
  | [] => l
  | s :: rest =>
    let next := (rest.head?.map Stmt.span).elim close Span.start
    let l := (l.commentsBefore trivia (some s.span.start) true).separate trivia s.span.start
    let l := { l with lastStop := s.span.stop }.codeLine true s.text (some next)
    l.stmts trivia close rest

/-- Lays out a function; `next?` is where the following one starts. -/
def function (trivia : Trivia String) (next? : Option Nat) (l : Layout) (f : Function ε α) :
    Layout :=
  let close := f.span.stop - 1
  let first := (f.body.head?.map Stmt.span).elim close Span.start
  let l := (l.commentsBefore trivia (some f.span.start) false).separate trivia f.span.start
  let l := l.codeLine false f.header (some first)
  let l := { l with started := false }.stmts trivia close f.body
  let l := l.commentsBefore trivia (some close) true
  let l := { l with lastStop := f.span.stop }.codeLine false "\x7d" next?
  { l with forceBlank := true }

/-- Lays out functions and the comments after them; comments from `last?` on are left out. -/
def functions (trivia : Trivia String) (last? : Option Nat) (l : Layout) :
    List (Function ε α) → Layout
  | [] => l.commentsBefore trivia last? false
  | f :: rest =>
    let next? := (rest.head?.map Function.span).elim last? fun span => some span.start
    (l.function trivia next? f).functions trivia last? rest

end Layout

variable {ε α : Type} [Spanned α]

namespace Program

/-- The lines of a program in canonical layout; comments that start at `last?` or later are left
out. -/
def linesBefore (last? : Option Nat) (p : Program ε α) : List Line :=
  ((Layout.start p.trivia.comments).functions p.trivia last? p.functions).lines.toList

/-- The text of a program in canonical layout without comments that start at `last?` or later. -/
def renderBefore (last? : Option Nat) (p : Program ε α) : String :=
  (p.linesBefore last?).foldl (fun text line => text ++ line.text) ""

/-- The lines of a program in canonical layout. -/
def lines (p : Program ε α) : List Line := p.linesBefore none

/-- The text of a program in canonical layout. -/
def render (p : Program ε α) : String := p.renderBefore none

end Program

end Recast
