import Recast.Span

/-!
# Trivia

Comments and blank lines carry no meaning, so they are kept beside the tree. The layout puts both
back. The text of a comment has type `ν`: a string outside a store, an interned name inside one.
-/

namespace Recast

/-- A line comment. -/
structure Comment (ν : Type) where
  /-- The whole comment, both slashes included. -/
  text : ν
  span : Span
  /-- Something else stands before the comment on its line. -/
  trailing : Bool
deriving DecidableEq, Repr

/-- The comments of a source text and the positions of the newlines that end its blank lines. -/
structure Trivia (ν : Type) where
  comments : List (Comment ν)
  blankLines : List Nat
deriving DecidableEq, Repr

namespace Trivia

variable {ν : Type}

/-- No comments and no blank lines. -/
def none : Trivia ν := ⟨[], []⟩

/-- There is neither a comment nor a blank line. -/
def isEmpty (t : Trivia ν) : Bool := t.comments.isEmpty && t.blankLines.isEmpty

/-- A blank line lies strictly between two positions. -/
def hasBlankLineBetween (t : Trivia ν) (start stop : Nat) : Bool :=
  t.blankLines.any fun pos => start < pos && pos < stop

theorem hasBlankLineBetween_iff {t : Trivia ν} {start stop : Nat} :
    t.hasBlankLineBetween start stop ↔ ∃ pos ∈ t.blankLines, start < pos ∧ pos < stop := by
  simp [hasBlankLineBetween]

end Trivia

end Recast
