import Recast.Span

/-!
# Diagnostics

A diagnostic is what a type checker reports: a message and the piece of source text that it is
about.
-/

namespace Recast

/-- A message about a piece of source text. -/
structure Diagnostic where
  message : String
  span : Span
deriving DecidableEq, Repr

namespace Diagnostic

/-- The byte offset at which the diagnostic is reported. -/
def pos (d : Diagnostic) : Nat := d.span.start

/-- The diagnostic as one text, position first. -/
def text (d : Diagnostic) : String := toString d.pos ++ ": " ++ d.message

end Diagnostic

end Recast
