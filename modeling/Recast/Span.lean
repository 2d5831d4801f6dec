/-!
# Source spans

A span is a half-open range of byte offsets into one source text. Offsets fit in 32 bits;
`Span.limit` is the largest one, and `Span.saturating` brings wider offsets back into range.
-/

namespace Recast

/-- Half-open byte range from `start` up to, not including, `stop`. -/
structure Span where
  start : Nat
  stop : Nat
deriving DecidableEq, Repr, Inhabited

/-- Values that occupy a range of the source text. -/
class Spanned (α : Type) where
  span : α → Span

instance : Spanned Span := ⟨id⟩

namespace Span

/-- The largest byte offset. -/
def limit : Nat := 4294967295

/-- The span between two offsets of any size, each capped at `limit`. -/
def saturating (start stop : Nat) : Span := ⟨min start limit, min stop limit⟩

/-- Number of bytes covered. -/
def length (s : Span) : Nat := s.stop - s.start

/-- A span is empty when it starts where it stops. -/
def isEmpty (s : Span) : Bool := s.start == s.stop

/-- Whether the byte at `pos` belongs to the span. -/
def contains (s : Span) (pos : Nat) : Bool := s.start ≤ pos && pos < s.stop

/-- The least span that covers both. -/
def merge (s t : Span) : Span := ⟨min s.start t.start, max s.stop t.stop⟩

/-- The range as text: both offsets with two dots between. -/
def text (s : Span) : String := toString s.start ++ ".." ++ toString s.stop

theorem contains_iff {s : Span} {pos : Nat} : s.contains pos ↔ s.start ≤ pos ∧ pos < s.stop := by
  simp [contains]

@[simp] theorem start_merge (s t : Span) : (s.merge t).start = min s.start t.start := rfl

@[simp] theorem stop_merge (s t : Span) : (s.merge t).stop = max s.stop t.stop := rfl

end Span

end Recast
