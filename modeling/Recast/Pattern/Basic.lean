/-!
# Text patterns

Patterns over characters with named groups, matched by preference: of all ways to match, the one
that starts leftmost counts, and among those the one that takes the first alternative, and as much
or as little as each repetition prefers.

`Pattern.run` tries the ways of matching at one place in that order and hands each to a continuation
until one is accepted.
-/

namespace Recast

/-- A set of characters: those in some of the ranges, or those in none. -/
structure CharSet where
  negated : Bool
  ranges : List (Char × Char)
deriving DecidableEq, Repr

namespace CharSet

/-- The set of one character. -/
def single (c : Char) : CharSet := ⟨false, [(c, c)]⟩

/-- Every character except the newline. -/
def any : CharSet := ⟨true, [('\n', '\n')]⟩

/-- Letters, digits and the underscore. -/
def word : CharSet := ⟨false, [('a', 'z'), ('A', 'Z'), ('0', '9'), ('_', '_')]⟩

/-- Whether the set has a character. -/
def contains (s : CharSet) (c : Char) : Bool :=
  s.ranges.any (fun (low, high) => low ≤ c && c ≤ high) != s.negated

end CharSet

/-- Text patterns. -/
inductive Pattern where
  /-- Matches the empty text. -/
  | empty
  /-- Matches one character of a set. -/
  | char (set : CharSet)
  /-- Matches the empty text at the very start. -/
  | atStart
  /-- Matches the empty text at the very end. -/
  | atEnd
  | seq (first second : Pattern)
  /-- Prefers the first alternative. -/
  | alt (first second : Pattern)
  /-- Matches any number of characters of a set, preferably many if greedy. -/
  | many (set : CharSet) (greedy : Bool)
  /-- Matches a pattern once or more, preferably often if greedy. -/
  | rounds (body : Pattern) (greedy : Bool)
  /-- Remembers what the body matched under a name. -/
  | group (name : String) (body : Pattern)
deriving Repr

namespace Pattern

/-- The names of all groups. -/
def names : Pattern → List String
  | empty | char _ | atStart | atEnd | many _ _ => []
  | seq p q | alt p q => p.names ++ q.names
  | rounds p _ => p.names
  | group name p => name :: p.names

/-- A place in a text: the number of characters before it, and those after it. -/
structure Cursor where
  index : Nat
  rest : List Char
deriving Repr

/-- What groups matched, as ranges of character indices; the latest match of a group counts. -/
abbrev Captures := List (String × Nat × Nat)

/-- What follows a match: accepts it with the final captures, or refuses it. -/
abbrev Continuation := Cursor → Captures → Option Captures

/-- The places reached by passing over characters of a set, farthest first. The places between the
start and `at` are in `nearer`, farthest first. -/
def reached (set : CharSet) (nearer : List Cursor) (index : Nat) : List Char → List Cursor
  | [] => ⟨index, []⟩ :: nearer
  | c :: cs =>
    if set.contains c then reached set (⟨index, c :: cs⟩ :: nearer) (index + 1) cs
    else ⟨index, c :: cs⟩ :: nearer

/-- Makes up to `fuel` further rounds of a way of matching. A further round that matches the empty
text is refused, as it leads to where the one before it led. -/
def repeated (body : Cursor → Captures → Continuation → Option Captures) (greedy : Bool) :
    (fuel : Nat) → Cursor → Captures → Continuation → Option Captures
  | 0, at_, caps, k => k at_ caps
  | fuel + 1, at_, caps, k =>
    let again (_ : Unit) : Option Captures :=
      body at_ caps fun next caps =>
        if next.index = at_.index then none else repeated body greedy fuel next caps k
    if greedy then (again ()).orElse fun _ => k at_ caps
    else (k at_ caps).orElse again

/-- Tries the ways in which a pattern matches at a place, the preferred ones first, until the
continuation accepts one. -/
def run : Pattern → Cursor → Captures → Continuation → Option Captures
  | empty, at_, caps, k => k at_ caps
  | char set, at_, caps, k =>
    match at_.rest with
    | [] => none
    | c :: cs => if set.contains c then k ⟨at_.index + 1, cs⟩ caps else none
  | atStart, at_, caps, k => if at_.index = 0 then k at_ caps else none
  | atEnd, at_, caps, k => if at_.rest.isEmpty then k at_ caps else none
  | seq p q, at_, caps, k => p.run at_ caps fun next caps => q.run next caps k
  | alt p q, at_, caps, k => (p.run at_ caps k).orElse fun _ => q.run at_ caps k
  | many set greedy, at_, caps, k =>
    let places := reached set [] at_.index at_.rest
    (if greedy then places else places.reverse).findSome? fun next => k next caps
  | rounds p greedy, at_, caps, k =>
    p.run at_ caps fun next caps =>
      if next.index = at_.index then k next caps
      else repeated p.run greedy at_.rest.length next caps k
  | group name p, at_, caps, k =>
    p.run at_ caps fun next caps => k next ((name, at_.index, next.index) :: caps)

/-- What a group matched in a text, unless it matched nothing. -/
def capture? (text : List Char) (caps : Captures) (name : String) : Option String :=
  match caps.find? (·.1 == name) with
  | none => none
  | some (_, start, stop) =>
    let found := (text.drop start).take (stop - start)
    if found.isEmpty then none else some (String.ofList found)

/-! ### Building patterns -/

/-- Matches a given text. -/
def literal (text : List Char) : Pattern :=
  text.foldr (fun c rest => seq (char (.single c)) rest) empty

/-- Matches patterns one after another. -/
def all (ps : List Pattern) : Pattern := ps.foldr seq empty

/-- Matches a pattern once or more. -/
def plus : Pattern → (greedy : Bool) → Pattern
  | char set, greedy => seq (char set) (many set greedy)
  | p, greedy => rounds p greedy

/-- Matches a pattern once or not at all. -/
def optional (p : Pattern) (greedy : Bool) : Pattern := if greedy then alt p empty else alt empty p

/-- Matches a pattern any number of times. -/
def times : Pattern → (greedy : Bool) → Pattern
  | char set, greedy => many set greedy
  | p, greedy => optional (plus p greedy) greedy

end Pattern

end Recast
