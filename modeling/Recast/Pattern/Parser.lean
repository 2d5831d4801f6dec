import Recast.Pattern.Basic

/-!
# Reading patterns

The written form of patterns: characters stand for themselves; `.` is any character but the newline,
`\w` a letter, digit or underscore; `[a-z]` and `[^a-z]` are sets; `*`, `+` and `?` repeat, greedily
unless another `?` follows; `|` separates alternatives; `(?:p)` and `(p)` group, `(?P<name>p)` under
a name; `^` and `$` are the two ends of the text. A backslash takes the meaning from a punctuation
mark.

A text that is no pattern is refused, and so is one that uses a name twice.
-/

namespace Recast

namespace Pattern

/-- Characters that a backslash may precede to stand for themselves. -/
def isPunctuation (c : Char) : Bool :=
  c.toNat < 128 && !c.isAlphanum && !(c == ' ') && 32 < c.toNat && c.toNat != 127

/-- The set that an escaped character stands for. -/
def escape? (c : Char) : Option CharSet :=
  if c = 'w' then some .word
  else if isPunctuation c then some (.single c)
  else none

/-- Reads the items of a set up to its closing bracket. -/
def parseSetItems : (ranges : List (Char × Char)) → List Char →
    Option (List (Char × Char) × List Char)
  | _, [] => none
  | ranges, ']' :: cs => some (ranges, cs)
  | ranges, '\\' :: c :: cs =>
    match escape? c with
    | some set => parseSetItems (set.ranges ++ ranges) cs
    | none => none
  | ranges, low :: '-' :: high :: cs =>
    if high = ']' then some (('-', '-') :: (low, low) :: ranges, cs)
    else if low ≤ high then parseSetItems ((low, high) :: ranges) cs
    else none
  | ranges, c :: cs => parseSetItems ((c, c) :: ranges) cs

/-- Reads a set after its opening bracket. A closing bracket that comes first is an item. -/
def parseSet (cs : List Char) : Option (CharSet × List Char) :=
  let (negated, cs) := match cs with
    | '^' :: cs => (true, cs)
    | cs => (false, cs)
  let items? := match cs with
    | ']' :: cs => parseSetItems [(']', ']')] cs
    | cs => parseSetItems [] cs
  items?.map fun (ranges, cs) => (⟨negated, ranges⟩, cs)

/-- Reads a group name up to its closing bracket. -/
def parseName (cs : List Char) : Option (String × List Char) :=
  let isNameChar (c : Char) : Bool := c.isAlphanum || c == '_'
  let name := cs.takeWhile isNameChar
  match name, cs.dropWhile isNameChar with
  | first :: _, '>' :: cs => if first.isDigit then none else some (String.ofList name, cs)
  | _, _ => none

/-- Reads the repetition signs that follow a pattern. -/
def parseRepetition (p : Pattern) : List Char → Pattern × List Char
  | '*' :: '?' :: cs => parseRepetition (p.times false) cs
  | '+' :: '?' :: cs => parseRepetition (p.plus false) cs
  | '?' :: '?' :: cs => parseRepetition (p.optional false) cs
  | '*' :: cs => parseRepetition (p.times true) cs
  | '+' :: cs => parseRepetition (p.plus true) cs
  | '?' :: cs => parseRepetition (p.optional true) cs
  | cs => (p, cs)

mutual

/-- Reads alternatives up to a closing parenthesis or the end. -/
def parseAlternatives : (fuel : Nat) → List Char → Option (Pattern × List Char)
  | 0, _ => none
  | fuel + 1, cs =>
    match parseSequence fuel [] cs with
    | none => none
    | some (p, '|' :: cs) =>
      (parseAlternatives fuel cs).map fun (q, cs) => (p.alt q, cs)
    | some (p, cs) => some (p, cs)

/-- Reads patterns one after another up to a bar, a closing parenthesis or the end; `found` has
those read so far, last first. -/
def parseSequence : (fuel : Nat) → (found : List Pattern) → List Char →
    Option (Pattern × List Char)
  | 0, _, _ => none
  | fuel + 1, found, cs =>
    match cs with
    | [] | '|' :: _ | ')' :: _ => some (all found.reverse, cs)
    | c :: cs =>
      match parseAtom fuel c cs with
      | none => none
      | some (p, cs) =>
        let (p, cs) := parseRepetition p cs
        parseSequence fuel (p :: found) cs

/-- Reads the pattern that starts with the character `c`. -/
def parseAtom : (fuel : Nat) → (c : Char) → List Char → Option (Pattern × List Char)
  | 0, _, _ => none
  | fuel + 1, c, cs =>
    match c with
    | '.' => some (char .any, cs)
    | '^' => some (atStart, cs)
    | '$' => some (atEnd, cs)
    | '*' | '+' | '?' | '{' => none
    | '[' => (parseSet cs).map fun (set, cs) => (char set, cs)
    | '\\' =>
      match cs with
      | [] => none
      | c :: cs => (escape? c).map fun set => (char set, cs)
    | '(' =>
      match cs with
      | '?' :: ':' :: cs => parseGroup fuel cs
      | '?' :: 'P' :: '<' :: cs | '?' :: '<' :: cs =>
        match parseName cs with
        | none => none
        | some (name, cs) => (parseGroup fuel cs).map fun (p, cs) => (group name p, cs)
      | '?' :: _ => none
      | cs => parseGroup fuel cs
    | c => some (char (.single c), cs)

/-- Reads the body of a group and its closing parenthesis. -/
def parseGroup : (fuel : Nat) → List Char → Option (Pattern × List Char)
  | 0, _ => none
  | fuel + 1, cs =>
    match parseAlternatives fuel cs with
    | some (p, ')' :: cs) => some (p, cs)
    | _ => none

end

/-- Reads a pattern. -/
def parse? (text : String) : Option Pattern :=
  let cs := text.toList
  match parseAlternatives (4 * cs.length + 4) cs with
  | some (p, []) => if p.names.Nodup then some p else none
  | _ => none

end Pattern

end Recast
