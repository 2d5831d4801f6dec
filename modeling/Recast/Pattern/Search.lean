import Recast.Pattern.Basic

/-!
# Finding patterns

`Pattern.search` finds the leftmost match of a pattern in a text.

Where repetitions meet repeated text a pattern may match in very many ways, and a place can only be
refused when all of them have failed. So a search works out beforehand, from the end of the pattern
to its start, from which places a match may lead to the end at all (`Pattern.origins`), and passes
over the others. The main statement is `Pattern.search_eq`: the answer is the one that trying every
place gives.
-/

namespace Recast

namespace Pattern

/-- A set of places in a text. -/
structure Places where
  has : Nat → Bool

/-- Every place. -/
def Places.all : Places := ⟨fun _ => true⟩

/-- Puts the answers for the places before a given one in front of `later`, the answers for that
place and those after it. The answer for a place says whether passing over characters of a set may
lead from there to a goal. -/
def passing (text : Array Char) (set : CharSet) (goals : Places) :
    (place : Nat) → (later : List Bool) → List Bool
  | 0, later => later
  | place + 1, later =>
    let passes := text[place]?.any set.contains
    passing text set goals place ((goals.has place || passes && later.headD false) :: later)

/-- The places from which a match may lead to a goal. The places left out are ones from which no
match does. -/
def origins (text : Array Char) : Pattern → (goals : Places) → Places
  | empty, goals => goals
  | char set, goals => ⟨fun place => text[place]?.any set.contains && goals.has (place + 1)⟩
  | atStart, goals => ⟨fun place => place == 0 && goals.has place⟩
  | atEnd, goals => ⟨fun place => place == text.size && goals.has place⟩
  | seq p q, goals => p.origins text (q.origins text goals)
  | alt p q, goals =>
    let first := p.origins text goals
    let second := q.origins text goals
    ⟨fun place => first.has place || second.has place⟩
  | many set _, goals =>
    let answers := Thunk.mk fun _ =>
      (passing text set goals text.size [goals.has text.size]).toArray
    ⟨fun place => answers.get.getD place false⟩
  | rounds _ _, _ => .all
  | group _ p, goals => p.origins text goals

/-- Tries to match at a place, if it is one of those given. -/
def matchAt (p : Pattern) (places : Places) (at_ : Cursor) : Option Captures :=
  if places.has at_.index then p.run at_ [] fun _ caps => some caps else none

/-- Tries to match at one of the given places, the first ones first. The text starts at the place
`index`. -/
def searchFrom (p : Pattern) (places : Places) (index : Nat) :
    (text : List Char) → Option Captures
  | [] => p.matchAt places ⟨index, []⟩
  | c :: cs =>
    (p.matchAt places ⟨index, c :: cs⟩).orElse fun _ => p.searchFrom places (index + 1) cs

/-- The captures of the leftmost match in a text. -/
def search (p : Pattern) (text : List Char) : Option Captures :=
  p.searchFrom (p.origins text.toArray .all) 0 text

/-! ### No place is passed over in vain -/

/-- A cursor that points into a text: what lies ahead of it is the text from its place on. -/
structure Cursor.IsIn (at_ : Cursor) (text : Array Char) : Prop where
  rest_eq : at_.rest = text.toList.drop at_.index
  index_le : at_.index ≤ text.size

namespace Cursor.IsIn

variable {text : Array Char} {i : Nat} {c : Char} {cs : List Char}

theorem index_eq_size (h : IsIn ⟨i, []⟩ text) : i = text.size := by
  have rest := congrArg List.length h.rest_eq
  have le := h.index_le
  simp at rest le
  omega

theorem index_lt_size (h : IsIn ⟨i, c :: cs⟩ text) : i < text.size := by
  have rest := congrArg List.length h.rest_eq
  simp at rest
  omega

theorem getElem?_index (h : IsIn ⟨i, c :: cs⟩ text) : text[i]? = some c := by
  have rest := congrArg List.head? h.rest_eq
  simpa using rest.symm

theorem next (h : IsIn ⟨i, c :: cs⟩ text) : IsIn ⟨i + 1, cs⟩ text where
  rest_eq := by
    have rest := congrArg List.tail h.rest_eq
    simpa using rest
  index_le := h.index_lt_size

end Cursor.IsIn

/-- The answers of `passing` for the places from `place` on: a goal is answered with yes, and so is
a place where a character of the set leads to a yes. -/
structure Closed (text : Array Char) (set : CharSet) (goals : Places) (place : Nat)
    (answers : List Bool) : Prop where
  of_goal : ∀ i, place + i ≤ text.size → goals.has (place + i) → answers.getD i false
  of_next : ∀ i, text[place + i]?.any set.contains → answers.getD (i + 1) false →
    answers.getD i false

theorem Closed.passing {text : Array Char} {set : CharSet} {goals : Places} {place : Nat} :
    ∀ {later : List Bool}, Closed text set goals place later →
      Closed text set goals 0 (passing text set goals place later) := by
  induction place with
  | zero => exact id
  | succ place ih =>
    intro later h
    refine ih ⟨fun i le goal => ?_, fun i passes yes => ?_⟩
    · cases i with
      | zero => simp_all
      | succ i =>
        have e : place + (i + 1) = place + 1 + i := by omega
        exact h.of_goal i (e ▸ le) (e ▸ goal)
    · cases i with
      | zero => cases later <;> simp_all
      | succ i =>
        have e : place + (i + 1) = place + 1 + i := by omega
        exact h.of_next i (e ▸ passes) yes

/-- From a place that `passing` answers with no, characters of the set lead to no goal. -/
theorem Closed.has_eq_false_of_mem_reached {text : Array Char} {set : CharSet} {goals : Places}
    {answers : List Bool} (h : Closed text set goals 0 answers) {rest : List Char} :
    ∀ {index : Nat} {nearer : List Cursor}, Cursor.IsIn ⟨index, rest⟩ text →
      answers.getD index false = false → ∀ {next}, next ∈ reached set nearer index rest →
        next ∈ nearer ∨ next.IsIn text ∧ goals.has next.index = false := by
  induction rest with
  | nil =>
    intro index nearer inside no next mem
    have goal := h.of_goal index (by simpa using inside.index_le)
    simp [reached] at mem
    grind
  | cons c cs ih =>
    intro index nearer inside no next mem
    have goal := h.of_goal index (by simpa using inside.index_le)
    have step := h.of_next index
    have char := inside.getElem?_index
    by_cases hc : set.contains c
    · simp [reached, hc] at mem
      have := ih inside.next (by grind) mem
      grind
    · simp [reached, hc] at mem
      grind

/-- From a place that is no origin, no match leads to a goal. -/
theorem run_eq_none {text : Array Char} (p : Pattern) : ∀ {goals : Places} {at_ : Cursor}
    {caps : Captures} {k : Continuation}, at_.IsIn text →
    (∀ next caps, next.IsIn text → goals.has next.index = false → k next caps = none) →
    (p.origins text goals).has at_.index = false → p.run at_ caps k = none := by
  induction p with
  | empty => exact fun inside refuses no => refuses _ _ inside no
  | char set =>
    intro goals ⟨i, rest⟩ caps k inside refuses no
    cases rest with
    | nil => rfl
    | cons c cs =>
      by_cases hc : set.contains c
      · simp [origins, inside.getElem?_index, hc] at no
        simpa [run, hc] using refuses _ _ inside.next no
      · simp [run, hc]
  | atStart =>
    intro goals at_ caps k inside refuses no
    by_cases start : at_.index = 0
    · simpa [run, start] using refuses _ _ inside (by simpa [origins, start] using no)
    · simp [run, start]
  | atEnd =>
    intro goals ⟨i, rest⟩ caps k inside refuses no
    cases rest with
    | nil => exact refuses _ _ inside (by simpa [origins, inside.index_eq_size] using no)
    | cons => rfl
  | seq p q ihp ihq =>
    exact fun inside refuses no => ihp inside (fun _ _ inside no => ihq inside refuses no) no
  | alt p q ihp ihq =>
    intro goals at_ caps k inside refuses no
    simp [origins] at no
    simp [run, ihp inside refuses no.1, ihq inside refuses no.2]
  | many set greedy =>
    intro goals ⟨i, rest⟩ caps k inside refuses no
    have closed : Closed text set goals 0
        (passing text set goals text.size [goals.has text.size]) := by
      refine Closed.passing ⟨fun i le goal => ?_, fun i passes => ?_⟩
      · obtain rfl : i = 0 := by omega
        exact goal
      · simp at passes
    have refused : ∀ next ∈ reached set [] i rest, k next caps = none := by
      intro next mem
      have unmarked := closed.has_eq_false_of_mem_reached inside
        (by simpa [origins, Thunk.get] using no) mem
      rcases unmarked with h | ⟨inside, no⟩
      · simp at h
      · exact refuses _ _ inside no
    cases greedy <;> simpa [run] using refused
  | rounds => simp [origins, Places.all]
  | group name p ih =>
    exact fun inside refuses no => ih inside (fun _ _ inside no => refuses _ _ inside no) no

/-- Passing over places from which the pattern does not match makes no difference. -/
theorem searchFrom_eq {p : Pattern} {places : Places} {text : Array Char}
    (h : ∀ at_, at_.IsIn text → places.has at_.index = false →
      p.run at_ [] (fun _ caps => some caps) = none) {rest : List Char} :
    ∀ {index : Nat}, Cursor.IsIn ⟨index, rest⟩ text →
      p.searchFrom places index rest = p.searchFrom .all index rest := by
  induction rest with
  | nil =>
    intro index inside
    have none_here := h _ inside
    by_cases possible : places.has index <;> simp_all [searchFrom, matchAt, Places.all]
  | cons c cs ih =>
    intro index inside
    have none_here := h _ inside
    have rest_eq := ih inside.next
    by_cases possible : places.has index <;> simp_all [searchFrom, matchAt, Places.all]

/-- A search gives what trying every place gives. -/
theorem search_eq (p : Pattern) (text : List Char) :
    p.search text = p.searchFrom .all 0 text := by
  refine searchFrom_eq (fun at_ inside no => p.run_eq_none inside ?_ no) ⟨rfl, Nat.zero_le _⟩
  simp [Places.all]

end Pattern

end Recast
