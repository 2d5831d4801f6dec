import Recast.Pattern.Search

/-!
# What patterns match

`Pattern.Matches` says which pieces of a text a pattern matches and what its groups remember then,
without an order of preference. `Pattern.run` only ever accepts such a match (`run_sound`), and finds
one wherever there is one (`run_complete`); so a search whose possible matches all remember the same
gives just that.
-/

namespace Recast

namespace CharSet

theorem contains_range {c d : Char} {negated : Bool} :
    (⟨negated, [(c, c)]⟩ : CharSet).contains d = ((d == c) != negated) := by
  have : (decide (c ≤ d) && decide (d ≤ c)) = (d == c) := by
    rw [Bool.eq_iff_iff]
    simp only [Bool.and_eq_true, decide_eq_true_eq, beq_iff_eq]
    exact ⟨fun h => Char.le_antisymm h.2 h.1, fun h => by simp [h]⟩
  simp [contains, this]

theorem contains_single {c d : Char} : (single c).contains d = true ↔ d = c := by
  simp [single, contains_range]

/-- The set of all characters but one. -/
theorem contains_negated {c d : Char} :
    (⟨true, [(c, c)]⟩ : CharSet).contains d = true ↔ d ≠ c := by
  simp [contains_range]

end CharSet

namespace Pattern

/-- One or more matches of a body, one after another. -/
inductive Chain (body : (left mid right : List Char) → Captures → Prop) :
    (left mid right : List Char) → Captures → Prop
  | once {left mid right : List Char} {caps : Captures} :
      body left mid right caps → Chain body left mid right caps
  | again {left first rest right : List Char} {xs ys : Captures} :
      body left first (rest ++ right) xs → Chain body (left ++ first) rest right ys →
        Chain body left (first ++ rest) right (ys ++ xs)

/-- The pattern matches `mid` where `left` stands before it and `right` after it, and its groups
remember `caps`, the latest first. -/
def Matches : Pattern → (left mid right : List Char) → Captures → Prop
  | empty, _, mid, _, caps => mid = [] ∧ caps = []
  | char set, _, mid, _, caps => ∃ c, set.contains c ∧ mid = [c] ∧ caps = []
  | atStart, left, mid, _, caps => left = [] ∧ mid = [] ∧ caps = []
  | atEnd, _, mid, right, caps => right = [] ∧ mid = [] ∧ caps = []
  | seq p q, left, mid, right, caps => ∃ first rest xs ys, mid = first ++ rest ∧ caps = ys ++ xs ∧
      p.Matches left first (rest ++ right) xs ∧ q.Matches (left ++ first) rest right ys
  | alt p q, left, mid, right, caps => p.Matches left mid right caps ∨ q.Matches left mid right caps
  | many set _, _, mid, _, caps => (∀ c ∈ mid, set.contains c) ∧ caps = []
  | rounds p _, left, mid, right, caps => Chain p.Matches left mid right caps
  | group name p, left, mid, right, caps => ∃ xs, p.Matches left mid right xs ∧
      caps = (name, left.length, left.length + mid.length) :: xs

/-- The pattern repeats nothing but sets of characters. -/
def RoundFree : Pattern → Prop
  | empty | char _ | atStart | atEnd | many _ _ => True
  | seq p q | alt p q => p.RoundFree ∧ q.RoundFree
  | rounds _ _ => False
  | group _ p => p.RoundFree

/-! ### Running a pattern -/

theorem mem_reached {set : CharSet} {next : Cursor} {rest : List Char} :
    ∀ {nearer : List Cursor} {index : Nat}, next ∈ reached set nearer index rest ↔
      next ∈ nearer ∨ ∃ mid right, rest = mid ++ right ∧ (∀ c ∈ mid, set.contains c) ∧
        next = ⟨index + mid.length, right⟩ := by
  induction rest with
  | nil =>
    intro nearer index
    simp only [reached, List.mem_cons, List.nil_eq, List.append_eq_nil_iff]
    constructor
    · rintro (rfl | h)
      · exact .inr ⟨[], [], ⟨rfl, rfl⟩, by simp, rfl⟩
      · exact .inl h
    · rintro (h | ⟨mid, right, ⟨rfl, rfl⟩, -, rfl⟩)
      · exact .inr h
      · exact .inl rfl
  | cons c cs ih =>
    intro nearer index
    by_cases hc : set.contains c
    · simp only [reached, hc, if_true, ih, List.mem_cons]
      constructor
      · rintro ((rfl | h) | ⟨mid, right, rfl, hm, rfl⟩)
        · exact .inr ⟨[], c :: cs, rfl, by simp, rfl⟩
        · exact .inl h
        · exact .inr ⟨c :: mid, right, rfl, by simpa [hc] using hm, by simp; omega⟩
      · rintro (h | ⟨mid, right, e, hm, rfl⟩)
        · exact .inl (.inr h)
        · cases mid with
          | nil => simp at e; subst e; exact .inl (.inl rfl)
          | cons d ds =>
            simp at e hm
            exact .inr ⟨ds, right, e.2, hm.2, by simp; omega⟩
    · simp only [reached, hc, Bool.false_eq_true, if_false, List.mem_cons]
      constructor
      · rintro (rfl | h)
        · exact .inr ⟨[], c :: cs, rfl, by simp, rfl⟩
        · exact .inl h
      · rintro (h | ⟨mid, right, e, hm, rfl⟩)
        · exact .inr h
        · cases mid with
          | nil => simp at e; subst e; exact .inl rfl
          | cons d ds => simp at e hm; simp [e.1, hm.1] at hc

/-- What the body of a repetition is known to do when it accepts. -/
def Accepts (body : Cursor → Captures → Continuation → Option Captures)
    (matched : (left mid right : List Char) → Captures → Prop) : Prop :=
  ∀ {left cs : List Char} {caps : Captures} {k : Continuation} {r : Captures},
    body ⟨left.length, cs⟩ caps k = some r → ∃ mid right new, cs = mid ++ right ∧
      matched left mid right new ∧ k ⟨left.length + mid.length, right⟩ (new ++ caps) = some r

theorem repeated_sound {body : Cursor → Captures → Continuation → Option Captures}
    {matched : (left mid right : List Char) → Captures → Prop} (h : Accepts body matched)
    {greedy : Bool} {fuel : Nat} : ∀ {left cs : List Char} {caps : Captures} {k : Continuation}
    {r : Captures}, repeated body greedy fuel ⟨left.length, cs⟩ caps k = some r →
      k ⟨left.length, cs⟩ caps = some r ∨ ∃ mid right new, cs = mid ++ right ∧
        Chain matched left mid right new ∧
          k ⟨left.length + mid.length, right⟩ (new ++ caps) = some r := by
  induction fuel with
  | zero => exact fun hr => .inl hr
  | succ fuel ih =>
    intro left cs caps k r hr
    have tried : k ⟨left.length, cs⟩ caps = some r ∨
        (body ⟨left.length, cs⟩ caps fun next caps =>
          if next.index = left.length then none
          else repeated body greedy fuel next caps k) = some r := by
      cases greedy <;> simp only [repeated, Bool.false_eq_true, if_true, if_false,
        Option.orElse_eq_or, Option.or_eq_some_iff] at hr <;> grind
    rcases tried with hk | hb
    · exact .inl hk
    · obtain ⟨first, rest, xs, rfl, hm, hn⟩ := h hb
      right
      split at hn
      · cases hn
      · rw [← List.length_append] at hn
        rcases ih hn with hk | ⟨mid, right, ys, rfl, hc, hk⟩
        · exact ⟨first, rest, xs, rfl, .once hm, by simpa using hk⟩
        · refine ⟨first ++ mid, right, ys ++ xs, by simp, .again hm hc, ?_⟩
          simpa [Nat.add_assoc] using hk

/-- A pattern accepts nothing but its matches. -/
theorem run_sound (p : Pattern) : Accepts p.run p.Matches := by
  induction p with
  | empty => exact fun hr => ⟨[], _, [], rfl, ⟨rfl, rfl⟩, hr⟩
  | char set =>
    intro left cs caps k r hr
    cases cs with
    | nil => cases hr
    | cons c cs =>
      simp only [run] at hr
      split at hr
      · exact ⟨[c], cs, [], rfl, ⟨c, ‹_›, rfl, rfl⟩, hr⟩
      · cases hr
  | atStart =>
    intro left cs caps k r hr
    simp only [run] at hr
    split at hr
    · exact ⟨[], cs, [], rfl, ⟨List.length_eq_zero_iff.1 ‹_›, rfl, rfl⟩, hr⟩
    · cases hr
  | atEnd =>
    intro left cs caps k r hr
    simp only [run] at hr
    split at hr
    · exact ⟨[], cs, [], rfl, ⟨List.isEmpty_iff.1 ‹_›, rfl, rfl⟩, hr⟩
    · cases hr
  | seq p q ihp ihq =>
    intro left cs caps k r hr
    obtain ⟨first, rest, xs, rfl, hp, hr⟩ := ihp hr
    rw [← List.length_append] at hr
    obtain ⟨second, right, ys, rfl, hq, hr⟩ := ihq hr
    refine ⟨first ++ second, right, ys ++ xs, by simp,
      ⟨first, second, xs, ys, rfl, rfl, hp, hq⟩, ?_⟩
    simpa [Nat.add_assoc] using hr
  | alt p q ihp ihq =>
    intro left cs caps k r hr
    simp only [run, Option.orElse_eq_or, Option.or_eq_some_iff] at hr
    rcases hr with hr | ⟨-, hr⟩
    · obtain ⟨mid, right, new, e, hm, hk⟩ := ihp hr
      exact ⟨mid, right, new, e, .inl hm, hk⟩
    · obtain ⟨mid, right, new, e, hm, hk⟩ := ihq hr
      exact ⟨mid, right, new, e, .inr hm, hk⟩
  | many set greedy =>
    intro left cs caps k r hr
    obtain ⟨next, hn, hk⟩ : ∃ next ∈ reached set [] left.length cs, k next caps = some r := by
      cases greedy <;> simp only [run, Bool.false_eq_true, if_true, if_false] at hr <;>
        obtain ⟨next, hn, hk⟩ := List.exists_of_findSome?_eq_some hr
      · exact ⟨next, List.mem_reverse.1 hn, hk⟩
      · exact ⟨next, hn, hk⟩
    rcases mem_reached.1 hn with hn | ⟨mid, right, e, hm, rfl⟩
    · simp at hn
    · exact ⟨mid, right, [], e, ⟨hm, rfl⟩, hk⟩
  | rounds p greedy ih =>
    intro left cs caps k r hr
    obtain ⟨first, rest, xs, rfl, hm, hr⟩ := ih hr
    split at hr
    · exact ⟨first, rest, xs, rfl, .once hm, hr⟩
    · rw [← List.length_append] at hr
      rcases repeated_sound ih hr with hk | ⟨mid, right, ys, rfl, hc, hk⟩
      · exact ⟨first, rest, xs, rfl, .once hm, by simpa using hk⟩
      · refine ⟨first ++ mid, right, ys ++ xs, by simp, .again hm hc, ?_⟩
        simpa [Nat.add_assoc] using hk
  | group name p ih =>
    intro left cs caps k r hr
    obtain ⟨mid, right, xs, e, hm, hk⟩ := ih hr
    exact ⟨mid, right, _, e, ⟨xs, hm, rfl⟩, hk⟩

/-- A pattern without rounds finds a match wherever there is one that the continuation accepts,
whatever the groups remember. -/
theorem run_complete {p : Pattern} (free : p.RoundFree) : ∀ {left mid right : List Char}
    {new caps : Captures} {k : Continuation}, p.Matches left mid right new →
      (∀ caps, (k ⟨left.length + mid.length, right⟩ caps).isSome) →
        (p.run ⟨left.length, mid ++ right⟩ caps k).isSome := by
  induction p with
  | empty =>
    rintro left mid right new caps k ⟨rfl, rfl⟩ hk
    exact hk caps
  | char set =>
    rintro left mid right new caps k ⟨c, hc, rfl, rfl⟩ hk
    simpa [run, hc] using hk caps
  | atStart =>
    rintro left mid right new caps k ⟨rfl, rfl, rfl⟩ hk
    exact hk caps
  | atEnd =>
    rintro left mid right new caps k ⟨rfl, rfl, rfl⟩ hk
    exact hk caps
  | seq p q ihp ihq =>
    rintro left mid right new caps k ⟨first, rest, xs, ys, rfl, rfl, hp, hq⟩ hk
    rw [List.append_assoc]
    refine ihp free.1 hp fun caps => ?_
    rw [← List.length_append]
    exact ihq free.2 hq fun caps => by simpa [Nat.add_assoc] using hk caps
  | alt p q ihp ihq =>
    intro left mid right new caps k h hk
    simp only [run, Option.orElse_eq_or, Option.isSome_or, Bool.or_eq_true]
    rcases h with h | h
    · exact .inl (ihp free.1 h hk)
    · exact .inr (ihq free.2 h hk)
  | many set greedy =>
    rintro left mid right new caps k ⟨hm, rfl⟩ hk
    have mem : (⟨left.length + mid.length, right⟩ : Cursor) ∈
        reached set [] left.length (mid ++ right) :=
      mem_reached.2 (.inr ⟨mid, right, rfl, hm, rfl⟩)
    cases greedy <;> simp only [run, Bool.false_eq_true, if_true, if_false,
      List.isSome_findSome?, List.any_eq_true, List.mem_reverse] <;> exact ⟨_, mem, hk caps⟩
  | rounds p greedy => exact free.elim
  | group name p ih =>
    rintro left mid right new caps k ⟨xs, hm, rfl⟩ hk
    exact ih free hm fun _ => hk _

/-! ### Searching -/

theorem searchFrom_all_sound {p : Pattern} {caps : Captures} {cs : List Char} :
    ∀ {left : List Char}, p.searchFrom .all left.length cs = some caps →
      ∃ skipped mid right, cs = skipped ++ mid ++ right ∧
        p.Matches (left ++ skipped) mid right caps := by
  have here {left cs : List Char} (h : p.matchAt .all ⟨left.length, cs⟩ = some caps) :
      ∃ mid right, cs = mid ++ right ∧ p.Matches left mid right caps := by
    obtain ⟨mid, right, new, e, hm, hk⟩ := p.run_sound (by simpa [matchAt, Places.all] using h)
    simp only [List.append_nil, Option.some.injEq] at hk
    exact ⟨mid, right, e, hk ▸ hm⟩
  induction cs with
  | nil =>
    intro left h
    obtain ⟨mid, right, e, hm⟩ := here h
    exact ⟨[], mid, right, e, by simpa using hm⟩
  | cons c cs ih =>
    intro left h
    simp only [searchFrom, Option.orElse_eq_or, Option.or_eq_some_iff] at h
    rcases h with h | ⟨-, h⟩
    · obtain ⟨mid, right, e, hm⟩ := here h
      exact ⟨[], mid, right, e, by simpa using hm⟩
    · have h' : p.searchFrom .all (left ++ [c]).length cs = some caps := by simpa using h
      obtain ⟨skipped, mid, right, rfl, hm⟩ := ih h'
      exact ⟨c :: skipped, mid, right, by simp, by simpa using hm⟩

/-- What a search gives, some match of the pattern in the text remembers. -/
theorem search_sound {p : Pattern} {text : List Char} {caps : Captures}
    (h : p.search text = some caps) :
    ∃ left mid right, text = left ++ mid ++ right ∧ p.Matches left mid right caps := by
  rw [search_eq] at h
  have h' : p.searchFrom .all ([] : List Char).length text = some caps := h
  exact searchFrom_all_sound h'

/-- A search for a pattern without rounds succeeds if the pattern matches somewhere. -/
theorem search_complete {p : Pattern} (free : p.RoundFree) {left mid right : List Char}
    {caps : Captures} (h : p.Matches left mid right caps) :
    (p.search (left ++ mid ++ right)).isSome := by
  rw [search_eq]
  suffices ∀ skipped passed : List Char, left = passed ++ skipped →
      (p.searchFrom .all passed.length (skipped ++ mid ++ right)).isSome from this left [] rfl
  intro skipped
  induction skipped with
  | nil =>
    intro passed e
    have found : (p.run ⟨passed.length, mid ++ right⟩ [] fun _ caps => some caps).isSome :=
      run_complete free (by simpa [e] using h) (by simp)
    have found : (p.matchAt .all ⟨passed.length, mid ++ right⟩).isSome := by
      simpa [matchAt, Places.all] using found
    cases ht : mid ++ right with
    | nil => simpa [searchFrom, ht] using found
    | cons c cs =>
      rw [ht] at found
      simp only [List.nil_append, ht, searchFrom, Option.orElse_eq_or, Option.isSome_or, found, Bool.true_or]
  | cons c cs ih =>
    intro passed e
    have := ih (passed ++ [c]) (by simpa using e)
    simp only [List.cons_append, searchFrom, Option.orElse_eq_or, Option.isSome_or, Bool.or_eq_true]
    exact .inr (by simpa using this)

/-! ### Matches of texts -/

theorem matches_literal {text left mid right : List Char} {caps : Captures} :
    (literal text).Matches left mid right caps ↔ mid = text ∧ caps = [] := by
  induction text generalizing left mid caps with
  | nil => simp [literal, Matches]
  | cons c cs ih =>
    have ih' {left mid caps} : (cs.foldr (fun c rest => seq (char (.single c)) rest) empty).Matches
        left mid right caps ↔ mid = cs ∧ caps = [] := ih
    simp only [literal, List.foldr_cons, Matches, ih']
    constructor
    · rintro ⟨first, rest, xs, ys, rfl, rfl, ⟨d, hd, rfl, rfl⟩, rfl, rfl⟩
      simp [CharSet.contains_single.1 hd]
    · rintro ⟨rfl, rfl⟩
      exact ⟨[c], cs, [], [], rfl, rfl, ⟨c, CharSet.contains_single.2 rfl, rfl, rfl⟩, rfl, rfl⟩

theorem roundFree_literal (text : List Char) : (literal text).RoundFree := by
  induction text with
  | nil => trivial
  | cons c cs ih => exact ⟨trivial, ih⟩

theorem matches_plus {set : CharSet} {greedy : Bool} {left mid right : List Char}
    {caps : Captures} : (plus (char set) greedy).Matches left mid right caps ↔
      mid ≠ [] ∧ (∀ c ∈ mid, set.contains c) ∧ caps = [] := by
  simp only [plus, Matches]
  constructor
  · rintro ⟨first, rest, xs, ys, rfl, rfl, ⟨c, hc, rfl, rfl⟩, hr, rfl⟩
    exact ⟨by simp, by simpa [hc] using hr, rfl⟩
  · rintro ⟨ne, h, rfl⟩
    obtain ⟨c, mid, rfl⟩ := List.exists_cons_of_ne_nil ne
    simp only [List.mem_cons, forall_eq_or_imp] at h
    exact ⟨[c], mid, [], [], rfl, rfl, ⟨c, h.1, rfl, rfl⟩, h.2, rfl⟩

/-- A pattern without groups remembers nothing. -/
theorem captures_eq_nil {p : Pattern} (h : p.names = []) : ∀ {left mid right : List Char}
    {caps : Captures}, p.Matches left mid right caps → caps = [] := by
  induction p with
  | empty | atStart | atEnd | char | many => simp_all [Matches]
  | seq p q ihp ihq =>
    simp only [names, List.append_eq_nil_iff] at h
    rintro left mid right caps ⟨first, rest, xs, ys, -, rfl, hp, hq⟩
    rw [ihp h.1 hp, ihq h.2 hq, List.nil_append]
  | alt p q ihp ihq =>
    simp only [names, List.append_eq_nil_iff] at h
    exact fun hm => hm.elim (ihp h.1) (ihq h.2)
  | rounds p greedy ih =>
    intro left mid right caps hm
    induction hm with
    | once hm => exact ih h hm
    | again hm _ rest => rw [ih h hm, rest, List.nil_append]
  | group name p ih => cases h

/-- What a group remembers is the piece of the text that it matched. -/
theorem capture?_eq_some {text before found after : List Char} {caps : Captures} {name : String}
    (e : text = before ++ found ++ after) (ne : found ≠ [])
    (h : caps.find? (·.1 == name)
      = some (name, before.length, before.length + found.length)) :
    capture? text caps name = some (String.ofList found) := by
  simp [capture?, h, e, List.append_assoc, ne]

end Pattern

end Recast
