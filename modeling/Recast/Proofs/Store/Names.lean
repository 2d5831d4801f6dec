import Mathlib.Data.Finset.Card
import Recast.Interner

/-!
# The names of an interner

A new interner that is given the strings of a list has the empty string and those of the list, each
once, in the order of their first appearance. The number of a string is its place in that order, so
it stays what it is whatever comes later, and no two strings share one. The main statement puts the
look-ups together for all histories of an interner.
-/

namespace Recast

namespace Interner

/-- Interns the strings of a list in order. -/
def internAll (t : Interner) (strings : List String) : Interner :=
  strings.foldl (fun t s => (t.intern s).2) t

variable {t : Interner} {s : String} {n : Name}

/-! ### One string -/

theorem isSome_get?_iff : (t.get? s).isSome ↔ s ∈ t.strings.toList := by
  rw [Option.isSome_iff_exists, List.mem_iff_getElem?]
  constructor
  · intro ⟨n, h⟩
    exact ⟨n.index, by rw [Array.getElem?_toList, get?_eq_some_iff.1 h]⟩
  · intro ⟨i, h⟩
    rw [Array.getElem?_toList] at h
    exact ⟨⟨i⟩, get?_eq_some_iff.2 h⟩

/-- No string stands at two places. -/
theorem nodup_strings (t : Interner) : t.strings.toList.Nodup := by
  apply List.nodup_iff_getElem?_ne_getElem?.2
  intro i j hij hj h
  simp only [Array.getElem?_toList, Array.length_toList] at h hj
  have hs : t.strings[j]? = some t.strings[j] := Array.getElem?_eq_getElem hj
  have hi : t.get? t.strings[j] = some ⟨i⟩ := get?_eq_some_iff.2 (h.trans hs)
  have hj : t.get? t.strings[j] = some ⟨j⟩ := get?_eq_some_iff.2 hs
  cases hi.symm.trans hj
  exact Nat.lt_irrefl _ hij

/-- A string that is new becomes the last one. -/
theorem strings_intern (t : Interner) (s : String) : (t.intern s).2.strings.toList =
    if s ∈ t.strings.toList then t.strings.toList else t.strings.toList ++ [s] := by
  by_cases hs : s ∈ t.strings.toList
  · obtain ⟨n, h⟩ := Option.isSome_iff_exists.1 (isSome_get?_iff.2 hs)
    rw [if_pos hs, intern_of_get? h]
  · rw [if_neg hs, intern]
    split
    · rename_i n h
      exact absurd (isSome_get?_iff.1 (Option.isSome_of_eq_some h)) hs
    · exact Array.toList_push

/-! ### Histories -/

variable {history later : List String}

theorem internAll_append (t : Interner) (history later : List String) :
    t.internAll (history ++ later) = (t.internAll history).internAll later :=
  List.foldl_append

/-- Strings keep their names. -/
theorem get?_internAll_of_get? (h : t.get? s = some n) (later : List String) :
    (t.internAll later).get? s = some n := by
  induction later generalizing t with
  | nil => exact h
  | cons other later ih => exact ih (get?_intern_of_get? h other)

/-- The strings are the empty one and those of the history, in the order in which they first
appear. -/
theorem strings_internAll_new (history : List String) :
    (new.internAll history).strings.toList = ("" :: history).eraseDups := by
  induction history using List.reverseRecOn with
  | nil => rfl
  | append_singleton history s ih =>
    have hold : s ∈ ("" :: history).eraseDups ↔ s ∈ "" :: history := List.mem_eraseDups
    rw [internAll_append]
    show ((new.internAll history).intern s).2.strings.toList = _
    rw [strings_intern, ih, ← List.cons_append, List.eraseDups_append, List.cons_removeAll,
      List.nil_removeAll]
    by_cases hs : s ∈ "" :: history
    · rw [if_pos (hold.2 hs), if_neg (by simpa using (List.mem_cons.1 hs).resolve_left),
        List.eraseDups_nil, List.append_nil]
    · rw [if_neg (mt hold.1 hs), if_pos (by simpa using hs)]
      rfl

theorem isSome_get?_internAll_new :
    ((new.internAll history).get? s).isSome ↔ s = "" ∨ s ∈ history := by
  rw [isSome_get?_iff, strings_internAll_new, List.mem_eraseDups, List.mem_cons]

theorem size_internAll_new (history : List String) :
    (new.internAll history).size = 1 + (history.toFinset.erase "").card := by
  have hset : (new.internAll history).strings.toList.toFinset
      = insert "" (history.toFinset.erase "") := by
    ext s
    rw [strings_internAll_new]
    by_cases hs : s = ""
    · simp [hs, List.mem_eraseDups]
    · simp [hs, List.mem_eraseDups]
  have hcard := List.toFinset_card_of_nodup (nodup_strings (new.internAll history))
  rw [hset, Finset.card_insert_of_notMem (Finset.notMem_erase _ _), Array.length_toList] at hcard
  rw [size, ← hcard, Nat.add_comm]

/-- A name of which the interner has no string lies beyond all others. -/
theorem size_le_of_get?_ne (h : ∀ s, t.get? s ≠ some n) : t.size ≤ n.index := by
  apply Nat.le_of_not_lt
  intro hn
  exact h _ (get?_eq_some_iff.2 (Array.getElem?_eq_getElem hn))

/-- Whatever strings a new interner was given, a name that it gives out has its string then and ever
after, and two names that it gives out are equal if and only if their strings are. The look-up by
string finds the empty string and those that were given, with the name that interning one again
yields. The size is one more than the number of different strings other than the empty one. A name
of another interner that this one does not have comes from a longer one and has the empty string. -/
theorem names_stand_for_strings (history : List String) :
    let t : Interner := new.internAll history
    (∀ s later, ((t.intern s).2.internAll later).text (t.intern s).1 = s) ∧
    (∀ s later s', (((t.intern s).2.internAll later).intern s').1 = (t.intern s).1 ↔ s' = s) ∧
    (∀ s, (t.get? s).isSome ↔ s = "" ∨ s ∈ history) ∧
    (∀ s n, t.get? s = some n → (t.intern s).1 = n) ∧
    t.size = 1 + (history.toFinset.erase "").card ∧
    ∀ (other : List String) (s : String) (n : Name), (new.internAll other).get? s = some n →
      (∀ s', t.get? s' ≠ some n) → t.size < (new.internAll other).size ∧ t.text n = "" := by
  intro t
  have hkeeps : ∀ s later, ((t.intern s).2.internAll later).get? s = some (t.intern s).1 := by
    intro s later
    exact get?_internAll_of_get? (get?_intern t s) later
  refine ⟨?_, ?_, ?_, ?_, ?_, ?_⟩
  · intro s later
    exact text_eq_of_get? (hkeeps s later)
  · intro s later s'
    constructor
    · intro h
      have hs := text_eq_of_get? (get?_intern_of_get? (hkeeps s later) s')
      rw [← h, text_intern] at hs
      exact hs
    · intro h
      rw [h, intern_of_get? (hkeeps s later)]
  · intro s
    exact isSome_get?_internAll_new
  · intro s n h
    rw [intern_of_get? h]
  · exact size_internAll_new history
  · intro other s n h hlacks
    have hsize := size_le_of_get?_ne hlacks
    have hn := (Array.getElem?_eq_some_iff.1 (get?_eq_some_iff.1 h)).1
    refine ⟨Nat.lt_of_le_of_lt hsize hn, ?_⟩
    rw [text, Array.getElem?_eq_none hsize, Option.getD_none]

/-- The longer interner has one string more, though it was given fewer of them. -/
theorem names_stand_for_strings_foreign :
    let t : Interner := new.internAll ["a", "a", "", "a"]
    let other : Interner := new.internAll ["x", "y"]
    other.get? "y" = some ⟨2⟩ ∧ (∀ s, t.get? s ≠ some ⟨2⟩) ∧ t.size = 2 ∧ t.text ⟨2⟩ = "" := by
  intro t other
  obtain ⟨-, -, -, -, hsize, hforeign⟩ := names_stand_for_strings ["a", "a", "", "a"]
  have hsize : t.size = 2 := hsize
  have hother : other.get? "y" = some ⟨2⟩ := by
    rw [get?_eq_some_iff, ← Array.getElem?_toList, strings_internAll_new]
    decide
  have hlacks : ∀ s, t.get? s ≠ some ⟨2⟩ := by
    intro s h
    have hlt := (Array.getElem?_eq_some_iff.1 (get?_eq_some_iff.1 h)).1
    exact absurd hlt (by rw [← size, hsize]; decide)
  exact ⟨hother, hlacks, hsize, (hforeign ["x", "y"] "y" ⟨2⟩ hother hlacks).2⟩

end Interner

end Recast
