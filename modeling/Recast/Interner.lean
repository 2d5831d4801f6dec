import Std.Data.HashMap

/-!
# String interner

An interner numbers the strings it is given in the order of their first appearance; the empty string
is number 0 of every interner. A look-up by string and the list of strings are kept side by side,
and the type says that they agree, so `text` and `get?` are inverse to each other.
-/

namespace Recast

/-- The number of an interned string. -/
structure Name where
  index : Nat
deriving DecidableEq, Repr, Inhabited

instance : Ord Name := ⟨fun a b => compare a.index b.index⟩

/-- The name as text. -/
def Name.render (n : Name) : String := "Name(" ++ toString n.index ++ ")"

/-- Numbered strings. -/
structure Interner where
  strings : Array String
  names : Std.HashMap String Name
  agree : ∀ (s : String) (n : Name), names[s]? = some n ↔ strings[n.index]? = some s

namespace Interner

theorem agree_push (strings : Array String) (names : Std.HashMap String Name)
    (agree : ∀ (s : String) (n : Name), names[s]? = some n ↔ strings[n.index]? = some s)
    {s : String} (fresh : names[s]? = none) (t : String) (n : Name) :
    (names.insert s ⟨strings.size⟩)[t]? = some n ↔ (strings.push s)[n.index]? = some t := by
  rw [Std.HashMap.getElem?_insert, Array.getElem?_push]
  by_cases hs : s = t
  · subst hs
    by_cases hn : n.index = strings.size
    · have : n = ⟨strings.size⟩ := by cases n; simp_all
      simp [this]
    · have hne : (⟨strings.size⟩ : Name) ≠ n := fun h => hn (by rw [← h])
      have hold := agree s n
      rw [fresh] at hold
      simp only [beq_self_eq_true, if_true, Option.some.injEq, hne, hn, if_false, false_iff]
      simpa using hold
  · by_cases hn : n.index = strings.size
    · have hold := agree t n
      rw [hn, Array.getElem?_eq_none (Nat.le_refl _)] at hold
      have : names[t]? ≠ some n := fun h => by simpa using hold.1 h
      simp [hs, hn, this]
    · simp [hs, hn, agree t n]

/-- The interner that holds the empty string only. -/
def new : Interner where
  strings := #[""]
  names := (∅ : Std.HashMap String Name).insert "" ⟨0⟩
  agree s n := by
    have h := agree_push #[] ∅ (by simp) (s := "") (by simp) s n
    simpa using h

instance : Inhabited Interner := ⟨new⟩

/-- The name of a string, which becomes a new one if the interner did not have it. -/
def intern (t : Interner) (s : String) : Name × Interner :=
  match h : t.names[s]? with
  | some n => (n, t)
  | none =>
    (⟨t.strings.size⟩,
      { strings := t.strings.push s
        names := t.names.insert s ⟨t.strings.size⟩
        agree := agree_push t.strings t.names t.agree h })

/-- The name of a string that was interned. -/
def get? (t : Interner) (s : String) : Option Name := t.names[s]?

/-- The string of a name; a name that this interner never gave out has the empty string. -/
def text (t : Interner) (n : Name) : String := t.strings[n.index]?.getD ""

/-- Number of strings, the empty one included. -/
def size (t : Interner) : Nat := t.strings.size

/-- The interner as text. -/
def render (t : Interner) : String := "StringInterner \x7b len: " ++ toString t.size ++ ", .. \x7d"

theorem get?_eq_some_iff {t : Interner} {s : String} {n : Name} :
    t.get? s = some n ↔ t.strings[n.index]? = some s :=
  t.agree s n

theorem text_eq_of_get? {t : Interner} {s : String} {n : Name} (h : t.get? s = some n) :
    t.text n = s := by
  rw [text, get?_eq_some_iff.1 h, Option.getD_some]

@[simp] theorem get?_intern (t : Interner) (s : String) :
    (t.intern s).2.get? s = some (t.intern s).1 := by
  unfold intern
  split
  · assumption
  · simp [get?]

@[simp] theorem text_intern (t : Interner) (s : String) : (t.intern s).2.text (t.intern s).1 = s :=
  text_eq_of_get? (get?_intern t s)

/-- A string that has a name keeps it, and nothing is added. -/
theorem intern_of_get? {t : Interner} {s : String} {n : Name} (h : t.get? s = some n) :
    t.intern s = (n, t) := by
  unfold intern
  split
  · rename_i n' h'
    rw [Option.some.inj (h.symm.trans h')]
  · rename_i fresh
    cases h.symm.trans fresh

/-- Strings keep their names. -/
theorem get?_intern_of_get? {t : Interner} {s : String} {n : Name} (h : t.get? s = some n)
    (other : String) : (t.intern other).2.get? s = some n := by
  unfold intern
  split
  · exact h
  · rename_i fresh
    have : other ≠ s := fun e => by simp [get?, ← e, fresh] at h
    simpa [get?, Std.HashMap.getElem?_insert, this] using h

end Interner

end Recast
