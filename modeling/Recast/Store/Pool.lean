/-!
# Pools of lists

A pool keeps many short lists in one array. Lists are only ever appended, and a list is named by the
slice of the array that it occupies, so slices handed out at different times do not overlap. Adding
a list leaves all earlier ones as they are, and replacing an item changes only the lists that have
it.
-/

namespace Recast

/-- Where a list stands in a pool: the index of its first item and its length. -/
structure Slice (β : Type) where
  start : Nat
  length : Nat
deriving DecidableEq, Repr

namespace Slice

variable {β : Type}

/-- The slice of the empty list that was never put into a pool. -/
def empty : Slice β := ⟨0, 0⟩

/-- The range of indices as text, after the name of the kind of slice. -/
def render (label : String) (s : Slice β) : String :=
  label ++ "(" ++ toString s.start ++ ".." ++ toString (s.start + s.length) ++ ")"

end Slice

/-- Lists of items of type `β`, one after another. -/
structure Pool (β : Type) where
  items : Array β
deriving Repr

namespace Pool

variable {β : Type}

/-- The pool without lists. -/
def empty : Pool β := ⟨#[]⟩

instance : Inhabited (Pool β) := ⟨empty⟩

/-- Appends a list. -/
def add (p : Pool β) (xs : List β) : Slice β × Pool β :=
  (⟨p.items.size, xs.length⟩, ⟨p.items ++ xs⟩)

/-- The list at a slice. -/
def list (p : Pool β) (s : Slice β) : List β :=
  (p.items.extract s.start (s.start + s.length)).toList

/-- The item number `i` of the list at a slice. -/
def get? (p : Pool β) (s : Slice β) (i : Nat) : Option β :=
  if i < s.length then p.items[s.start + i]? else none

/-- Replaces item number `i` of the list at a slice, if there is one. -/
def set? (p : Pool β) (s : Slice β) (i : Nat) (x : β) : Option (Pool β) :=
  if h : i < s.length ∧ s.start + i < p.items.size then
    some ⟨p.items.set (s.start + i) x h.2⟩
  else none

/-! ### What the operations do to the lists -/

theorem get?_eq_getElem? (p : Pool β) (s : Slice β) (i : Nat) : p.get? s i = (p.list s)[i]? := by
  rw [get?, list, Array.getElem?_toList, Array.getElem?_extract]
  by_cases hs : i < s.length
  · by_cases hp : s.start + i < p.items.size
    · rw [if_pos hs, if_pos (by omega)]
    · rw [if_pos hs, if_neg (by omega), Array.getElem?_eq_none (by omega)]
  · rw [if_neg hs, if_neg (by omega)]

@[simp] theorem list_add (p : Pool β) (xs : List β) : (p.add xs).2.list (p.add xs).1 = xs := by
  simp [add, list]

/-- The list at a slice is a window of the list of all items. -/
theorem list_eq_take_drop (p : Pool β) (s : Slice β) :
    p.list s = (p.items.toList.drop s.start).take s.length := by
  rw [list, Array.toList_extract, List.extract_eq_take_drop, Nat.add_sub_cancel_left]

/-- Lists that are in a pool already do not change when another one is added. -/
theorem list_add_of_le {p : Pool β} {s : Slice β} (h : s.start + s.length ≤ p.items.size)
    (xs : List β) : (p.add xs).2.list s = p.list s := by
  have hstart : s.start ≤ p.items.toList.length := by simp only [Array.length_toList]; omega
  have hlength : s.length ≤ (p.items.toList.drop s.start).length := by
    simp only [List.length_drop, Array.length_toList]; omega
  rw [list_eq_take_drop, list_eq_take_drop]
  simp only [add, Array.toList_appendList]
  rw [List.drop_append_of_le_length hstart, List.take_append_of_le_length hlength]

theorem list_set? {p p' : Pool β} {s : Slice β} {i : Nat} {x : β} (h : p.set? s i x = some p') :
    p'.list s = (p.list s).set i x := by
  unfold set? at h
  split at h
  · rename_i hi
    cases h
    apply List.ext_getElem?
    intro j
    rw [← get?_eq_getElem?, List.getElem?_set, ← get?_eq_getElem?]
    simp only [get?]
    grind [list]
  · cases h

/-- A replaced item does not show in lists at other slices. -/
theorem list_set?_of_disjoint {p p' : Pool β} {s t : Slice β} {i : Nat} {x : β}
    (h : p.set? s i x = some p')
    (disjoint : t.start + t.length ≤ s.start ∨ s.start + s.length ≤ t.start) :
    p'.list t = p.list t := by
  unfold set? at h
  split at h
  · rename_i hi
    cases h
    apply List.ext_getElem?
    intro j
    rw [← get?_eq_getElem?, ← get?_eq_getElem?]
    simp only [get?]
    grind
  · cases h

theorem set?_isSome (p : Pool β) (s : Slice β) (i : Nat) (x : β) :
    (p.set? s i x).isSome = (p.get? s i).isSome := by
  simp only [set?, get?]
  grind

end Pool

end Recast
