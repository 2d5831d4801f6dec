import Recast.Proofs.Repair.Insert

/-!
# Slots that have nothing in common

Most slots are items of a list: a node holds a slice of the pool at some place, and the slot has an
index in it. All lists share the pool, so a slot keeps its expression when another one gets a new
one only if the slices at different places do not overlap. Given that, nothing changes but the slot.
-/

namespace Recast

/-! ### Items of a pool -/

/-- No item belongs to both slices. -/
def Slice.Apart {β : Type} (x y : Slice β) : Prop :=
  ∀ i j, i < x.length → j < y.length → x.start + i ≠ y.start + j

section Pools

variable {β : Type} {x y : Slice β} {p p' : Pool β} {i j : Nat} {b : β}

instance : Std.Symm (@Slice.Apart β) where
  symm _ _ h i j hi hj e := h j i hj hi e.symm

theorem Slice.apart_of_length (h : x.length = 0) (y : Slice β) : x.Apart y := by
  intro i j hi
  omega

theorem Pool.get?_set?_self (h : p.set? x i b = some p') : p'.get? x i = some b := by
  unfold set? at h
  split at h
  · rename_i hi
    cases h
    simp [get?, hi.1]
  · cases h

/-- Only the item that is replaced changes. -/
theorem Pool.get?_set?_of_ne (h : p.set? x i b = some p')
    (hne : i < x.length → j < y.length → x.start + i ≠ y.start + j) :
    p'.get? y j = p.get? y j := by
  unfold set? at h
  split at h
  · rename_i hi
    cases h
    by_cases hj : j < y.length
    · rw [get?, get?, if_pos hj, if_pos hj]
      exact Array.getElem?_set_ne hi.2 (hne hi.1 hj)
    · rw [get?, get?, if_neg hj, if_neg hj]
  · cases h

theorem Pool.list_set?_of_apart (h : p.set? x i b = some p') (apart : x.Apart y) :
    p'.list y = p.list y := by
  apply List.ext_getElem?
  intro j
  rw [← get?_eq_getElem?, ← get?_eq_getElem?]
  exact get?_set?_of_ne h (apart i j)

end Pools

/-! ### Places of lists -/

/-- A place in a node that holds a list of expressions. -/
inductive ListPlace where
  | args (call : ExprId)
  | varValues (stmt : StmtId)
  | targets (stmt : StmtId)
  | assignValues (stmt : StmtId)
  | results (stmt : StmtId)
deriving DecidableEq, Repr

/-- The place of the list in which a slot stands, and the index in the list. -/
def Slot.place? : Slot → Option (ListPlace × Nat)
  | .varValue id index => some (.varValues id, index)
  | .callArg id index => some (.args id, index)
  | .assignValue id index => some (.assignValues id, index)
  | .returnValue id index => some (.results id, index)
  | .operand .. => none

/-- Slots are different if their places or their indices are. -/
theorem Slot.place?_inj {slot slot' : Slot} {place : ListPlace} {i : Nat}
    (h : slot.place? = some (place, i)) (h' : slot'.place? = some (place, i)) : slot = slot' := by
  cases slot <;> cases h <;> cases slot' <;> cases h' <;> rfl

namespace Store

/-- The slice that is held at a place, if the node has the expected form. -/
def sliceAt? (s : Store) : ListPlace → Option (Slice ExprId)
  | .args id =>
    match s.exprs[id]? with
    | some ⟨.call _ args, _⟩ => some args
    | _ => none
  | .varValues id =>
    match s.stmts[id]? with
    | some ⟨.var _ _ values, _⟩ => some values
    | _ => none
  | .targets id =>
    match s.stmts[id]? with
    | some ⟨.assign targets _, _⟩ => some targets
    | _ => none
  | .assignValues id =>
    match s.stmts[id]? with
    | some ⟨.assign _ values, _⟩ => some values
    | _ => none
  | .results id =>
    match s.stmts[id]? with
    | some ⟨.ret results, _⟩ => some results
    | _ => none

/-- The list at a place, if the node has the expected form. -/
def listAt? (s : Store) (place : ListPlace) : Option (List ExprId) :=
  (s.sliceAt? place).map s.exprLists.list

/-- No item belongs to the lists of two places. -/
def ListsApart (s : Store) : Prop :=
  ∀ place place' x y, place ≠ place' → s.sliceAt? place = some x → s.sliceAt? place' = some y →
    x.Apart y

variable {s t : Store} {slot other : Slot} {place : ListPlace} {i : Nat} {e : ExprId}

theorem listPosition?_of_place? (h : slot.place? = some (place, i)) :
    s.listPosition? slot = (s.sliceAt? place).map (·, i) := by
  cases slot <;> cases h <;> simp only [listPosition?, sliceAt?] <;> split <;> simp [*]

theorem slot?_of_place? (h : slot.place? = some (place, i)) :
    s.slot? slot = (s.sliceAt? place).bind fun slice => s.exprLists.get? slice i := by
  have hpos := listPosition?_of_place? (s := s) h
  cases slot with
  | operand => cases h
  | _ =>
    simp only [slot?, hpos]
    cases s.sliceAt? place <;> rfl

theorem setSlot?_of_place? (h : slot.place? = some (place, i)) (e : ExprId) :
    s.setSlot? slot e = (s.sliceAt? place).bind fun slice =>
      (s.exprLists.set? slice i e).map fun exprLists => { s with exprLists } := by
  have hpos := listPosition?_of_place? (s := s) h
  cases slot with
  | operand => cases h
  | _ =>
    simp only [setSlot?, hpos]
    cases s.sliceAt? place <;> rfl

/-- All that putting an expression into a slot can do: it replaces an operand of a binary
expression, or an item of the pool. -/
theorem setSlot?_cases (h : s.setSlot? slot e = some t) :
    (∃ id side op left right span, slot = .operand id side ∧
      s.exprs[id]? = some ⟨.binary op left right, span⟩ ∧
      t = { s with exprs := s.exprs.setIfInBounds id ⟨operandShape op left right e side, span⟩ }) ∨
    ∃ place i slice exprLists, slot.place? = some (place, i) ∧ s.sliceAt? place = some slice ∧
      s.exprLists.set? slice i e = some exprLists ∧ t = { s with exprLists } := by
  cases hplace : slot.place? with
  | some p =>
    obtain ⟨place, i⟩ := p
    rw [setSlot?_of_place? hplace] at h
    obtain ⟨slice, hslice, h⟩ := Option.bind_eq_some_iff.1 h
    obtain ⟨exprLists, hset, rfl⟩ := Option.map_eq_some_iff.1 h
    exact .inr ⟨place, i, slice, exprLists, rfl, hslice, hset, rfl⟩
  | none =>
    cases slot with
    | operand id side =>
      have hget : s.exprs[id]? ≠ none := by
        intro hn
        rw [setSlot?, hn] at h
        cases h
      obtain ⟨⟨shape, span⟩, hn⟩ := Option.ne_none_iff_exists'.1 hget
      cases shape with
      | binary op left right =>
        rw [setSlot?_operand hn] at h
        exact .inl ⟨id, side, op, left, right, span, rfl, hn, (Option.some.inj h).symm⟩
      | _ =>
        rw [setSlot?, hn] at h
        cases h
    | _ => cases hplace

theorem setSlot?_eq_none_iff : s.setSlot? slot e = none ↔ s.slot? slot = none := by
  cases hplace : slot.place? with
  | some p =>
    obtain ⟨place, i⟩ := p
    rw [setSlot?_of_place? hplace, slot?_of_place? hplace]
    cases s.sliceAt? place with
    | none => exact ⟨fun _ => rfl, fun _ => rfl⟩
    | some slice =>
      have hsome := s.exprLists.set?_isSome slice i e
      rw [Option.bind_some, Option.bind_some, Option.map_eq_none_iff,
        ← Option.not_isSome_iff_eq_none, ← Option.not_isSome_iff_eq_none, hsome]
  | none =>
    cases slot with
    | operand id side =>
      simp only [setSlot?, slot?]
      split
      · cases side <;> simp
      · simp
    | _ => cases hplace

/-- The slot holds what was put into it. -/
theorem slot?_setSlot?_self (h : s.setSlot? slot e = some t) : t.slot? slot = some e := by
  rcases setSlot?_cases h with ⟨id, side, op, left, right, span, rfl, hn, rfl⟩ |
    ⟨place, i, slice, exprLists, hplace, hslice, hset, rfl⟩
  · have hlt := (Array.getElem?_eq_some_iff.1 hn).1
    rw [slot?, Array.getElem?_setIfInBounds_self_of_lt hlt]
    cases side <;> rfl
  · rw [slot?_of_place? hplace]
    show (s.sliceAt? place).bind _ = _
    rw [hslice]
    exact Pool.get?_set?_self hset

/-- Nodes keep their lists. -/
theorem sliceAt?_setSlot? (h : s.setSlot? slot e = some t) (place : ListPlace) :
    t.sliceAt? place = s.sliceAt? place := by
  rcases setSlot?_cases h with ⟨id, side, op, left, right, span, rfl, hn, rfl⟩ |
    ⟨_, _, _, _, -, -, -, rfl⟩
  · cases place with
    | args call =>
      by_cases hcall : id = call
      · subst hcall
        have hlt := (Array.getElem?_eq_some_iff.1 hn).1
        simp only [sliceAt?, Array.getElem?_setIfInBounds_self_of_lt hlt, hn]
        cases side <;> rfl
      · simp only [sliceAt?, Array.getElem?_setIfInBounds_ne hcall]
    | _ => rfl
  · cases place <;> rfl

/-- Where lists do not overlap, a slot keeps its expression when another one gets a new one. -/
theorem slot?_setSlot?_of_ne (apart : s.ListsApart) (h : s.setSlot? slot e = some t)
    (hne : other ≠ slot) : t.slot? other = s.slot? other := by
  have hslices := sliceAt?_setSlot? h
  rcases setSlot?_cases h with ⟨id, side, op, left, right, span, rfl, hn, rfl⟩ |
    ⟨place, i, slice, exprLists, hplace, hslice, hset, rfl⟩
  · cases hother : other.place? with
    | some p => rw [slot?_of_place? hother, slot?_of_place? hother, hslices]
    | none =>
      cases other with
      | operand id' side' =>
        by_cases hid : id = id'
        · subst hid
          have hlt := (Array.getElem?_eq_some_iff.1 hn).1
          simp only [slot?, Array.getElem?_setIfInBounds_self_of_lt hlt, hn]
          -- the two slots are the two sides of one expression
          cases side <;> cases side' <;> first | rfl | exact absurd rfl hne
        · simp only [slot?, Array.getElem?_setIfInBounds_ne hid]
      | _ => cases hother
  · cases hother : other.place? with
    | none =>
      cases other with
      | operand => rfl
      | _ => cases hother
    | some p =>
      obtain ⟨place', j⟩ := p
      rw [slot?_of_place? hother, slot?_of_place? hother, hslices]
      cases hslice' : s.sliceAt? place' with
      | none => rfl
      | some slice' =>
        refine Pool.get?_set?_of_ne hset ?_
        intro hi hj
        by_cases hp : place = place'
        · subst hp
          cases hslice.symm.trans hslice'
          intro hij
          obtain rfl : i = j := by omega
          exact hne (Slot.place?_inj hother hplace)
        · exact apart place place' slice slice' hp hslice hslice' i j hi hj

theorem listAt?_setSlot?_of_ne (apart : s.ListsApart) (h : s.setSlot? slot e = some t)
    (hne : ∀ i, slot.place? ≠ some (place, i)) : t.listAt? place = s.listAt? place := by
  have hslice' := sliceAt?_setSlot? h place
  rw [listAt?, listAt?, hslice']
  rcases setSlot?_cases h with ⟨_, _, _, _, _, _, -, -, rfl⟩ |
    ⟨place', i, slice, exprLists, hplace, hslice, hset, rfl⟩
  · rfl
  · cases hx : s.sliceAt? place with
    | none => rfl
    | some x =>
      have hplaces : place' ≠ place := by
        intro e
        exact hne i (by rw [hplace, e])
      exact congrArg some
        (Pool.list_set?_of_apart hset (apart place' place slice x hplaces hslice hx))

/-! ### What stays -/

theorem sameFrame_setSlot? (h : s.setSlot? slot e = some t) : SameFrame s t := by
  rcases setSlot?_cases h with ⟨_, _, _, _, _, _, -, -, rfl⟩ | ⟨_, _, _, _, -, -, -, rfl⟩
  · exact ⟨Array.size_setIfInBounds, rfl, rfl, rfl, rfl, rfl, rfl⟩
  · exact ⟨rfl, rfl, rfl, rfl, rfl, rfl, rfl⟩

theorem stmts_setSlot? (h : s.setSlot? slot e = some t) : t.stmts = s.stmts := by
  rcases setSlot?_cases h with ⟨_, _, _, _, _, _, -, -, rfl⟩ | ⟨_, _, _, _, -, -, -, rfl⟩
  · rfl
  · rfl

theorem size_exprLists_setSlot? (h : s.setSlot? slot e = some t) :
    t.exprLists.items.size = s.exprLists.items.size := by
  rcases setSlot?_cases h with ⟨_, _, _, _, _, _, -, -, rfl⟩ | ⟨_, _, _, _, -, -, hset, rfl⟩
  · rfl
  · exact Pool.size_set? hset

/-- The stores differ in the expression of one slot at most. -/
structure SameBut (slot : Slot) (s t : Store) : Prop extends SameFrame s t where
  slots : ∀ other, other ≠ slot → t.slot? other = s.slot? other
  lists : ∀ place, (∀ i, slot.place? ≠ some (place, i)) → t.listAt? place = s.listAt? place
  lengths : ∀ slice, (t.exprLists.list slice).length = (s.exprLists.list slice).length
  exprs : ∀ id, (∀ side, slot ≠ .operand id side) → t.exprs[id]? = s.exprs[id]?
  stmts : t.stmts = s.stmts
  nameLists : t.nameLists = s.nameLists

theorem sameBut_setSlot? (apart : s.ListsApart) (h : s.setSlot? slot e = some t) :
    SameBut slot s t where
  toSameFrame := sameFrame_setSlot? h
  slots _ hne := slot?_setSlot?_of_ne apart h hne
  lists _ hne := listAt?_setSlot?_of_ne apart h hne
  stmts := stmts_setSlot? h
  lengths slice := by
    have hsize := size_exprLists_setSlot? h
    simp only [Pool.list, Array.length_toList, Array.size_extract, hsize]
  exprs id hne := by
    rcases setSlot?_cases h with ⟨id', side, _, _, _, _, rfl, -, rfl⟩ | ⟨_, _, _, _, -, -, -, rfl⟩
    · apply Array.getElem?_setIfInBounds_ne
      intro hid
      exact hne side (by rw [hid])
    · rfl
  nameLists := by
    rcases setSlot?_cases h with ⟨_, _, _, _, _, _, -, -, rfl⟩ | ⟨_, _, _, _, -, -, -, rfl⟩
    · rfl
    · rfl

end Store

end Recast
