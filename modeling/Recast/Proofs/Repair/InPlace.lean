import Recast.Proofs.Repair.Insert
import Recast.Repair.Perform

/-!
# Repairs performed in place

`Repair.perform?` yields the changed store or nothing. One who works in place has no earlier store
to go back to: the nodes of a conversion are appended before the slot is written, and all that comes
back is whether the tree changed. `Repair.performInPlace` works in that way. A slot that can be read
can also be written after the nodes were appended, so a repair in place that changes nothing leaves
nothing behind either.
-/

namespace Recast

variable {s t : Store} {slot : Slot} {current : ExprId} {rules : RuleTable} {q : TypeOracle}

/-! ### Slots after new nodes -/

theorem Pool.get?_add {β : Type} {p : Pool β} {slice : Slice β} {i : Nat} {x : β}
    (h : p.get? slice i = some x) (xs : List β) : (p.add xs).2.get? slice i = some x := by
  unfold get? at h ⊢
  split at h
  · rename_i hi
    obtain ⟨hlt, -⟩ := Array.getElem?_eq_some_iff.1 h
    rw [if_pos hi, ← Array.getElem?_toList]
    simp only [add, Array.toList_appendList]
    rw [List.getElem?_append_left (by simpa using hlt), Array.getElem?_toList]
    exact h
  · cases h

theorem Store.extends_addConversion (s : Store) (name : String) (arg : ExprId) :
    Extends s (s.addConversion name arg).2 := by
  unfold addConversion
  dsimp only
  exact (addsExpr s _ _).2.extends_.trans (addsExpr (s.addExpr _ _).2 _ _).2.extends_

/-- A slot keeps its expression when a conversion is appended. -/
theorem Store.slot?_addConversion (h : s.slot? slot = some current) (name : String)
    (arg : ExprId) : (s.addConversion name arg).2.slot? slot = some current := by
  have hext := s.extends_addConversion name arg
  by_cases hlist : ∀ id side, slot ≠ .operand id side
  · obtain ⟨slice, i, lists, hp, hg, -, -⟩ := setSlot?_list hlist h current
    have hget : (s.addConversion name arg).2.exprLists.get? slice i = some current :=
      Pool.get?_add hg [arg]
    have hslot : (s.addConversion name arg).2.slot? slot
        = ((s.addConversion name arg).2.listPosition? slot).bind
            fun p => (s.addConversion name arg).2.exprLists.get? p.1 p.2 := by
      cases slot with
      | operand id side => exact absurd rfl (hlist id side)
      | _ => rfl
    rw [hslot, hext.listPosition? hp]
    exact hget
  · simp only [not_forall, not_not] at hlist
    obtain ⟨id, side, rfl⟩ := hlist
    obtain ⟨op, left, right, span, hn, hside⟩ := exists_binary_of_slot? h
    rw [slot?, hext.exprs hn, ← hside]
    cases side <;> rfl

/-- A slot that can be read can be given a new conversion. -/
theorem Store.exists_setSlot?_addConversion (h : s.slot? slot = some current) (name : String) :
    let conversion := s.addConversion name current
    ∃ t, conversion.2.setSlot? slot conversion.1 = some t := by
  obtain ⟨t, ht, -⟩ := exists_setSlot? (slot?_addConversion h name current)
    (s.addConversion name current).1
  exact ⟨t, ht⟩

/-! ### What a repair comes to -/

namespace Repair

/-- Whether the value in a slot stands in the conversion to `target` of a value of type `source`
already. -/
def isConverted (q : TypeOracle) (s : Store) (current : ExprId) (target source : String) : Bool :=
  match s.conversion? current with
  | some (callee, arg) => callee == target && q.typeOf s arg == some source
  | none => false

theorem wrap?_eq (q : TypeOracle) (s : Store) (slot : Slot) (target source : String) :
    wrap? q s slot target source = (s.slot? slot).bind fun current =>
      if isConverted q s current target source then none
      else
        let conversion := s.addConversion target current
        conversion.2.setSlot? slot conversion.1 := by
  unfold wrap?
  cases s.slot? slot <;> rfl

/-- A slot that is to be wrapped, the type to convert its value to, and the type that the value
has. -/
structure Edit where
  slot : Slot
  target : String
  source : String

/-- The edit that a repair comes to in a store. -/
def edit? (rules : RuleTable) (q : TypeOracle) (s : Store) : Repair → Option Edit
  | convert slot target source condition? =>
    if conditionHolds q s slot condition? then some ⟨slot, target, source⟩ else none
  | balance id =>
    match s.exprs[id]? with
    | some ⟨.binary _ left right, _⟩ =>
      match q.typeOf s left, q.typeOf s right with
      | some l, some r =>
        match Direction.choose (allowed? rules q r l) (allowed? rules q l r) with
        | some .rightToLeft => some ⟨.operand id .right, l, r⟩
        | some .leftToRight => some ⟨.operand id .left, r, l⟩
        | none => none
      | _, _ => none
    | _ => none

/-- A repair wraps one slot, if any. -/
theorem perform?_eq (rules : RuleTable) (q : TypeOracle) (s : Store) (repair : Repair) :
    repair.perform? rules q s
      = (repair.edit? rules q s).bind fun edit => wrap? q s edit.slot edit.target edit.source := by
  cases repair with
  | convert slot target source condition? =>
    rw [perform?, edit?]
    split <;> rfl
  | balance id =>
    rw [perform?, balance?, edit?]
    rcases s.exprs[id]? with _ | ⟨shape, span⟩
    · rfl
    cases shape with
    | binary op left right =>
      dsimp only
      rcases q.typeOf s left with _ | l
      · rfl
      rcases q.typeOf s right with _ | r
      · rfl
      dsimp only
      rcases Direction.choose (allowed? rules q r l) (allowed? rules q l r) with _ | _ | _ <;> rfl
    | _ => rfl

/-- What a repair that changes the store does: it puts a new conversion into a slot that can be
read. -/
theorem exists_of_perform? {repair : Repair} (h : repair.perform? rules q s = some t) :
    ∃ slot target current, s.slot? slot = some current ∧
      let conversion := s.addConversion target current
      conversion.2.setSlot? slot conversion.1 = some t := by
  rw [perform?_eq] at h
  obtain ⟨edit, -, h⟩ := Option.bind_eq_some_iff.1 h
  rw [wrap?_eq] at h
  obtain ⟨current, hget, h⟩ := Option.bind_eq_some_iff.1 h
  rw [Option.ite_none_left_eq_some] at h
  exact ⟨edit.slot, edit.target, current, hget, h.2⟩

/-! ### In place -/

/-- Puts a conversion around the value in a slot. The nodes of the conversion are appended first. -/
def wrapInPlace (q : TypeOracle) (s : Store) (edit : Edit) : Store × Bool :=
  match s.slot? edit.slot with
  | none => (s, false)
  | some current =>
    if isConverted q s current edit.target edit.source then (s, false)
    else
      let (call, s) := s.addConversion edit.target current
      match s.setSlot? edit.slot call with
      | some t => (t, true)
      | none => (s, false)

/-- Performs a repair in place, and tells whether the tree changed. -/
def performInPlace (rules : RuleTable) (q : TypeOracle) (s : Store) (repair : Repair) :
    Store × Bool :=
  match repair.edit? rules q s with
  | some edit => wrapInPlace q s edit
  | none => (s, false)

theorem wrapInPlace_eq (q : TypeOracle) (s : Store) (edit : Edit) :
    wrapInPlace q s edit = match wrap? q s edit.slot edit.target edit.source with
      | some t => (t, true)
      | none => (s, false) := by
  rw [wrap?_eq, wrapInPlace]
  cases hget : s.slot? edit.slot with
  | none => rfl
  | some current =>
    rw [Option.bind_some]
    dsimp only
    by_cases hconverted : isConverted q s current edit.target edit.source
    · rw [if_pos hconverted, if_pos hconverted]
    · obtain ⟨t, ht⟩ := Store.exists_setSlot?_addConversion hget edit.target
      rw [if_neg hconverted, if_neg hconverted, ht]

/-- A repair in place does what the repair does, and where that changes nothing it leaves the store
as it was. -/
theorem performInPlace_eq (rules : RuleTable) (q : TypeOracle) (s : Store) (repair : Repair) :
    repair.performInPlace rules q s = match repair.perform? rules q s with
      | some t => (t, true)
      | none => (s, false) := by
  rw [performInPlace, perform?_eq]
  cases repair.edit? rules q s with
  | none => rfl
  | some edit => exact wrapInPlace_eq q s edit

end Repair

/-- Performs one more repair in place and counts it. -/
def performNextInPlace (rules : RuleTable) (q : TypeOracle) (state : Store × RepairReport)
    (repair : Repair) : Store × RepairReport :=
  let (s, changed) := repair.performInPlace rules q state.1
  (s, state.2.count changed)

/-- Performs repairs in order, in place. -/
def performAllInPlace (rules : RuleTable) (q : TypeOracle) (s : Store) (repairs : List Repair) :
    Store × RepairReport :=
  repairs.foldl (performNextInPlace rules q) (s, .none)

theorem performNextInPlace_eq (rules : RuleTable) (q : TypeOracle) :
    performNextInPlace rules q = performNext rules q := by
  funext state repair
  rw [performNextInPlace, performNext, Repair.performInPlace_eq]
  cases repair.perform? rules q state.1 <;> rfl

/-- To perform repairs in place is to perform them. -/
theorem performAllInPlace_eq (rules : RuleTable) (q : TypeOracle) (s : Store)
    (repairs : List Repair) :
    performAllInPlace rules q s repairs = performAll rules q s repairs := by
  rw [performAllInPlace, performNextInPlace_eq, performAll]

end Recast
