import Recast.Proofs.Guard.Bounds
import Recast.Proofs.Guard.Build
import Recast.Proofs.Guard.Plan
import Recast.Proofs.Repair.Contract

/-!
# Guarded repairs

Repairs with a guard for each node and each list to which they come, and for the room for what they
add. One after another they are performed as they are without guards: the store remains a tree, so it
stays within bounds, and the nodes that repairs name stay in it.
-/

namespace Recast

variable {α β : Type}

namespace Guarded

/-! ### Slots and conversions -/

/-- Makes sure that there is an entry of an array, if a number is given. -/
def requireEntry (xs : Array β) : Option Nat → Guarded Unit
  | some i => do
    let _ ← entry xs i
    return
  | none => return

/-- Makes sure that the node of a slot is there, and the list in which the slot stands. -/
def requireSlot (s : Store) (slot : Slot) : Guarded Unit := do
  requireEntry s.exprs slot.expr?
  requireEntry s.stmts slot.stmt?
  match s.listPosition? slot with
  | some (list, _) => do
    let _ ← s.exprLists.read list
    return
  | none => return

/-- The expression in a slot, if the slot exists. -/
def slot? (s : Store) (slot : Slot) : Guarded (Option ExprId) := do
  requireSlot s slot
  return s.slot? slot

/-- Puts an expression into a slot, if the slot exists. -/
def setSlot? (s : Store) (slot : Slot) (e : ExprId) : Guarded (Option Store) := do
  requireSlot s slot
  return s.setSlot? slot e

/-- The callee's text and the argument of a call with one argument whose callee is a name. -/
def conversion? (s : Store) (id : ExprId) : Guarded (Option (String × ExprId)) := do
  let node ← entry s.exprs id
  match node.shape with
  | .call callee args => do
    let _ ← entry s.exprs callee
    let _ ← s.exprLists.read args
    return s.conversion? id
  | _ => return none

/-- Appends the call `typeName(arg)`. -/
def addConversion (s : Store) (typeName : String) (arg : ExprId) : Guarded (ExprId × Store) := do
  let node ← entry s.exprs arg
  let (callee, s) ← addExpr s (.name typeName) ⟨node.span.start, node.span.start⟩
  addExpr s (.call callee [arg]) node.span

/-! ### Repairs -/

section

variable (rules : RuleTable) (info : TypeInfo) (s : Store)

/-- Whether the value in a slot stands in the conversion to `target` of a value of type `source`
already. -/
def isConverted (current : ExprId) (target source : String) : Guarded Bool := do
  match ← conversion? s current with
  | some (callee, arg) => do
    let type? ← typeOf info s arg
    return callee == target && type? == some source
  | none => return false

/-- The store with a conversion around the value in a slot. -/
def wrap? (edit : Repair.Edit) : Guarded (Option Store) := do
  match ← slot? s edit.slot with
  | none => return none
  | some current => do
    if ← isConverted info s current edit.target edit.source then return none
    else
      let (call, s) ← addConversion s edit.target current
      setSlot? s edit.slot call

/-- The type of the value in a slot. -/
def typeIn (slot : Slot) : Guarded (Option String) := do
  match ← slot? s slot with
  | some current => typeOf info s current
  | none => return none

/-- Whether the value in a slot is convertible to the type of an expression, if one is given. -/
def conditionHolds (slot : Slot) : Option ExprId → Guarded Bool
  | none => return true
  | some goal => do
    let source? ← typeIn info s slot
    let target? ← typeOf info s goal
    match source?, target? with
    | some source, some target => return info.oracle.convertible source target
    | _, _ => return false

/-- The edit that a repair comes to in a store. -/
def edit? : Repair → Guarded (Option Repair.Edit)
  | .convert slot target source condition? => do
    if ← conditionHolds info s slot condition? then return some ⟨slot, target, source⟩
    else return none
  | .balance id => do
    let node ← entry s.exprs id
    match node.shape with
    | .binary _ left right => do
      let l? ← typeOf info s left
      let r? ← typeOf info s right
      match l?, r? with
      | some l, some r =>
        match Direction.choose (Repair.allowed? rules info.oracle r l)
            (Repair.allowed? rules info.oracle l r) with
        | some .rightToLeft => return some ⟨.operand id .right, l, r⟩
        | some .leftToRight => return some ⟨.operand id .left, r, l⟩
        | none => return none
      | _, _ => return none
    | _ => return none

/-- The store after a repair, if the repair changes it. -/
def perform? (repair : Repair) : Guarded (Option Store) := do
  match ← edit? rules info s repair with
  | some edit => wrap? info s edit
  | none => return none

end

/-- Performs one more repair and counts it. -/
def performNext (rules : RuleTable) (info : TypeInfo) (state : Store × RepairReport)
    (repair : Repair) : Guarded (Store × RepairReport) := do
  match ← perform? rules info state.1 repair with
  | some s => return (s, state.2.count true)
  | none => return (state.1, state.2.count false)

/-- Performs repairs in order. -/
def performAll (rules : RuleTable) (info : TypeInfo) (s : Store) (repairs : List Repair) :
    Guarded (Store × RepairReport) :=
  repairs.foldlM (performNext rules info) (s, .none)

end Guarded

/-! ### Slots that can be reached -/

/-- The node of a slot is in the store, and the list in which the slot stands is within bounds. -/
structure Store.Reaches (s : Store) (slot : Slot) : Prop extends slot.InStore s where
  list : ∀ {slice i}, s.listPosition? slot = some (slice, i) → s.exprLists.Covers slice

namespace Store

variable {s t : Store} {slot : Slot} {current : ExprId}

/-- In a store within bounds each slot of a node can be reached. -/
theorem InBounds.reaches (h : s.InBounds) (hslot : slot.InStore s) : s.Reaches slot where
  toInStore := hslot
  list {slice i} hp := by
    cases slot with
    | operand => cases hp
    | varValue | assignValue =>
      rw [listPosition?] at hp
      split at hp
      · rename_i hnode
        cases hp
        exact (h.stmts hnode).2.1
      · cases hp
    | returnValue =>
      rw [listPosition?] at hp
      split at hp
      · rename_i hnode
        cases hp
        exact (h.stmts hnode).1
      · cases hp
    | callArg =>
      rw [listPosition?] at hp
      split at hp
      · rename_i hnode
        cases hp
        exact (h.exprs hnode).2.1
      · cases hp

/-- A slot that can be read can be reached in a store that extends the store. -/
theorem Reaches.extend (h : s.Reaches slot) (hget : s.slot? slot = some current)
    (hext : Extends s t) (hstmts : s.stmts.size ≤ t.stmts.size) : t.Reaches slot where
  expr id hid := Nat.lt_of_lt_of_le (h.expr id hid) hext.size
  stmt id hid := Nat.lt_of_lt_of_le (h.stmt id hid) hstmts
  list {slice i} hp := by
    have hlist : ∀ id side, slot ≠ .operand id side := by
      rintro id side rfl
      cases hp
    obtain ⟨slice', i', _, hp', -⟩ := setSlot?_list hlist hget current
    obtain rfl : slice' = slice := by
      have := (hext.listPosition? hp').symm.trans hp
      cases this
      rfl
    exact (hext.exprLists ⟨h.list hp', rfl⟩).bound

theorem InBounds.arg_lt_of_conversion? (h : s.InBounds) {id arg : ExprId} {callee : String}
    (hc : s.conversion? id = some (callee, arg)) : arg < s.exprs.size := by
  unfold conversion? at hc
  split at hc
  · rename_i calleeId args span hnode
    split at hc
    · rename_i hlist
      cases hc
      exact (h.exprs hnode).2.2 arg (by rw [hlist]; exact List.mem_singleton_self arg)
    · cases hc
  · cases hc

end Store

/-- The slot that a repair comes to is in the store. -/
theorem Repair.InStore.slot_of_edit? {s : Store} {repair : Repair} {rules : RuleTable}
    {q : TypeOracle} {edit : Repair.Edit} (h : repair.InStore s)
    (hedit : repair.edit? rules q s = some edit) : edit.slot.InStore s := by
  have operand (id : ExprId) (hid : id < s.exprs.size) (side : Side) :
      (Slot.operand id side).InStore s := by
    refine ⟨fun id' hid' => ?_, fun _ hid' => nomatch hid'⟩
    obtain rfl := Option.some.inj hid'
    exact hid
  cases repair with
  | convert slot target source condition? =>
    rw [edit?, Option.ite_none_right_eq_some] at hedit
    obtain rfl := Option.some.inj hedit.2
    exact h.1
  | balance id =>
    rw [edit?] at hedit
    repeat' split at hedit
    all_goals first | cases hedit; exact operand id h _ | cases hedit

namespace Yields

variable {s t : Store} {slot : Slot} {info : TypeInfo}

/-! ### Slots and conversions -/

theorem requireEntry {xs : Array β} {i? : Option Nat} (h : ∀ i ∈ i?, i < xs.size) :
    Yields (Guarded.requireEntry xs i?) () := by
  cases i? with
  | none => exact pure ()
  | some i => exact (entry (Array.getElem?_eq_getElem (h i rfl))).bind (pure ())

theorem read {p : Pool β} {slice : Slice β} (h : p.Covers slice) :
    Yields (p.read slice) (p.list slice) :=
  Pool.Keeps.read ⟨h, rfl⟩

theorem requireSlot (h : s.Reaches slot) : Yields (Guarded.requireSlot s slot) () := by
  refine (requireEntry h.expr).bind ((requireEntry h.stmt).bind ?_)
  cases hp : s.listPosition? slot with
  | none => exact pure ()
  | some position => exact (read (h.list hp)).bind (pure ())

theorem slot? (h : s.Reaches slot) : Yields (Guarded.slot? s slot) (s.slot? slot) :=
  (requireSlot h).bind (pure _)

theorem setSlot? (h : s.Reaches slot) (e : ExprId) :
    Yields (Guarded.setSlot? s slot e) (s.setSlot? slot e) :=
  (requireSlot h).bind (pure _)

theorem conversion? (h : s.InBounds) {id : ExprId} (hid : id < s.exprs.size) :
    Yields (Guarded.conversion? s id) (s.conversion? id) := by
  obtain ⟨⟨shape, span⟩, hnode⟩ : ∃ node, s.exprs[id]? = some node :=
    ⟨_, Array.getElem?_eq_getElem hid⟩
  have hbounds := h.exprs hnode
  refine (entry hnode).bind ?_
  cases shape with
  | call callee args =>
    have hcallee := entry (Array.getElem?_eq_getElem hbounds.1)
    exact hcallee.bind ((read hbounds.2.1).bind (pure _))
  | _ =>
    rw [Store.conversion?, hnode]
    exact pure none

theorem addConversion {arg : ExprId} (harg : arg < s.exprs.size) (typeName : String) :
    Yields (Guarded.addConversion s typeName arg) (s.addConversion typeName arg) := by
  have hnode := Array.getElem?_eq_getElem harg
  rw [Store.addConversion, hnode]
  exact (entry hnode).bind ((addExpr rfl _).bind (addExpr rfl _))

/-! ### Repairs -/

section

variable (h : s.Holding s.program)
include h

theorem typeOfId {id : ExprId} (hid : id < s.exprs.size) :
    Yields (Guarded.typeOf info s id) (info.oracle.typeOf s id) := by
  obtain ⟨e, he, rfl⟩ := h.covered id hid
  exact typeOf h.toRepresents info he

theorem isConverted {current : ExprId} (hcurrent : current < s.exprs.size)
    (target source : String) :
    Yields (Guarded.isConverted info s current target source)
      (Repair.isConverted info.oracle s current target source) := by
  unfold Guarded.isConverted Repair.isConverted
  refine (conversion? h.inBounds hcurrent).bind ?_
  cases hc : s.conversion? current with
  | none => exact pure false
  | some conversion =>
    obtain ⟨callee, arg⟩ := conversion
    exact (typeOfId h (h.inBounds.arg_lt_of_conversion? hc)).bind (pure _)

theorem wrap? {edit : Repair.Edit} (hslot : edit.slot.InStore s) :
    Yields (Guarded.wrap? info s edit)
      (Repair.wrap? info.oracle s edit.slot edit.target edit.source) := by
  have hreaches := h.inBounds.reaches hslot
  rw [Repair.wrap?_eq]
  refine (slot? hreaches).bind ?_
  cases hget : s.slot? edit.slot with
  | none => exact pure none
  | some current =>
    obtain ⟨v, hv, rfl⟩ := h.exists_fills hget
    have hcurrent := (h.exprs v hv.mem_parts).ref_lt
    refine (isConverted h hcurrent edit.target edit.source).bind ?_
    rw [Option.bind_some]
    split
    · exact pure none
    · refine (addConversion hcurrent edit.target).bind (setSlot? ?_ _)
      exact hreaches.extend hget (s.extends_addConversion _ _) (Nat.le_refl _)

theorem typeIn (hslot : slot.InStore s) :
    Yields (Guarded.typeIn info s slot) ((s.slot? slot).bind (info.oracle.typeOf s)) := by
  refine (slot? (h.inBounds.reaches hslot)).bind ?_
  cases hget : s.slot? slot with
  | none => exact pure none
  | some current =>
    obtain ⟨v, hv, rfl⟩ := h.exists_fills hget
    exact typeOfId h (h.exprs v hv.mem_parts).ref_lt

theorem conditionHolds (hslot : slot.InStore s) {condition? : Option ExprId}
    (hgoal : ∀ goal ∈ condition?, goal < s.exprs.size) :
    Yields (Guarded.conditionHolds info s slot condition?)
      (Repair.conditionHolds info.oracle s slot condition?) := by
  cases condition? with
  | none => exact pure true
  | some goal =>
    refine (typeIn h hslot).bind ((typeOfId h (hgoal goal rfl)).bind ?_)
    unfold Repair.conditionHolds
    dsimp only
    cases (s.slot? slot).bind (info.oracle.typeOf s) with
    | none => exact pure false
    | some source => cases info.oracle.typeOf s goal with
      | none => exact pure false
      | some target => exact pure _

theorem edit? (rules : RuleTable) {repair : Repair} (hr : repair.InStore s) :
    Yields (Guarded.edit? rules info s repair) (repair.edit? rules info.oracle s) := by
  cases repair with
  | convert slot target source condition? =>
    exact (conditionHolds h hr.1 hr.2).bind (ite _ _)
  | balance id =>
    obtain ⟨⟨shape, span⟩, hnode⟩ : ∃ node, s.exprs[id]? = some node :=
      ⟨_, Array.getElem?_eq_getElem hr⟩
    have hbounds := h.inBounds.exprs hnode
    rw [Guarded.edit?, Repair.edit?, hnode]
    refine (entry hnode).bind ?_
    cases shape with
    | binary op left right =>
      refine (typeOfId h hbounds.1).bind ((typeOfId h hbounds.2).bind ?_)
      dsimp only
      cases info.oracle.typeOf s left with
      | none => exact pure none
      | some l => cases info.oracle.typeOf s right with
        | none => exact pure none
        | some r =>
          dsimp only
          rcases Direction.choose (Repair.allowed? rules info.oracle r l)
            (Repair.allowed? rules info.oracle l r) with _ | _ | _ <;> exact pure _
    | _ => exact pure none

/-- A repair whose nodes are in the store cannot crash. -/
theorem perform? (rules : RuleTable) {repair : Repair} (hr : repair.InStore s) :
    Yields (Guarded.perform? rules info s repair) (repair.perform? rules info.oracle s) := by
  rw [Repair.perform?_eq]
  refine (edit? h rules hr).bind ?_
  cases hedit : repair.edit? rules info.oracle s with
  | none => exact pure none
  | some edit => exact wrap? h (hr.slot_of_edit? hedit)

end

theorem foldlM {f : β → α → Guarded β} {g : β → α → β} {P : β → Prop} {xs : List α}
    (step : ∀ b, ∀ x ∈ xs, P b → Yields (f b x) (g b x) ∧ P (g b x)) :
    ∀ b, P b → Yields (xs.foldlM f b) (xs.foldl g b) := by
  induction xs with
  | nil => exact fun b _ => pure b
  | cons x xs ih =>
    intro b hb
    obtain ⟨hx, hnext⟩ := step b x List.mem_cons_self hb
    exact hx.bind (ih (fun b y hy => step b y (List.mem_cons_of_mem _ hy)) _ hnext)

end Yields

/-! ### All repairs -/

section

variable {s t : Store} {rules : RuleTable} {q : TypeOracle}

/-- What a repair names stays in the store when another one changes it. -/
theorem Repair.InStore.perform? {repair other : Repair} (hr : repair.InStore s)
    (ht : other.perform? rules q s = some t) : repair.InStore t := by
  have hexprs : s.exprs.size ≤ t.exprs.size := by
    rw [size_perform? ht]
    exact Nat.le_add_right _ _
  have hstmts : t.stmts = s.stmts := by
    obtain ⟨slot, target, current, -, hset⟩ := exists_of_perform? ht
    exact (Store.stmts_setSlot? hset).trans rfl
  cases repair with
  | convert slot target source condition? =>
    refine ⟨⟨fun id hid => Nat.lt_of_lt_of_le (hr.1.expr id hid) hexprs, fun id hid => ?_⟩,
      fun goal hgoal => Nat.lt_of_lt_of_le (hr.2 goal hgoal) hexprs⟩
    rw [hstmts]
    exact hr.1.stmt id hid
  | balance id => exact Nat.lt_of_lt_of_le hr hexprs

/-- A store without other nodes than those of a tree is one after any repairs. -/
theorem Store.Holding.performAll (h : s.Holding s.program) (rules : RuleTable) (q : TypeOracle)
    (repairs : List Repair) : (Recast.performAll rules q s repairs).1.Holding
      (Recast.performAll rules q s repairs).1.program :=
  performAll_keeps (P := fun s => s.Holding s.program) repairs
    (fun h ht => by
      obtain ⟨_, _, _, hholding, -⟩ := h.perform? ht
      exact hholding) h

/-- Repairs whose nodes are in a store without other nodes than those of a tree cannot crash. -/
theorem Yields.performAll (h : s.Holding s.program) (rules : RuleTable) (info : TypeInfo)
    {repairs : List Repair} (hrs : ∀ repair ∈ repairs, repair.InStore s) :
    Yields (Guarded.performAll rules info s repairs)
      (Recast.performAll rules info.oracle s repairs) := by
  let P (state : Store × RepairReport) : Prop :=
    state.1.Holding state.1.program ∧ ∀ repair ∈ repairs, repair.InStore state.1
  refine foldlM (P := P) (fun state repair hr hP => ?_) (s, .none) ⟨h, hrs⟩
  have hperform : Yields (Guarded.perform? rules info state.1 repair)
      (repair.perform? rules info.oracle state.1) := perform? hP.1 rules (hP.2 repair hr)
  unfold Guarded.performNext Recast.performNext
  cases ht : repair.perform? rules info.oracle state.1 with
  | none =>
    rw [ht] at hperform
    exact ⟨hperform.bind (pure _), hP⟩
  | some t =>
    rw [ht] at hperform
    refine ⟨hperform.bind (pure _), ?_, fun other ho => (hP.2 other ho).perform? ht⟩
    obtain ⟨_, _, _, hholding, -⟩ := hP.1.perform? ht
    exact hholding

end

end Recast
