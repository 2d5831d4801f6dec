import Recast.Repair.Basic
import Recast.Rule
import Recast.Store.Conversion

/-!
# Performing repairs

`Repair.perform?` changes a store as a repair says, or yields nothing where there is nothing to
change. All types are looked up in the store as it is at that moment, so a repair sees the effect of
earlier ones.
-/

namespace Recast

/-- Which operand of a binary expression is converted. -/
inductive Direction where
  /-- The right operand, to the type of the left one. -/
  | rightToLeft
  /-- The left operand, to the type of the right one. -/
  | leftToRight
deriving DecidableEq, Repr

/-- Chooses a direction by the priorities of those that are possible: the strictly higher priority
wins, and of two equal ones left to right. -/
def Direction.choose (rightToLeft leftToRight : Option Int) : Option Direction :=
  match rightToLeft, leftToRight with
  | some r, some l => some (if l < r then .rightToLeft else .leftToRight)
  | some _, none => some .rightToLeft
  | none, some _ => some .leftToRight
  | none, none => none

namespace Repair

/-- Puts a conversion to `target` around the value in a slot. A value of type `source` that already
stands in such a conversion is left alone. -/
def wrap? (q : TypeOracle) (s : Store) (slot : Slot) (target source : String) : Option Store :=
  match s.slot? slot with
  | none => none
  | some current =>
    let isConverted := match s.conversion? current with
      | some (callee, arg) => callee == target && q.typeOf s arg == some source
      | none => false
    if isConverted then none
    else
      let (call, s) := s.addConversion target current
      s.setSlot? slot call

/-- Whether the value in a slot is convertible to the type of an expression, if one is given. -/
def conditionHolds (q : TypeOracle) (s : Store) (slot : Slot) : Option ExprId → Bool
  | none => true
  | some goal =>
    match (s.slot? slot).bind (q.typeOf s), q.typeOf s goal with
    | some source, some target => q.convertible source target
    | _, _ => false

/-- The priority of a conversion that is both in the rules and valid. -/
def allowed? (rules : RuleTable) (q : TypeOracle) (source target : String) : Option Int :=
  (rules.priority? source target).filter fun _ => q.convertible source target

/-- Converts one operand of a binary expression to the type of the other one, as the rules prefer.
-/
def balance? (rules : RuleTable) (q : TypeOracle) (s : Store) (id : ExprId) : Option Store :=
  match s.exprs[id]? with
  | some ⟨.binary _ left right, _⟩ =>
    match q.typeOf s left, q.typeOf s right with
    | some l, some r =>
      match Direction.choose (allowed? rules q r l) (allowed? rules q l r) with
      | some .rightToLeft => wrap? q s (.operand id .right) l r
      | some .leftToRight => wrap? q s (.operand id .left) r l
      | none => none
    | _, _ => none
  | _ => none

/-- The store after a repair, if the repair changes it. -/
def perform? (rules : RuleTable) (q : TypeOracle) (s : Store) : Repair → Option Store
  | convert slot target source condition? =>
    if conditionHolds q s slot condition? then wrap? q s slot target source else none
  | balance id => balance? rules q s id

end Repair

namespace RepairReport

/-- The report on no repairs. -/
def none : RepairReport := ⟨0, 0, 0⟩

/-- The report after one more repair. -/
def count (r : RepairReport) (changed : Bool) : RepairReport :=
  if changed then { r with planned := r.planned + 1, applied := r.applied + 1 }
  else { r with planned := r.planned + 1, unchanged := r.unchanged + 1 }

end RepairReport

/-- Performs one more repair and counts it. -/
def performNext (rules : RuleTable) (q : TypeOracle) (state : Store × RepairReport)
    (repair : Repair) : Store × RepairReport :=
  match repair.perform? rules q state.1 with
  | some s => (s, state.2.count true)
  | none => (state.1, state.2.count false)

/-- Performs repairs in order. -/
def performAll (rules : RuleTable) (q : TypeOracle) (s : Store) (repairs : List Repair) :
    Store × RepairReport :=
  repairs.foldl (performNext rules q) (s, .none)

end Recast
