import Mathlib.Data.List.Pairwise
import Recast.Proofs.Store.Apart
import Recast.Session

/-!
# Histories of stores

A store comes about step by step: strings, lists and nodes are added, and slots get other
expressions. A history is a store together with the slices that its expression lists got. All these
lists share one pool, but each is put behind those that are there, and no step moves or shortens
one; so the slices of a history never overlap, whatever the steps.

The nodes of a store are what its client makes them, and a client may put one slice into two nodes.
`Unshared` says that it did not. Then no two slots have anything in common, which the main statement
says of sessions: what is put into one slot leaves all else as it is.
-/

namespace Recast

namespace Store

/-! ### Steps -/

/-- A step in the making of a store. -/
inductive Step where
  | intern (text : String)
  | addExprList (ids : List ExprId)
  | addStmtList (ids : List StmtId)
  | addParams (params : List (Param Name))
  | addTypeList (types : List (TypeRef Name))
  | addNameList (names : List Name)
  | pushExpr (node : Node (ExprShape Name Slice))
  | pushStmt (node : Node (StmtShape Name Slice))
  | pushFunction (node : Node (FunctionShape Name Slice))
  | addConversion (typeName : String) (arg : ExprId)
  | putTrivia (trivia : Trivia Name)
  /-- Nothing happens if the slot does not exist. -/
  | setSlot (slot : Slot) (e : ExprId)

/-- A store, and the slices that its expression lists got, the latest first. -/
structure History where
  store : Store
  issued : List (Slice ExprId)

namespace History

/-- Nothing has happened yet. -/
def start : History := ⟨.empty, []⟩

/-- The history with one more step. A conversion puts its argument into a list of its own. -/
def add (h : History) : Step → History
  | .intern text => { h with store := (h.store.intern text).2 }
  | .addExprList ids =>
    ⟨(h.store.addExprList ids).2, (h.store.addExprList ids).1 :: h.issued⟩
  | .addStmtList ids => { h with store := (h.store.addStmtList ids).2 }
  | .addParams params => { h with store := (h.store.addParams params).2 }
  | .addTypeList types => { h with store := (h.store.addTypeList types).2 }
  | .addNameList names => { h with store := (h.store.addNameList names).2 }
  | .pushExpr node => { h with store := (h.store.pushExpr node).2 }
  | .pushStmt node => { h with store := (h.store.pushStmt node).2 }
  | .pushFunction node => { h with store := (h.store.pushFunction node).2 }
  | .addConversion typeName arg =>
    ⟨(h.store.addConversion typeName arg).2, (h.store.addExprList [arg]).1 :: h.issued⟩
  | .putTrivia trivia => { h with store := { h.store with trivia } }
  | .setSlot slot e => { h with store := (h.store.setSlot? slot e).getD h.store }

/-- What comes about by some steps, the first one first. -/
def ofSteps (steps : List Step) : History := steps.foldl add start

/-- A list that a node holds was put into the pool for it, unless it is the empty one that never
is, and no other place holds it too. A list without items may be held at many places. -/
structure Unshared (h : History) : Prop where
  issued : ∀ place slice, h.store.sliceAt? place = some slice →
    slice ∈ h.issued ∨ slice = .empty
  once : ∀ place place' slice, h.store.sliceAt? place = some slice →
    h.store.sliceAt? place' = some slice → slice.length = 0 ∨ place = place'

/-! ### Slices that were given out -/

/-- What a step does to the expression lists: it gives out a slice behind all that is there, or
there are as many items as before. -/
theorem add_cases (h : History) (step : Step) :
    (∃ ids : List ExprId, (h.add step).issued = (h.store.addExprList ids).1 :: h.issued ∧
      (h.add step).store.exprLists = (h.store.addExprList ids).2.exprLists) ∨
    (h.add step).issued = h.issued ∧
      (h.add step).store.exprLists.items.size = h.store.exprLists.items.size := by
  cases step with
  | addExprList ids => exact .inl ⟨ids, rfl, rfl⟩
  | addConversion typeName arg => exact .inl ⟨[arg], rfl, rfl⟩
  | setSlot slot e =>
    refine .inr ⟨rfl, ?_⟩
    show ((h.store.setSlot? slot e).getD h.store).exprLists.items.size = _
    cases hset : h.store.setSlot? slot e with
    | none => rfl
    | some t => exact size_exprLists_setSlot? hset
  | _ => exact .inr ⟨rfl, rfl⟩

/-- The slices that were given out lie in the pool, and no two of them overlap. -/
structure Separate (h : History) : Prop where
  bound : ∀ slice ∈ h.issued, slice.start + slice.length ≤ h.store.exprLists.items.size
  apart : h.issued.Pairwise Slice.Apart

variable {h : History}

theorem Separate.add (sep : h.Separate) (step : Step) : (h.add step).Separate := by
  rcases add_cases h step with ⟨ids, hissued, hlists⟩ | ⟨hissued, hsize⟩
  · have hsize : (h.add step).store.exprLists.items.size
        = h.store.exprLists.items.size + ids.length := by
      rw [hlists]
      exact Pool.size_add h.store.exprLists ids
    constructor
    · intro slice hslice
      rw [hissued] at hslice
      rw [hsize]
      rcases List.mem_cons.1 hslice with rfl | hslice
      · exact Nat.le_refl _
      · exact Nat.le_trans (sep.bound slice hslice) (Nat.le_add_right _ _)
    · rw [hissued]
      refine .cons ?_ sep.apart
      -- the new slice starts where all the others have ended
      intro slice hslice i j _ hj
      have hbound := sep.bound slice hslice
      show h.store.exprLists.items.size + i ≠ slice.start + j
      omega
  · constructor
    · rw [hissued, hsize]
      exact sep.bound
    · rw [hissued]
      exact sep.apart

/-- Slices that were given out at different times do not overlap. -/
theorem separate_ofSteps (steps : List Step) : (ofSteps steps).Separate := by
  have hrun : ∀ (steps : List Step) (h : History), h.Separate → (steps.foldl add h).Separate := by
    intro steps
    induction steps with
    | nil =>
      intro h sep
      exact sep
    | cons step steps ih =>
      intro h sep
      exact ih _ (sep.add step)
  exact hrun steps start ⟨nofun, .nil⟩

theorem Unshared.listsApart (unshared : h.Unshared) (sep : h.Separate) : h.store.ListsApart := by
  intro place place' x y hne hx hy
  rcases unshared.issued place x hx with hx' | rfl
  · rcases unshared.issued place' y hy with hy' | rfl
    · by_cases hxy : x = y
      · subst hxy
        have hlength := (unshared.once place place' x hx hy).resolve_right hne
        exact Slice.apart_of_length hlength x
      · exact sep.apart.forall hx' hy' hxy
    · exact symm (Slice.apart_of_length rfl x)
  · exact Slice.apart_of_length rfl y

/-! ### Checking a history -/

/-- All places that may hold a list. -/
def places (h : History) : List ListPlace :=
  (List.range h.store.exprs.size).map .args ++ (List.range h.store.stmts.size).flatMap fun id =>
    [.varValues id, .targets id, .assignValues id, .results id]

theorem mem_places {place : ListPlace} {slice : Slice ExprId}
    (hslice : h.store.sliceAt? place = some slice) : place ∈ h.places := by
  have hexpr {id : ExprId} (hid : h.store.exprs[id]? ≠ none) : id < h.store.exprs.size :=
    Nat.lt_of_not_le (mt Array.getElem?_eq_none hid)
  have hstmt {id : StmtId} (hid : h.store.stmts[id]? ≠ none) : id < h.store.stmts.size :=
    Nat.lt_of_not_le (mt Array.getElem?_eq_none hid)
  cases place with
  | args id =>
    have : id < h.store.exprs.size := hexpr fun hn => by simp [sliceAt?, hn] at hslice
    simp [places, this]
  | _ id =>
    have : id < h.store.stmts.size := hstmt fun hn => by simp [sliceAt?, hn] at hslice
    simp [places, this]

instance (h : History) : Decidable h.Unshared :=
  decidable_of_iff (∀ place ∈ h.places, ∀ slice ∈ h.store.sliceAt? place,
    (slice ∈ h.issued ∨ slice = .empty) ∧ ∀ place' ∈ h.places,
      h.store.sliceAt? place' = some slice → slice.length = 0 ∨ place = place') <| by
    constructor
    · intro hall
      constructor
      · intro place slice hslice
        exact (hall place (mem_places hslice) slice hslice).1
      · intro place place' slice hslice hslice'
        exact (hall place (mem_places hslice) slice hslice).2 place' (mem_places hslice') hslice'
    · intro unshared place _ slice hslice
      refine ⟨unshared.issued place slice hslice, ?_⟩
      intro place' _ hslice'
      exact unshared.once place place' slice hslice hslice'

end History

/-- The same slots can be read. -/
theorem SameBut.requireSlot {s t : Store} {slot : Slot} (same : SameBut slot s t) (other : Slot) :
    t.requireSlot other = s.requireSlot other := by
  have hexprs (id : ExprId) : (t.exprs[id]?).isSome = (s.exprs[id]?).isSome := by
    rw [Bool.eq_iff_iff, isSome_getElem?, isSome_getElem?, same.size]
  cases other <;> simp only [Store.requireSlot, same.stmts, hexprs]

end Store

namespace Session

theorem slot_eq (s : Session) (slot : Slot) :
    s.slot slot = (s.store.requireSlot slot).map fun _ => s.store.slot? slot := by
  rw [Session.slot]
  cases s.store.requireSlot slot <;> rfl

theorem setSlot_eq (s : Session) (slot : Slot) (e : ExprId) :
    s.setSlot slot e = (s.store.requireSlot slot).map fun _ =>
      match s.store.setSlot? slot e with
      | some store => (true, { s with store })
      | none => (false, s) := by
  rw [Session.setSlot]
  cases s.store.requireSlot slot with
  | error fault => rfl
  | ok _ => cases hset : s.store.setSlot? slot e <;> rfl

/-- Take a store whose expression lists are held at one place each. A slot that has an expression
can get another one, which is then what the slot has; every other slot has what it had, and
statements, functions, names and the lengths of lists are what they were. A slot that does not exist
gets nothing, and all is as it was; and where a slot cannot be read, it cannot be set either. -/
theorem setSlot_changes_one_slot (steps : List Store.Step)
    (unshared : (Store.History.ofSteps steps).Unshared) (info : TypeInfo)
    (diagnostics : List Diagnostic) (slot : Slot) (e : ExprId) :
    let s : Session := ⟨(Store.History.ofSteps steps).store, info, diagnostics⟩
    (∀ old, s.slot slot = .ok (some old) → ∃ t, s.setSlot slot e = .ok (true, t) ∧
      t.slot slot = .ok (some e) ∧ (∀ other, other ≠ slot → t.slot other = s.slot other) ∧
      Store.SameBut slot s.store t.store) ∧
    (∀ t, s.setSlot slot e = .ok (false, t) ↔ s.slot slot = .ok none ∧ t = s) ∧
    ∀ fault, s.setSlot slot e = .error fault ↔ s.slot slot = .error fault := by
  intro s
  have apart := unshared.listsApart (Store.History.separate_ofSteps steps)
  rw [slot_eq, setSlot_eq]
  cases hreq : s.store.requireSlot slot with
  | error fault => exact ⟨nofun, fun t => ⟨nofun, nofun⟩, fun fault' => by simp [Except.map]⟩
  | ok u =>
    cases hset : s.store.setSlot? slot e with
    | none =>
      have hnone := Store.setSlot?_eq_none_iff.1 hset
      simp [Except.map, hnone, eq_comm]
    | some t =>
      have hsome : s.store.slot? slot ≠ none := by
        intro hnone
        rw [Store.setSlot?_eq_none_iff.2 hnone] at hset
        cases hset
      have same := Store.sameBut_setSlot? apart hset
      refine ⟨?_, ?_, fun fault => ⟨nofun, nofun⟩⟩
      · intro old _
        refine ⟨{ s with store := t }, rfl, ?_, ?_, same⟩
        · rw [slot_eq]
          show (t.requireSlot slot).map (fun _ => t.slot? slot) = _
          rw [same.requireSlot, hreq, Store.slot?_setSlot?_self hset]
          rfl
        · intro other hne
          rw [slot_eq, slot_eq]
          show (t.requireSlot other).map (fun _ => t.slot? other) = _
          rw [same.requireSlot, same.slots other hne]
      · intro t'
        constructor
        · nofun
        · rintro ⟨h, -⟩
          exact absurd (Except.ok.inj h) hsome

/-- The argument of a call that is itself the second value of a declaration, and of the conversion
that the call is put into. Two statements hold the empty list that was never put into the pool. -/
theorem setSlot_changes_one_slot_nested :
    let h := Store.History.ofSteps [.intern "x", .intern "f", .intern "y", .intern "z",
      .pushExpr ⟨.name ⟨1⟩, ⟨31, 32⟩⟩, .pushExpr ⟨.name ⟨2⟩, ⟨34, 35⟩⟩,
      .pushExpr ⟨.name ⟨3⟩, ⟨36, 37⟩⟩, .addExprList [2], .pushExpr ⟨.call 1 ⟨0, 1⟩, ⟨34, 38⟩⟩,
      .addExprList [0, 3], .addNameList [⟨3⟩, ⟨4⟩],
      .pushStmt ⟨.var ⟨0, 2⟩ none ⟨1, 2⟩, ⟨20, 38⟩⟩, .pushStmt ⟨.ret .empty, ⟨40, 46⟩⟩,
      .pushStmt ⟨.ret .empty, ⟨48, 54⟩⟩, .addConversion "int64" 3]
    let s := Session.ofStore h.store
    h.Unshared ∧ s.slot (.varValue 0 1) = .ok (some 3) ∧
      ∃ t, s.setSlot (.varValue 0 1) 5 = .ok (true, t) ∧
        t.slot (.varValue 0 1) = .ok (some 5) ∧ t.slot (.callArg 5 0) = .ok (some 3) ∧
          t.slot (.callArg 3 0) = .ok (some 2) := by
  intro h s
  have unshared : h.Unshared := by decide +kernel
  have hold : s.slot (.varValue 0 1) = .ok (some 3) := by rfl
  obtain ⟨hset, -⟩ := setSlot_changes_one_slot _ unshared s.info s.diagnostics (.varValue 0 1) 5
  obtain ⟨t, ht, hself, hother, -⟩ := hset 3 hold
  exact ⟨unshared, hold, t, ht, hself, (hother (.callArg 5 0) nofun).trans rfl,
    (hother (.callArg 3 0) nofun).trans rfl⟩

end Session

end Recast
