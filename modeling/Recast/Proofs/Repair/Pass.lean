import Recast.Fix
import Recast.Proofs.Repair.InPlace
import Recast.Proofs.Repair.Places
import Recast.Proofs.Repair.Sound
import Recast.Proofs.Types.Sized

/-!
# What a pass of repairs does

A pass performs the repairs that were planned from the remarks of one check. Each of them finds its
values as they were in the checked program, and either leaves the store alone or puts one conversion
around one of the values.
-/

namespace Recast

/-! ### What the check says -/

/-- What the check knows about a value that does not fit. -/
structure TypeInfo.Unfit (info : TypeInfo) (p : PlacedProgram) (fit : Fit) (v : PlacedExpr)
    (type wanted : BasicType) : Prop where
  fills : p.Fills fit.slot v
  typed : info.typeOf v = some type
  written : wanted.isUntyped = false
  goal : fit.destination = .assignment →
    ∃ goal ∈ p.parts, fit.goal? = some goal.ref ∧ info.typeOf goal = some wanted
  unconditional : fit.destination ≠ .assignment → fit.goal? = none
  loose : ∀ e ∈ p.parts, v ∈ e.children → info.Loose e v

/-- What the check knows about operands that do not go together. -/
structure TypeInfo.Apart (info : TypeInfo) (p : PlacedProgram) (tag : Placed) (op : BinaryOp)
    (left right : PlacedExpr) (l r : BasicType) : Prop where
  holder : .binary tag op left right ∈ p.parts
  typedLeft : info.typeOf left = some l
  typedRight : info.typeOf right = some r
  apart : l.unify? r = none
  wholeLeft : l = .untypedFloat → r.isInteger = false
  wholeRight : r = .untypedFloat → l.isInteger = false

/-- The operands of a binary expression are different expressions. -/
theorem TypeInfo.Apart.ref_ne {tag : Placed} {op : BinaryOp} {left right : PlacedExpr}
    {l r : BasicType} {info : TypeInfo} {p : PlacedProgram}
    (h : info.Apart p tag op left right l r)
    (distinct : (p.parts.map Expr.ref).Nodup) : left.ref ≠ right.ref := by
  have := Store.nodup_of_mem_flatMap (Program.nodup_places distinct).2.1 h.holder
  simpa [Expr.children] using this

/-- Operands that do not go together but are convertible have sizes. -/
theorem BasicType.isUntyped_of_apart {l r : BasicType} (apart : l.unify? r = none)
    (wholeLeft : l = .untypedFloat → r.isInteger = false)
    (wholeRight : r = .untypedFloat → l.isInteger = false)
    (h : l.convertibleTo r ∨ r.convertibleTo l) : l.isUntyped = false ∧ r.isUntyped = false := by
  revert l r
  have : ∀ l ∈ all, ∀ r ∈ all, l.unify? r = none → (l = .untypedFloat → r.isInteger = false) →
      (r = .untypedFloat → l.isInteger = false) → (l.convertibleTo r ∨ r.convertibleTo l) →
        l.isUntyped = false ∧ r.isUntyped = false := by decide
  exact fun {l r} => this l (mem_all l) r (mem_all r)

section Site

variable {st : Store} {p : PlacedProgram} {c : Checked} {f : PlacedFunction}
  {before after : List PlacedStmt} {s : PlacedStmt} {signature : Signature}
  {root part v : PlacedExpr} {type target wanted : BasicType} {fit : Fit} {mode : Mode}

theorem Program.At.sized (h : p.At f before s after signature) :
    (p.scopeAt f signature before).Sized :=
  .scopeAt (sized_signaturesOf h.signature) before

/-- The target of an assignment has the type that the check gives it. -/
theorem TypeInfo.typeOf_target {info : TypeInfo} {S : Scope} {goal : PlacedExpr}
    (h : ∀ n, goal.targetName? = some n → info.bindings[n.1.id]? = S.locals n.2)
    (ht : goal.targetType? S = some target) : info.typeOf goal = some target := by
  induction goal using Expr.inductArgs with
  | name tag text =>
    rw [typeOf, h (tag, text) rfl]
    exact ht
  | paren tag inner ih => exact ih h ht
  | _ => cases ht

theorem Checked.Describes.unfit_stmt (hc : c.Describes p) (h : p.At f before s after signature)
    (distinct : (p.parts.map Expr.ref).Nodup)
    (ht : s.Takes (p.scopeAt f signature before) signature.results f.signature.results v target fit)
    (typed : v.typeIn (p.scopeAt f signature before) = some type) (hw : fit.wanted? = some wanted) :
    c.info.Unfit p fit v type wanted := by
  have hv := ht.mem_values
  have htyped : c.info.typeOf v = some type :=
    (hc.typeOf_eq h hv v.self_mem_parts).trans typed
  have hloose : ∀ e ∈ p.parts, v ∈ e.children → c.info.Loose e v := fun e he hve =>
    absurd rfl (Program.ref_ne_of_root distinct h.mem_stmts (s.values_subset v hv) he hve)
  cases ht with
  | declaration hi htaken =>
    cases hw
    exact ⟨.varValue h.mem_stmts hi, htyped, TypeRef.sized _ _ htaken, nofun, fun _ => rfl, hloose⟩
  | @assignment tag targets values v goal k target hi hg htaken =>
    cases hw
    have hgoal := List.mem_of_getElem? hg
    have htarget : c.info.typeOf goal = some target := by
      refine TypeInfo.typeOf_target (fun n hn => hc.binding h ?_) htaken
      exact List.mem_append_left _ (List.mem_flatMap.2 ⟨goal, hgoal, by simp [hn]⟩)
    refine ⟨.assignValue h.mem_stmts hi, htyped, ?_, fun _ => ⟨goal, ?_, rfl, htarget⟩,
      fun hne => absurd rfl hne, hloose⟩
    · exact h.sized.targetType? _ htaken
    · exact Store.Program.mem_parts_of_mem_children h.mem_stmts (List.mem_append_left _ hgoal)
  | @result tag values v k target hi htaken =>
    have hown : f.signature.results[k]? = some (some wanted) := Option.join_eq_some_iff.1 hw
    exact ⟨.returnValue h.mem_stmts hi, htyped,
      f.sized_signature.results _ (List.mem_of_getElem? hown) _ rfl, nofun, fun _ => rfl, hloose⟩

theorem Checked.Describes.unfit_part (hc : c.Describes p) (h : p.At f before s after signature)
    (distinct : (p.parts.map Expr.ref).Nodup) (hr : root ∈ s.values) (hp : part ∈ root.parts)
    (ht : part.Takes (p.scopeAt f signature before) v target fit)
    (typed : v.typeIn (p.scopeAt f signature before) = some type) (hw : fit.wanted? = some wanted) :
    c.info.Unfit p fit v type wanted := by
  have hv : v ∈ root.parts := Expr.child_mem_parts hp ht.mem_children
  have hpart := h.mem_parts hr hp
  have htyped : c.info.typeOf v = some type := (hc.typeOf_eq h hr hv).trans typed
  cases ht with
  | @argument tag callee v args signature' k target hf hi htaken =>
    cases hw
    have hcallee : callee ∈ root.parts := Expr.child_mem_parts hp List.mem_cons_self
    have hknows := (hc.knows h (Stmt.names_of_value hr)).part hcallee
    refine ⟨.callArg hpart hi, htyped, ?_, nofun, fun _ => rfl, fun e he hve => ?_⟩
    · exact (h.sized.callee hf).targets _ _ (List.mem_of_getElem? htaken) _ rfl
    · have hchild := List.mem_of_getElem? hi
      obtain rfl := Program.parent_unique distinct he hpart hve (List.mem_cons_of_mem _ hchild) rfl
      exact .argument (hknows.callee_eq.trans hf) hchild

/-- What a remark about a value that does not fit says. -/
theorem Checked.Describes.unfit (hc : c.Describes p) (distinct : (p.parts.map Expr.ref).Nodup)
    (h : .unfit fit v mode type target ∈ p.remarks) (hw : fit.wanted? = some wanted) :
    c.info.Unfit p fit v type wanted := by
  obtain ⟨f, before, s, after, signature, hat, misfit, takes | ⟨root, hr, part, hp, takes⟩⟩ :=
    Program.unfit_site h
  · exact hc.unfit_stmt hat distinct takes misfit.typed hw
  · exact hc.unfit_part hat distinct hr hp takes misfit.typed hw

/-- What a remark about operands says. -/
theorem Checked.Describes.apart (hc : c.Describes p) {tag : Placed} {op : BinaryOp}
    {left right : PlacedExpr} {l r : BasicType} (h : .operands tag op left right l r ∈ p.remarks) :
    c.info.Apart p tag op left right l r := by
  obtain ⟨f, before, s, after, signature, hat, mismatch, root, hr, hp⟩ := Program.operands_site h
  have hside {side : PlacedExpr} (hs : side ∈ (Expr.binary tag op left right).children) :
      c.info.typeOf side = side.typeIn (p.scopeAt f signature before) :=
    hc.typeOf_eq hat hr (Expr.child_mem_parts hp hs)
  exact ⟨hat.mem_parts hr hp, (hside (by simp [Expr.children])).trans mismatch.typedLeft,
    (hside (by simp [Expr.children])).trans mismatch.typedRight, mismatch.apart,
    mismatch.wholeLeft, mismatch.wholeRight⟩

end Site

/-! ### One repair -/

/-- The expression is a conversion to a type already, of a value of a given type. -/
def TypeInfo.Repeats (info : TypeInfo) (v : PlacedExpr) (type wanted : BasicType) : Prop :=
  ∃ tag calleeTag arg, v = .call tag (.name calleeTag wanted.name) [arg] ∧
    info.typeOf arg = some type

/-- The callee's text and the argument of a call with one argument whose callee is a name. -/
def Expr.conversion? : PlacedExpr → Option (String × PlacedExpr)
  | .call _ (.name _ text) [arg] => some (text, arg)
  | _ => none

theorem Expr.conversion?_eq_some {e arg : PlacedExpr} {text : String} :
    e.conversion? = some (text, arg) ↔
      ∃ tag calleeTag, e = .call tag (.name calleeTag text) [arg] := by
  constructor
  · intro h
    unfold conversion? at h
    split at h
    · cases h
      exact ⟨_, _, rfl⟩
    · cases h
  · intro h
    obtain ⟨tag, calleeTag, rfl⟩ := h
    rfl

theorem TypeInfo.repeats_iff {info : TypeInfo} {v : PlacedExpr} {type wanted : BasicType} :
    info.Repeats v type wanted ↔
      ∃ arg, v.conversion? = some (wanted.name, arg) ∧ info.typeOf arg = some type := by
  simp only [Expr.conversion?_eq_some]
  constructor
  · intro h
    obtain ⟨tag, calleeTag, arg, hv, harg⟩ := h
    exact ⟨arg, ⟨tag, calleeTag, hv⟩, harg⟩
  · intro h
    obtain ⟨arg, ⟨tag, calleeTag, hv⟩, harg⟩ := h
    exact ⟨tag, calleeTag, arg, hv, harg⟩

instance (info : TypeInfo) (v : PlacedExpr) (type wanted : BasicType) :
    Decidable (info.Repeats v type wanted) :=
  decidable_of_iff (v.conversion?.any (fun c => c.1 == wanted.name && info.typeOf c.2 == some type))
    (by rw [TypeInfo.repeats_iff, Option.any_eq_true]; simp)

/-- What a store says about the form of an expression that may be a conversion. -/
theorem Store.Represents.conversion?_eq {s : Store} {p : PlacedProgram} (h : s.Represents p)
    {e : PlacedExpr} (he : e ∈ p.parts) :
    s.conversion? e.ref = e.conversion?.map fun c => (c.1, c.2.ref) := by
  obtain ⟨shape, hs, hn⟩ := h.exprs e he
  cases e with
  | hole => cases hs
  | literal | name =>
    cases hs
    obtain ⟨n, hn, -⟩ := hn
    simp only [Store.conversion?, hn]
    rfl
  | paren | neg | binary =>
    cases hs
    simp only [Store.conversion?, show _ = _ from hn]
    rfl
  | call tag callee args =>
    cases hs
    obtain ⟨slice, hn, hkeeps⟩ := hn
    obtain ⟨shape, hs, hm⟩ := h.exprs callee (Program.mem_parts_of_child he List.mem_cons_self)
    cases callee with
    | hole => cases hs
    | name calleeTag text =>
      cases hs
      obtain ⟨n, hm, htext⟩ := hm
      simp only [Store.conversion?, hn, hm, hkeeps.list]
      rcases args with _ | ⟨arg, _ | ⟨arg', args⟩⟩
      · rfl
      · exact congrArg (fun text => some (text, arg.ref)) (Store.text_of_string? htext)
      · rfl
    | literal | call =>
      cases hs
      obtain ⟨_, hm, -⟩ := hm
      simp only [Store.conversion?, hn, hm]
      rfl
    | paren | neg | binary =>
      cases hs
      simp only [Store.conversion?, hn, show _ = _ from hm]
      rfl

/-- The conversion of a value that stands in a slot and has a type to another type. -/
structure Mending where
  slot : Slot
  value : PlacedExpr
  source : BasicType
  target : BasicType

/-- The conversion that the repair for a remark is about. -/
def Remark.candidate? (rules : RuleTable) (info : TypeInfo) : Remark → Option Mending
  | unfit fit v _ type _ =>
    if type.isUntyped then none
    else fit.wanted?.bind fun wanted =>
      if type.convertibleTo wanted then some ⟨fit.slot, v, type, wanted⟩ else none
  | operands tag _ left right l r =>
    match Direction.choose (Repair.allowed? rules info.oracle r.name l.name)
        (Repair.allowed? rules info.oracle l.name r.name) with
    | some .rightToLeft => some ⟨.operand tag.id .right, right, r, l⟩
    | some .leftToRight => some ⟨.operand tag.id .left, left, l, r⟩
    | none => none
  | other _ => none

/-- The conversion that the repair for a remark makes, unless the value is such a conversion
already. -/
def Remark.mending? (rules : RuleTable) (info : TypeInfo) (r : Remark) : Option Mending :=
  (r.candidate? rules info).filter fun m => ¬ info.Repeats m.value m.source m.target

/-- The type to which the repair for a remark converts the expression with the given id. -/
def Remark.made? (rules : RuleTable) (info : TypeInfo) (r : Remark) (id : ExprId) :
    Option BasicType :=
  ((r.mending? rules info).filter fun m => m.value.ref == id).map Mending.target

/-- A remark calls for the conversion of a value to a type. -/
inductive Remark.Mends (info : TypeInfo) (p : PlacedProgram) :
    Remark → Slot → PlacedExpr → BasicType → Prop where
  | value {fit : Fit} {v : PlacedExpr} {mode : Mode} {type target wanted : BasicType}
      (unfit : info.Unfit p fit v type wanted) (sought : fit.wanted? = some wanted)
      (convertible : type.convertibleTo wanted) (news : ¬ info.Repeats v type wanted) :
      Mends info p (.unfit fit v mode type target) fit.slot v wanted
  | right {tag : Placed} {op : BinaryOp} {left right : PlacedExpr} {l r : BasicType}
      (apart : info.Apart p tag op left right l r) (convertible : r.convertibleTo l) :
      Mends info p (.operands tag op left right l r) (.operand tag.id .right) right l
  | left {tag : Placed} {op : BinaryOp} {left right : PlacedExpr} {l r : BasicType}
      (apart : info.Apart p tag op left right l r) (convertible : l.convertibleTo r) :
      Mends info p (.operands tag op left right l r) (.operand tag.id .left) left r

namespace Remark.Mends

variable {info : TypeInfo} {p : PlacedProgram} {remark : Remark} {slot : Slot} {v : PlacedExpr}
  {wanted : BasicType} (h : remark.Mends info p slot v wanted)
include h

theorem fills : p.Fills slot v := by
  cases h with
  | value unfit => exact unfit.fills
  | right apart => exact .right apart.holder
  | left apart => exact .left apart.holder

theorem mem_values : v.ref ∈ remark.values := by
  cases h <;> simp [Remark.values]

theorem typed : ∃ t, info.typeOf v = some t ∧ t.convertibleTo wanted := by
  cases h with
  | value unfit _ hc => exact ⟨_, unfit.typed, hc⟩
  | right apart hc => exact ⟨_, apart.typedRight, hc⟩
  | left apart hc => exact ⟨_, apart.typedLeft, hc⟩

theorem written : wanted.isUntyped = false := by
  cases h with
  | value unfit => exact unfit.written
  | right apart hc =>
    exact (BasicType.isUntyped_of_apart apart.apart apart.wholeLeft apart.wholeRight (.inr hc)).1
  | left apart hc =>
    exact (BasicType.isUntyped_of_apart apart.apart apart.wholeLeft apart.wholeRight (.inl hc)).2

theorem loose (distinct : (p.parts.map Expr.ref).Nodup) :
    ∀ e ∈ p.parts, v ∈ e.children → info.Loose e v := by
  have operand {tag : Placed} {op : BinaryOp} {left right : PlacedExpr} {l r : BasicType}
      (apart : info.Apart p tag op left right l r) (hside : v = left ∨ v = right) :
      ∀ e ∈ p.parts, v ∈ e.children → info.Loose e v := fun e he hv => by
    have hmem : v ∈ (Expr.binary tag op left right).children := by
      simpa [Expr.children] using hside
    obtain rfl := Program.parent_unique distinct he apart.holder hv hmem rfl
    exact .operand apart.typedLeft apart.typedRight apart.apart hside
  cases h with
  | value unfit => exact unfit.loose
  | right apart => exact operand apart (.inr rfl)
  | left apart => exact operand apart (.inl rfl)

end Remark.Mends

theorem Direction.isSome_of_rightToLeft {rightToLeft leftToRight : Option Int}
    (h : choose rightToLeft leftToRight = some .rightToLeft) : rightToLeft.isSome := by
  cases rightToLeft with
  | some => rfl
  | none => cases leftToRight <;> cases h

theorem Direction.isSome_of_leftToRight {rightToLeft leftToRight : Option Int}
    (h : choose rightToLeft leftToRight = some .leftToRight) : leftToRight.isSome := by
  cases leftToRight with
  | some => rfl
  | none => cases rightToLeft <;> cases h

/-- Only conversions that are valid are allowed. -/
theorem Repair.convertible_of_allowed? {rules : RuleTable} {info : TypeInfo} {t u : BasicType}
    (h : (allowed? rules info.oracle t.name u.name).isSome) : t.convertibleTo u := by
  obtain ⟨priority, hp⟩ := Option.isSome_iff_exists.1 h
  exact (BasicType.convertibleNames_name t u).symm.trans (Option.filter_eq_some_iff.1 hp).2

/-- What is known about the conversion that the repair for a remark is about. -/
structure Mending.Valid (m : Mending) (info : TypeInfo) (p : PlacedProgram) (r : Remark) :
    Prop where
  fills : p.Fills m.slot m.value
  typed : info.typeOf m.value = some m.source
  mends : ¬ info.Repeats m.value m.source m.target → r.Mends info p m.slot m.value m.target
  written : m.target.isUntyped = false
  mem_values : m.value.ref ∈ r.values

theorem Remark.valid_candidate {rules : RuleTable} {c : Checked} {p : PlacedProgram} {r : Remark}
    {m : Mending} (hc : c.Describes p) (distinct : (p.parts.map Expr.ref).Nodup)
    (hr : r ∈ p.remarks) (hm : r.candidate? rules c.info = some m) : m.Valid c.info p r := by
  cases r with
  | other => cases hm
  | unfit fit v mode type target =>
    rw [candidate?, Option.ite_none_left_eq_some] at hm
    obtain ⟨wanted, hw, hm⟩ := Option.bind_eq_some_iff.1 hm.2
    obtain ⟨hconvertible, hm⟩ := Option.ite_none_right_eq_some.1 hm
    obtain rfl := Option.some.inj hm
    have hu := hc.unfit distinct hr hw
    exact ⟨hu.fills, hu.typed, .value hu hw hconvertible, hu.written, by simp [values]⟩
  | operands tag op left right l r =>
    have apart := hc.apart hr
    rw [candidate?] at hm
    split at hm
    · rename_i hd
      obtain rfl := Option.some.inj hm
      have hconvertible := Repair.convertible_of_allowed? (Direction.isSome_of_rightToLeft hd)
      have hmends := Mends.right apart hconvertible
      exact ⟨hmends.fills, apart.typedRight, fun _ => hmends, hmends.written, hmends.mem_values⟩
    · rename_i hd
      obtain rfl := Option.some.inj hm
      have hconvertible := Repair.convertible_of_allowed? (Direction.isSome_of_leftToRight hd)
      have hmends := Mends.left apart hconvertible
      exact ⟨hmends.fills, apart.typedLeft, fun _ => hmends, hmends.written, hmends.mem_values⟩
    · cases hm

/-- The change of a store by the repair for a remark. -/
def Remark.perform? (rules : RuleTable) (q : TypeOracle) (s : Store) (r : Remark) : Option Store :=
  r.repair?.bind (Repair.perform? rules q s)

/-- The store after the repair for a remark. -/
def Remark.apply (rules : RuleTable) (q : TypeOracle) (s : Store) (r : Remark) : Store :=
  (r.perform? rules q s).getD s

/-! ### A pass -/

/-- The store after the repairs for the remarks `done` of a check of the program. -/
structure Pass (info : TypeInfo) (p : PlacedProgram) (base : Nat) (done : List Remark) (s : Store)
    (W : Insertions BasicType) : Prop where
  represents : s.Represents (p.wrap W)
  sound : W.Sound info p base
  untouched : ∀ id, id ∉ done.flatMap Remark.values → W id = none
  base_le : base ≤ s.exprs.size
  covered : ∀ id, base ≤ id → id < s.exprs.size →
    ∃ e ∈ p.parts, ∃ i, W e.ref = some i ∧ (id = i.callee.id ∨ id = i.call.id)
  mended : ∀ e ∈ p.parts, ∀ i, W e.ref = some i → ∃ r ∈ done, ∃ slot,
    r.Mends info p slot e i.type ∧ ∀ id ∈ r.values, id ≠ e.ref → W id = none

namespace Pass

variable {info : TypeInfo} {p : PlacedProgram} {base : Nat} {done : List Remark} {s t : Store}
  {W : Insertions BasicType} {r : Remark} {slot : Slot} {v e : PlacedExpr} {type : BasicType}
  {rules : RuleTable}

theorem start (h : s.Represents p) : Pass info p s.exprs.size [] s .empty where
  represents := by rwa [Program.wrap_empty]
  sound := Insertions.sound_empty
  untouched _ _ := rfl
  base_le := Nat.le_refl _
  covered _ hge hlt := absurd hlt (Nat.not_lt.2 hge)
  mended _ _ _ hi := by cases hi

theorem skip (h : Pass info p base done s W) (rs : List Remark) :
    Pass info p base (done ++ rs) s W where
  represents := h.represents
  sound := h.sound
  untouched id hid := h.untouched id fun hm => hid (by
    rw [List.flatMap_append]
    exact List.mem_append_left _ hm)
  base_le := h.base_le
  covered := h.covered
  mended e he i hi := by
    obtain ⟨r, hr, hm⟩ := h.mended e he i hi
    exact ⟨r, List.mem_append_left _ hr, hm⟩

theorem expr (h : Pass info p base done s W) (he : e ∈ p.parts) :
    s.expr e.ref = e.wrapBelow W := by
  have := h.represents.expr (Program.wrapBelow_mem_parts W he)
  rwa [Expr.ref_wrapBelow] at this

/-- Expressions keep the types that the check knows. -/
theorem typeOf (h : Pass info p base done s W) (he : e ∈ p.parts) (ht : info.typeOf e = some type) :
    info.typeOf (s.expr e.ref) = some type := by
  rw [h.expr he]
  exact h.sound.typeOf_wrapBelow he ht

theorem typeName (h : Pass info p base done s W) (he : e ∈ p.parts)
    (ht : info.typeOf e = some type) : info.oracle.typeOf s e.ref = some type.name :=
  congrArg (Option.map BasicType.name) (h.typeOf he ht)

theorem slot? (h : Pass info p base done s W) (hv : p.Fills slot v) (hW : W v.ref = none) :
    s.slot? slot = some v.ref := by
  rw [(hv.wrap W).slot?_eq h.represents.hasNodes, Expr.ref_wrap, Insertions.rename, hW]

/-- A conversion that a remark calls for keeps the pass going. -/
theorem insert (h : Pass info p base done s W) (distinct : (p.parts.map Expr.ref).Nodup)
    (hm : r.Mends info p slot v type) (hnew : ∀ id ∈ r.values, id ∉ done.flatMap Remark.values)
    (hi : s.Inserts t p W slot v type) :
    Pass info p base (done ++ [r]) t (W.insert v.ref (s.insertion v type)) where
  represents := hi.represents
  sound := h.sound.insert distinct hm.fills.mem_parts hm.typed hm.written h.base_le
    (hm.loose distinct)
  untouched id hid := by
    rw [List.flatMap_append, List.mem_append, not_or] at hid
    have hne : id ≠ v.ref := by
      rintro rfl
      exact hid.2 (List.mem_flatMap.2 ⟨r, List.mem_singleton_self r, hm.mem_values⟩)
    rw [Insertions.insert_other _ hne]
    exact h.untouched id hid.1
  base_le := hi.size ▸ Nat.le_add_right_of_le h.base_le
  covered id hge hlt := by
    by_cases hold : id < s.exprs.size
    · obtain ⟨e, he, i, hi, hid⟩ := h.covered id hge hold
      have hne : e.ref ≠ v.ref := fun heq => by
        rw [heq, h.untouched _ (hnew _ hm.mem_values)] at hi
        cases hi
      exact ⟨e, he, i, (Insertions.insert_other _ hne).trans hi, hid⟩
    · refine ⟨v, hm.fills.mem_parts, _, Insertions.insert_self _ _, ?_⟩
      have := hi.size
      show id = s.exprs.size ∨ id = s.exprs.size + 1
      omega
  mended e he i hi := by
    by_cases hev : e.ref = v.ref
    · obtain rfl := Program.eq_of_ref distinct he hm.fills.mem_parts hev
      rw [Insertions.insert_self] at hi
      obtain rfl := Option.some.inj hi
      refine ⟨r, by simp, slot, hm, fun id hid hne => ?_⟩
      rw [Insertions.insert_other _ hne]
      exact h.untouched id (hnew id hid)
    · rw [Insertions.insert_other _ hev] at hi
      obtain ⟨r', hr', slot', hm', hother⟩ := h.mended e he i hi
      refine ⟨r', List.mem_append_left _ hr', slot', hm', fun id hid hne => ?_⟩
      rw [Insertions.insert_other]
      · exact hother id hid hne
      · -- the new conversion goes around a value that no earlier remark is about
        rintro rfl
        exact hnew _ hm.mem_values (List.mem_flatMap.2 ⟨r', hr', hid⟩)

/-- What the store says about the form of an expression that may be a conversion. -/
theorem conversion?_eq (h : Pass info p base done s W) (he : e ∈ p.parts) :
    s.conversion? e.ref = e.conversion?.map fun c => (c.1, W.rename c.2.ref) := by
  have hread := h.represents.conversion?_eq (Program.wrapBelow_mem_parts W he)
  rw [Expr.ref_wrapBelow] at hread
  rw [hread]
  cases e with
  | call tag callee args =>
    have hcallee : W callee.ref = none := (h.sound.respects _ he).1
    rw [Expr.wrapBelow, Insertions.place, hcallee, Expr.wrapAll_eq]
    dsimp only
    cases callee with
    | name calleeTag text =>
      rcases args with _ | ⟨arg, _ | ⟨arg', args⟩⟩
      · rfl
      · exact congrArg (fun id => some (text, id)) (Expr.ref_wrap arg)
      · rfl
    | _ => rfl
  | _ => rfl

/-- Whether a value is converted already is as it was when the program was checked. -/
theorem isConverted_iff (h : Pass info p base done s W) {source target : BasicType}
    (he : e ∈ p.parts) (typed : info.typeOf e = some source)
    (written : target.isUntyped = false) :
    Repair.isConverted info.oracle s e.ref target.name source.name = true ↔
      info.Repeats e source target := by
  -- the argument of a conversion that has a type has one too, and nothing is put around it
  have hargument {arg : PlacedExpr} (hconversion : e.conversion? = some (target.name, arg)) :
      ∃ t, info.typeOf arg = some t ∧ info.oracle.typeOf s (W.rename arg.ref) = some t.name := by
    obtain ⟨tag, calleeTag, rfl⟩ := Expr.conversion?_eq_some.1 hconversion
    have hrespects := (h.sound.respects _ he).2
    have harg : arg ∈ p.parts := Program.mem_parts_of_child he (by simp [Expr.children])
    rw [TypeInfo.callee, TypeInfo.calleeNamed, BasicType.ofKeyword?_name written] at hrespects
    rw [TypeInfo.typeOf_call, TypeInfo.callee, TypeInfo.calleeNamed,
      BasicType.ofKeyword?_name written] at typed
    cases hbinding : info.bindings[calleeTag.id]? with
    | some type? =>
      rw [hbinding] at typed
      cases typed
    | none =>
      rw [hbinding] at typed hrespects
      have hW : W arg.ref = none := by
        rcases hrespects with hargs | ⟨signature, hfunction⟩
        · exact hargs arg (List.mem_singleton_self arg)
        · cases hfunction
      cases ht : info.typeOf arg with
      | none =>
        rw [List.map_singleton, ht] at typed
        cases typed
      | some t =>
        refine ⟨t, rfl, ?_⟩
        rw [Insertions.rename, hW]
        exact h.typeName harg ht
  rw [Repair.isConverted, h.conversion?_eq he, TypeInfo.repeats_iff]
  cases hconversion : e.conversion? with
  | none => simp
  | some c =>
    obtain ⟨text, arg⟩ := c
    simp only [Option.map_some, Bool.and_eq_true, beq_iff_eq, Option.some.injEq, Prod.mk.injEq]
    constructor
    · intro hconverted
      obtain ⟨rfl, hsource⟩ := hconverted
      obtain ⟨t, ht, hname⟩ := hargument hconversion
      obtain rfl : t = source :=
        BasicType.name_injective (Option.some.inj (hname.symm.trans hsource))
      exact ⟨arg, ⟨rfl, rfl⟩, ht⟩
    · intro hrepeats
      obtain ⟨_, ⟨rfl, rfl⟩, ht⟩ := hrepeats
      obtain ⟨t, ht', hname⟩ := hargument hconversion
      obtain rfl : t = source := Option.some.inj (ht'.symm.trans ht)
      exact ⟨rfl, hname⟩

/-- A value that is such a conversion already is left alone, any other one is converted where it
stands. -/
theorem wrap?_mending (h : Pass info p base done s W) (distinct : (p.parts.map Expr.ref).Nodup)
    {m : Mending} (hm : m.Valid info p r) (hW : W m.value.ref = none) :
    let wrapped? := Repair.wrap? info.oracle s m.slot m.target.name m.source.name
    if info.Repeats m.value m.source m.target then wrapped? = none
    else ∃ t, wrapped? = some t ∧ s.Inserts t p W m.slot m.value m.target := by
  have hiff := h.isConverted_iff hm.fills.mem_parts hm.typed hm.written
  have hslot : s.slot? m.slot = some m.value.ref := h.slot? hm.fills hW
  dsimp only
  rw [Repair.wrap?_eq, hslot, Option.bind_some]
  by_cases hrepeats : info.Repeats m.value m.source m.target
  · rw [if_pos hrepeats, if_pos (hiff.2 hrepeats)]
  · obtain ⟨t, hi⟩ := h.represents.insert distinct hm.fills hW m.target
    rw [if_neg hrepeats, if_neg fun hconverted => hrepeats (hiff.1 hconverted)]
    exact ⟨t, hi.added, hi⟩

/-- The types that a repair looks up are those that the checker found, so the repair comes to the
conversion that its remark is about. -/
theorem perform?_eq (h : Pass info p base done s W) (distinct : (p.parts.map Expr.ref).Nodup)
    {c : Checked} (hc : c.Describes p) (hinfo : info = c.info) (hr : r ∈ p.remarks)
    (hW : ∀ id ∈ r.values, W id = none) :
    r.perform? rules info.oracle s = (r.candidate? rules info).bind fun m =>
      Repair.wrap? info.oracle s m.slot m.target.name m.source.name := by
  subst hinfo
  cases r with
  | other => rfl
  | unfit fit v mode type target =>
    rw [Remark.perform?, Remark.repair?, Remark.candidate?]
    by_cases huntyped : type.isUntyped
    · rw [if_pos huntyped, if_pos huntyped]
      rfl
    rw [if_neg huntyped, if_neg huntyped]
    cases hw : fit.wanted? with
    | none => rfl
    | some wanted =>
      have hu := hc.unfit distinct hr hw
      rw [Option.bind_some, Option.bind_some]
      by_cases hassign : fit.destination = .assignment
      · -- the condition compares the value with the target as they are now
        obtain ⟨goal, hgoal, hg, htgoal⟩ := hu.goal hassign
        have hv := h.slot? hu.fills (hW _ (by simp [Remark.values]))
        have hcondition : Repair.conditionHolds c.info.oracle s fit.slot fit.goal?
            = type.convertibleTo wanted := by
          rw [hg, Repair.conditionHolds, hv, Option.bind_some,
            h.typeName hu.fills.mem_parts hu.typed, h.typeName hgoal htgoal]
          exact BasicType.convertibleNames_name type wanted
        rw [if_pos (.inl hassign), Option.bind_some, Repair.perform?, hcondition]
        cases type.convertibleTo wanted <;> rfl
      · have hcondition : Repair.conditionHolds c.info.oracle s fit.slot fit.goal? = true := by
          rw [hu.unconditional hassign]
          rfl
        by_cases hconvertible : type.convertibleTo wanted
        · rw [if_pos (.inr hconvertible), if_pos hconvertible, Option.bind_some, Option.bind_some,
            Repair.perform?, hcondition, if_pos rfl]
        · rw [if_neg (not_or.2 ⟨hassign, hconvertible⟩), if_neg hconvertible]
          rfl
  | operands tag op left right l r =>
    have apart := hc.apart hr
    have hside {side : PlacedExpr} (hs : side ∈ (Expr.binary tag op left right).children) :
        side ∈ p.parts := Program.mem_parts_of_child apart.holder hs
    have hnode : s.exprs[tag.id]? = some ⟨.binary op left.ref right.ref, tag.span⟩ := by
      obtain ⟨shape, hs, hn⟩ := h.represents.exprs _ (Program.wrapBelow_mem_parts W apart.holder)
      rw [Expr.shape?_wrapBelow] at hs
      cases hs
      have hleft : W.rename left.ref = left.ref := by
        rw [Insertions.rename, hW _ (by simp [Remark.values])]
      have hright : W.rename right.ref = right.ref := by
        rw [Insertions.rename, hW _ (by simp [Remark.values])]
      simp only [ExprShape.rename, hleft, hright] at hn
      exact hn
    have htl := h.typeName (hside (by simp [Expr.children])) apart.typedLeft
    have htr := h.typeName (hside (by simp [Expr.children])) apart.typedRight
    rw [Remark.perform?, Remark.repair?, Option.bind_some, Repair.perform?, Repair.balance?,
      Remark.candidate?]
    simp only [hnode, htl, htr]
    rcases Direction.choose _ _ with _ | _ | _ <;> rfl

/-- The repair for a remark makes the conversion that it is about, unless the value is such a
conversion already. -/
theorem perform?_mending (h : Pass info p base done s W) (rules : RuleTable)
    (distinct : (p.parts.map Expr.ref).Nodup)
    {c : Checked} (hc : c.Describes p) (hinfo : info = c.info) (hr : r ∈ p.remarks)
    (hW : ∀ id ∈ r.values, W id = none) :
    match r.mending? rules info with
    | some m => ∃ t, r.perform? rules info.oracle s = some t ∧
        r.Mends info p m.slot m.value m.target ∧ s.Inserts t p W m.slot m.value m.target
    | none => r.perform? rules info.oracle s = none := by
  rw [h.perform?_eq distinct hc hinfo hr hW, Remark.mending?]
  subst hinfo
  cases hm : r.candidate? rules c.info with
  | none => rfl
  | some m =>
    have hvalid := Remark.valid_candidate hc distinct hr hm
    have hwrap := h.wrap?_mending distinct hvalid (hW _ hvalid.mem_values)
    rw [Option.bind_some]
    by_cases hrepeats : c.info.Repeats m.value m.source m.target
    · rw [if_pos hrepeats] at hwrap
      rw [Option.filter_some_neg (by simpa using hrepeats)]
      exact hwrap
    · rw [if_neg hrepeats] at hwrap
      obtain ⟨t, ht, hi⟩ := hwrap
      rw [Option.filter_some_pos (by simpa using hrepeats)]
      exact ⟨t, ht, hvalid.mends hrepeats, hi⟩

/-- A repair either leaves the store alone or makes a conversion that its remark calls for. -/
theorem mends (h : Pass info p base done s W) (distinct : (p.parts.map Expr.ref).Nodup)
    {c : Checked} (hc : c.Describes p) (hinfo : info = c.info) (hr : r ∈ p.remarks)
    (hW : ∀ id ∈ r.values, W id = none) (ht : r.perform? rules info.oracle s = some t) :
    ∃ slot v type, r.Mends info p slot v type ∧ s.Inserts t p W slot v type := by
  have hperform := h.perform?_mending rules distinct hc hinfo hr hW
  cases hm : r.mending? rules info with
  | none =>
    rw [hm] at hperform
    cases ht.symm.trans hperform
  | some m =>
    rw [hm] at hperform
    obtain ⟨t', ht', hmends, hi⟩ := hperform
    obtain rfl : t' = t := Option.some.inj (ht'.symm.trans ht)
    exact ⟨m.slot, m.value, m.target, hmends, hi⟩

/-- The next repair of a pass does for the values of its remark what the remark asks for, and it
changes nothing about other values. -/
theorem next (h : Pass info p base done s W) (rules : RuleTable)
    (distinct : (p.parts.map Expr.ref).Nodup) {c : Checked} (hc : c.Describes p)
    (hinfo : info = c.info) (hr : r ∈ p.remarks)
    (hnew : ∀ id ∈ r.values, id ∉ done.flatMap Remark.values) :
    ∃ W', Pass info p base (done ++ [r]) (r.apply rules info.oracle s) W' ∧
      (∀ id, id ∉ r.values → W' id = W id) ∧
      (∀ id ∈ r.values, W'.types id = r.made? rules info id) ∧
      (r.apply rules info.oracle s).exprs.size
        = s.exprs.size + 2 * (r.mending? rules info).toList.length := by
  have hW : ∀ id ∈ r.values, W id = none := fun id hid => h.untouched id (hnew id hid)
  have hperform := h.perform?_mending rules distinct hc hinfo hr hW
  rw [Remark.apply]
  cases hm : r.mending? rules info with
  | none =>
    rw [hm] at hperform
    rw [hperform]
    refine ⟨W, h.skip [r], fun _ _ => rfl, fun id hid => ?_, rfl⟩
    rw [Insertions.types, hW id hid, Remark.made?, hm]
    rfl
  | some m =>
    rw [hm] at hperform
    obtain ⟨t, ht, hmends, hi⟩ := hperform
    rw [ht]
    refine ⟨_, h.insert distinct hmends hnew hi, fun id hid => Insertions.insert_other _ ?_,
      fun id hid => ?_, hi.size⟩
    · rintro rfl
      exact hid hmends.mem_values
    · rw [Insertions.types, Remark.made?, hm]
      by_cases hid' : id = m.value.ref
      · subst hid'
        rw [Insertions.insert_self, Option.filter_some_pos (by simp)]
        rfl
      · rw [Insertions.insert_other _ hid', hW id hid,
          Option.filter_some_neg (by simpa using Ne.symm hid')]
        rfl

/-- A pass goes on through further remarks, does for their values what they ask for, and changes
nothing about values that it had to do with before. -/
theorem run (rules : RuleTable) (distinct : (p.parts.map Expr.ref).Nodup) {c : Checked}
    (hc : c.Describes p) (hinfo : info = c.info) (rs : List Remark) :
    ∀ {done : List Remark} {s : Store} {W : Insertions BasicType},
      Pass info p base done s W → (∀ r ∈ rs, r ∈ p.remarks) →
        ((done ++ rs).flatMap Remark.values).Nodup →
          let t := rs.foldl (Remark.apply rules info.oracle) s
          ∃ W', Pass info p base (done ++ rs) t W' ∧
            (∀ id ∈ done.flatMap Remark.values, W' id = W id) ∧
            (∀ r ∈ rs, ∀ id ∈ r.values, W'.types id = r.made? rules info id) ∧
            t.exprs.size
              = s.exprs.size + 2 * (rs.filterMap (Remark.mending? rules info)).length := by
  induction rs with
  | nil =>
    intro done s W h _ _ t
    refine ⟨W, ?_, fun _ _ => rfl, fun _ hr => absurd hr List.not_mem_nil, rfl⟩
    rw [List.append_nil]
    exact h
  | cons r rs ih =>
    intro done s W h hrs hnodup t
    have hdone : done ++ r :: rs = done ++ [r] ++ rs := by simp
    rw [hdone] at hnodup ⊢
    have hnew : ∀ id ∈ r.values, id ∉ done.flatMap Remark.values := by
      rw [List.flatMap_append, List.flatMap_append, List.flatMap_singleton] at hnodup
      have := (List.nodup_append.1 (List.nodup_append.1 hnodup).1).2.2
      exact fun id hid hm => this id hm id hid rfl
    have hmem {id : ExprId} (hid : id ∈ done.flatMap Remark.values ∨ id ∈ r.values) :
        id ∈ (done ++ [r]).flatMap Remark.values := by
      rw [List.flatMap_append, List.flatMap_singleton]
      exact List.mem_append.2 hid
    obtain ⟨W₁, h₁, hsame₁, hmade₁, hsize₁⟩ :=
      h.next rules distinct hc hinfo (hrs r List.mem_cons_self) hnew
    obtain ⟨W₂, h₂, hsame₂, hmade₂, hsize₂⟩ :=
      ih h₁ (fun r hr => hrs r (List.mem_cons_of_mem _ hr)) hnodup
    refine ⟨W₂, h₂, fun id hid => ?_, fun r' hr' id hid => ?_, ?_⟩
    · exact (hsame₂ id (hmem (.inl hid))).trans (hsame₁ id fun hm => hnew id hm hid)
    · rcases List.mem_cons.1 hr' with rfl | hr'
      · rw [Insertions.types, hsame₂ id (hmem (.inr hid))]
        exact hmade₁ id hid
      · exact hmade₂ r' hr' id hid
    · show (rs.foldl _ (r.apply rules info.oracle s)).exprs.size = _
      rw [hsize₂, hsize₁]
      cases hm : r.mending? rules info with
      | none =>
        rw [List.filterMap_cons_none hm]
        rfl
      | some m =>
        rw [List.filterMap_cons_some hm, List.length_cons]
        simp only [Option.toList_some, List.length_singleton]
        omega

/-- When a pass comes to a remark, it has not touched the values that the remark is about. -/
theorem exists_before (hs : s.Represents p) {c : Checked} (hc : c.Describes p)
    {before rest : List Remark} (hp : p.remarks = before ++ r :: rest) :
    ∃ W, Pass c.info p s.exprs.size before
        (before.foldl (Remark.apply rules c.info.oracle) s) W ∧
      ∀ id ∈ r.values, id ∉ before.flatMap Remark.values := by
  have hnodup := Program.nodup_values_remarks hs.distinct
  rw [hp, List.flatMap_append, List.nodup_append] at hnodup
  obtain ⟨hbefore, -, hnew⟩ := hnodup
  obtain ⟨W, hpass, -⟩ := (Pass.start hs).run rules hs.distinct hc rfl before
    (fun r hr => by simp [hp, hr]) hbefore
  refine ⟨W, hpass, fun id hid hm => hnew id hm id ?_ rfl⟩
  rw [List.flatMap_cons]
  exact List.mem_append_left _ hid

/-- Whether the repair for a remark changes anything can be told from the check. -/
theorem isSome_perform? (hs : s.Represents p) {c : Checked} (hc : c.Describes p)
    {before rest : List Remark} (hp : p.remarks = before ++ r :: rest) :
    (r.perform? rules c.info.oracle (before.foldl (Remark.apply rules c.info.oracle) s)).isSome
      = (r.mending? rules c.info).isSome := by
  obtain ⟨W, hpass, hnew⟩ := exists_before hs hc hp
  have hperform := hpass.perform?_mending rules hs.distinct hc rfl (by simp [hp])
    fun id hid => hpass.untouched id (hnew id hid)
  cases hm : r.mending? rules c.info with
  | none =>
    rw [hm] at hperform
    rw [hperform]
    rfl
  | some m =>
    rw [hm] at hperform
    obtain ⟨t, ht, -⟩ := hperform
    rw [ht]
    rfl

/-- A repair that changes anything puts a new conversion around the value in a slot, and it stays
there for the rest of the pass. -/
theorem run_inserted (hs : s.Represents p) {c : Checked} (hc : c.Describes p)
    {before middle after : List Remark} (hp : p.remarks = before ++ r :: (middle ++ after)) :
    let u := before.foldl (Remark.apply rules c.info.oracle) s
    (r.perform? rules c.info.oracle u).isSome →
      ∃ W slot v type, Pass c.info p s.exprs.size (before ++ r :: middle)
          ((before ++ r :: middle).foldl (Remark.apply rules c.info.oracle) s) W ∧
        r.Mends c.info p slot v type ∧ u.slot? slot = some v.ref ∧
        r.perform? rules c.info.oracle u = (u.addConversion type.name v.ref).2.setSlot? slot
          (u.addConversion type.name v.ref).1 ∧
        W v.ref = some (u.insertion v type) ∧ ∀ id ∈ r.values, id ≠ v.ref → W id = none := by
  intro u ht
  have hnodup : ((before ++ [r] ++ middle).flatMap Remark.values).Nodup := by
    have := Program.nodup_values_remarks hs.distinct
    rw [hp, List.append_cons, ← List.append_assoc, List.flatMap_append] at this
    exact (List.nodup_append.1 this).1
  obtain ⟨t, ht⟩ := Option.isSome_iff_exists.1 ht
  obtain ⟨W₁, h₁, hnew⟩ := exists_before hs hc hp
  have hW : ∀ id ∈ r.values, W₁ id = none := fun id hid => h₁.untouched id (hnew id hid)
  obtain ⟨slot, v, type, hm, hi⟩ := h₁.mends hs.distinct hc rfl (by simp [hp]) hW ht
  obtain ⟨W₂, h₂, hsame, -, -⟩ := (h₁.insert hs.distinct hm hnew hi).run rules hs.distinct hc rfl
    middle (fun r hr => by simp [hp, hr]) hnodup
  have hside {id : ExprId} (hid : id ∈ r.values) :
      W₂ id = W₁.insert v.ref (u.insertion v type) id :=
    hsame id (by simp [List.flatMap_append, hid])
  refine ⟨W₂, slot, v, type, ?_, hm, h₁.slot? hm.fills (hW _ hm.mem_values),
    ht.trans hi.added.symm, ?_, fun id hid hne => ?_⟩
  · rw [List.foldl_append, List.foldl_cons, Remark.apply, ht]
    simpa using h₂
  · exact (hside hm.mem_values).trans (Insertions.insert_self _ _)
  · exact (hside hid).trans ((Insertions.insert_other _ hne).trans (hW id hid))

/-- A repair that changes anything puts a conversion around a value, and it stays there for the rest
of the pass. -/
theorem run_applied (hs : s.Represents p) {c : Checked} (hc : c.Describes p)
    {before middle after : List Remark} (hp : p.remarks = before ++ r :: (middle ++ after))
    (ht : (r.perform? rules c.info.oracle
      (before.foldl (Remark.apply rules c.info.oracle) s)).isSome) :
    ∃ W slot v i, Pass c.info p s.exprs.size (before ++ r :: middle)
        ((before ++ r :: middle).foldl (Remark.apply rules c.info.oracle) s) W ∧
      r.Mends c.info p slot v i.type ∧ W v.ref = some i ∧
        ∀ id ∈ r.values, id ≠ v.ref → W id = none := by
  obtain ⟨W, slot, v, type, hpass, hm, -, -, hself, hother⟩ := run_inserted hs hc hp ht
  exact ⟨W, slot, v, _, hpass, hm, hself, hother⟩

end Pass

/-! ### The plan -/

theorem performNext_fst (rules : RuleTable) (q : TypeOracle) (state : Store × RepairReport)
    (repair : Repair) :
    (performNext rules q state repair).1 = (repair.perform? rules q state.1).getD state.1 := by
  unfold performNext
  split
  · rename_i h
    rw [h, Option.getD_some]
  · rename_i h
    rw [h, Option.getD_none]

/-- A pass over the repairs for remarks. -/
theorem performAll_remarks (rules : RuleTable) (q : TypeOracle) (s : Store) (rs : List Remark) :
    (performAll rules q s (rs.filterMap Remark.repair?)).1
      = rs.foldl (Remark.apply rules q) s := by
  have hfold (repairs : List Repair) : ∀ state : Store × RepairReport,
      (repairs.foldl (performNext rules q) state).1
        = repairs.foldl (fun s repair => (repair.perform? rules q s).getD s) state.1 := by
    induction repairs with
    | nil => exact fun _ => rfl
    | cons repair repairs ih => exact fun state => (ih _).trans (by rw [performNext_fst]; rfl)
  rw [performAll, hfold, List.foldl_filterMap]
  congr 1
  funext s r
  rw [Remark.apply, Remark.perform?]
  cases r.repair? <;> rfl

/-- A planned repair comes from a remark, and the repairs before and after it from the remarks
before and after that one. -/
theorem exists_remark_of_plan {rs : List Remark} {before middle after : List Repair}
    {repair : Repair} (h : rs.filterMap Remark.repair? = before ++ repair :: (middle ++ after)) :
    ∃ rs₁ r rs₂ rs₃, rs = rs₁ ++ r :: (rs₂ ++ rs₃) ∧ r.repair? = some repair ∧
      rs₁.filterMap Remark.repair? = before ∧ rs₂.filterMap Remark.repair? = middle ∧
        rs₃.filterMap Remark.repair? = after := by
  obtain ⟨rs₁, rest, rfl, rfl, hrest⟩ := List.filterMap_eq_append_iff.1 h
  obtain ⟨skipped, r, rest, rfl, hskipped, hr, hrest⟩ := List.filterMap_eq_cons_iff.1 hrest
  obtain ⟨rs₂, rs₃, rfl, rfl, rfl⟩ := List.filterMap_eq_append_iff.1 hrest
  refine ⟨rs₁ ++ skipped, r, rs₂, rs₃, by simp, hr, ?_, rfl, rfl⟩
  rw [List.filterMap_append, List.filterMap_eq_nil_iff.2 hskipped, List.append_nil]

theorem mapM_ok {ε β γ δ : Type} {f : β → Except ε γ} {g : δ → β} {h : δ → γ} {xs : List δ}
    (hf : ∀ x ∈ xs, f (g x) = .ok (h x)) : (xs.map g).mapM f = .ok (xs.map h) := by
  induction xs with
  | nil => rfl
  | cons x xs ih =>
    rw [List.map_cons, List.mapM_cons, hf x List.mem_cons_self,
      ih fun x hx => hf x (List.mem_cons_of_mem _ hx)]
    rfl

/-- The repairs for diagnostics of a check are those for their remarks. -/
theorem planAll_remarks {source : String} {tree : SourceProgram} (h : parse source = .ok tree)
    {rs : List Remark} :
    let st := Store.ofProgram tree
    let p := st.program
    (∀ r ∈ rs, r ∈ p.remarks) →
      planAll Classifier.standard.classify p.check.info.oracle st
          (rs.map fun r => r.finding.diagnostic) = .ok (rs.filterMap Remark.repair?) := by
  intro st p hrs
  have hs : Stored tree p := stored_program tree
  have hc : p.check.Describes p := hs.represents.check_describes
  have hplan : ∀ r ∈ rs, planOne Classifier.standard.classify p.check.info.oracle st p
      r.finding.diagnostic = .ok r.repair? := fun r hr =>
    planOne_remark hs.represents (hs.wellPlaced h) hc (hrs r hr)
      ((classify_checked h).2 r (hrs r hr))
  rw [planAll]
  show (List.mapM (planOne _ _ st p) _ >>= _) = _
  rw [mapM_ok hplan]
  show Except.ok ((rs.map Remark.repair?).filterMap id) = _
  rw [List.filterMap_map]
  rfl

/-- The repairs for the diagnostics of a check are those for its remarks. -/
theorem planAll_checked {source : String} {tree : SourceProgram} (h : parse source = .ok tree) :
    let st := Store.ofProgram tree
    let p := st.program
    planAll Classifier.standard.classify p.check.info.oracle st p.check.diagnostics
      = .ok (p.remarks.filterMap Remark.repair?) := by
  intro st p
  rw [(classify_checked h).1]
  exact planAll_remarks h fun _ hr => hr

/-- Repairing a checked program, with its diagnostics in any order, is a pass over the remarks of
the check. Each remark gets what it asks for. -/
theorem exists_pass_of_perm {source : String} {tree : SourceProgram} (h : parse source = .ok tree)
    (rules : RuleTable) {rs : List Remark} :
    let st := Store.ofProgram tree
    let p := st.program
    rs.Perm p.remarks →
      ∃ t report W, repair rules Classifier.standard.classify p.check.info.oracle st
          (rs.map fun r => r.finding.diagnostic) = .ok (t, report) ∧
        performAll rules p.check.info.oracle st (rs.filterMap Remark.repair?) = (t, report) ∧
        Pass p.check.info p st.exprs.size rs t W ∧
        (∀ r ∈ rs, ∀ id ∈ r.values, W.types id = r.made? rules p.check.info id) ∧
        t.exprs.size
          = st.exprs.size + 2 * (rs.filterMap (Remark.mending? rules p.check.info)).length := by
  intro st p hperm
  have hs : st.Represents p := (stored_program tree).represents
  have hnodup : (rs.flatMap Remark.values).Nodup :=
    (hperm.flatMap_right _).nodup_iff.2 (Program.nodup_values_remarks hs.distinct)
  have hrs : ∀ r ∈ rs, r ∈ p.remarks := fun r hr => hperm.mem_iff.1 hr
  obtain ⟨W, hpass, -, hmade, hsize⟩ := (Pass.start hs).run rules hs.distinct hs.check_describes rfl
    rs hrs hnodup
  let out := performAll rules p.check.info.oracle st (rs.filterMap Remark.repair?)
  have hout : out.1 = rs.foldl (Remark.apply rules p.check.info.oracle) st :=
    performAll_remarks rules _ st rs
  refine ⟨out.1, out.2, W, ?_, rfl, ?_, hmade, ?_⟩
  · rw [repair, planAll_remarks h hrs]
    rfl
  · rw [hout]
    exact hpass
  · rw [hout]
    exact hsize

/-- Repairing a checked program is a pass over the remarks of the check. -/
theorem exists_pass {source : String} {tree : SourceProgram} (h : parse source = .ok tree)
    (rules : RuleTable) :
    let st := Store.ofProgram tree
    let p := st.program
    ∃ t report W, repair rules Classifier.standard.classify p.check.info.oracle st
        p.check.diagnostics = .ok (t, report) ∧
      t = p.remarks.foldl (Remark.apply rules p.check.info.oracle) st ∧
      Pass p.check.info p st.exprs.size p.remarks t W := by
  intro st p
  obtain ⟨t, report, W, hrepair, hout, hpass, -, -⟩ :=
    exists_pass_of_perm h rules (List.Perm.refl p.remarks)
  refine ⟨t, report, W, ?_, ?_, hpass⟩
  · rw [(classify_checked h).1]
    exact hrepair
  · rw [← performAll_remarks, hout]

/-- A text that can be read is fixed by what the pass of repairs makes of its tree. -/
theorem fix_eq_ok {source : String} {tree : SourceProgram} (h : parse source = .ok tree)
    {rules : RuleTable} {t : Store} {report : RepairReport}
    (hrepair : repair rules Classifier.standard.classify
      (Store.ofProgram tree).program.check.info.oracle (Store.ofProgram tree)
      (Store.ofProgram tree).program.check.diagnostics = .ok (t, report)) :
    fix rules source
      = .ok ⟨t.program.render, report, (Store.ofProgram tree).program.check.diagnostics⟩ := by
  rw [fix, fixWith, h]
  dsimp only
  rw [hrepair]

end Recast
