import Recast.Proofs.Repair.Insert
import Recast.Proofs.Repair.Pending
import Recast.Proofs.Repair.Sound
import Recast.Proofs.Types.Bodies

/-!
# Conversions use up what may still be made

When conversions are put into a program because of what the checker says about it, the bound on the
conversions that may still be made goes down by at least as many. Types that are known stay known on
the way, also those of variables, so no other part of the bound goes up.
-/

namespace Recast

/-! ### Conversions that mend something -/

/-- The conversion mends a value that stands where a type is wanted. -/
structure Insertion.Mends (i : Insertion BasicType) (S : Scope) (wanted? : Option BasicType)
    (e : PlacedExpr) : Prop where
  wanted : wanted? = some i.type
  written : i.type.isUntyped = false
  typed : ∃ t, e.typeIn S = some t ∧ t.convertibleTo i.type
  news : e.typeIn S = some i.type → S.repeats i.type e = false

/-- The operands have types that do not go together. -/
def Scope.Apart (S : Scope) (left right : PlacedExpr) : Prop :=
  ∃ l r, left.typeIn S = some l ∧ right.typeIn S = some r ∧ l.unify? r = none

namespace Insertions

variable (W : Insertions BasicType)

/-- The conversions around children of an expression mend what the checker says about it. -/
def MendsBelow (S : Scope) : PlacedExpr → Prop
  | .paren _ inner => W inner.ref = none
  | .neg _ operand => W operand.ref = none
  | .binary _ _ left right => (W left.ref = none ∧ W right.ref = none) ∨ S.Apart left right ∧
    ((∃ i, W left.ref = some i ∧ W right.ref = none ∧ i.Mends S (right.typeIn S) left) ∨
      ∃ i, W right.ref = some i ∧ W left.ref = none ∧ i.Mends S (left.typeIn S) right)
  | .call _ callee args => W callee.ref = none ∧ ∀ k arg i, args[k]? = some arg →
    W arg.ref = some i → ∃ signature, S.callee callee = .function signature ∧
      i.Mends S (signature.wantedAt args.length k) arg
  | _ => True

/-- How many of the expressions get a conversion. -/
def count (es : List PlacedExpr) : Nat := es.countP fun e => (W e.ref).isSome

variable {W}

theorem count_cons (e : PlacedExpr) (es : List PlacedExpr) :
    W.count (e :: es) = W.count [e] + W.count es := by
  rw [← List.singleton_append, count, List.countP_append]
  rfl

theorem count_append (es fs : List PlacedExpr) :
    W.count (es ++ fs) = W.count es + W.count fs := List.countP_append

theorem count_of_none {e : PlacedExpr} (h : W e.ref = none) : W.count [e] = 0 := by
  simp [count, h]

theorem count_of_some {e : PlacedExpr} {i : Insertion BasicType} (h : W e.ref = some i) :
    W.count [e] = 1 := by
  simp [count, h]

end Insertions

section

variable {W : Insertions BasicType} {S S' : Scope} {e left right : PlacedExpr} {i : Insertion BasicType}
  {wanted? wanted?' : Option BasicType} {own : List (Option BasicType)}

/-! ### Types -/

theorem Scope.Grows.callee_wrapBelow (hS : S.Grows S') (W : Insertions BasicType)
    (h : ∀ type?, S.callee e ≠ .variable type?) : S'.callee (e.wrapBelow W) = S.callee e := by
  cases e with
  | name tag text =>
    cases hx : S.locals text with
    | none => exact hS.calleeNamed_eq hx
    | some type? => exact absurd (by rw [callee, calleeNamed, hx]) (h type?)
  | _ => rfl

theorem Scope.Grows.callee_variable (hS : S.Grows S') (W : Insertions BasicType) {type? : Option BasicType}
    (h : S.callee e = .variable type?) : ∃ type?', S'.callee (e.wrapBelow W) = .variable type?' := by
  cases e with
  | name tag text =>
    cases refers_of_calleeNamed h with
    | «variable» isLocal => exact calleeNamed_of_isSome (hS.isSome_locals (by rw [isLocal]; rfl))
  | _ => cases h

/-- An expression keeps its type when conversions that mend something are put around expressions
below it. -/
theorem Expr.grows_wrapBelow (hS : S.Grows S') (h : ∀ part ∈ e.parts, W.MendsBelow S part) :
    TypeGrows (e.typeIn S) ((e.wrapBelow W).typeIn S') := by
  induction e using Expr.inductChildren with
  | step e ih =>
    intro t ht
    have hself := h e e.self_mem_parts
    have hchild {child : PlacedExpr} (hc : child ∈ e.children) (hW : W child.ref = none) :
        TypeGrows (child.typeIn S) ((child.wrap W).typeIn S') := by
      rw [wrap_of_none hW]
      exact ih child hc fun part hp => h part (mem_parts_of_child hc hp)
    cases e with
    | hole => cases ht
    | literal _ kind => cases kind <;> exact ht
    | name tag text => exact hS.typed text t ht
    | paren tag inner => exact hchild (by simp [children]) hself t ht
    | neg tag operand =>
      rw [typeIn] at ht
      have hu := (Option.filter_eq_some_iff.1 ht).1
      show ((operand.wrap W).typeIn S').filter _ = _
      rw [hchild (by simp [children]) hself t hu]
      exact hu ▸ ht
    | binary tag op left right =>
      rw [typeIn] at ht
      obtain ⟨l, r, operand, hl, hr, hu, -⟩ := BinaryOp.typeOf?_eq_some.1 ht
      obtain ⟨hleft, hright⟩ : W left.ref = none ∧ W right.ref = none := by
        rcases hself with hself | ⟨⟨l', r', hl', hr', hapart⟩, -⟩
        · exact hself
        · rw [Option.some.inj (hl'.symm.trans hl), Option.some.inj (hr'.symm.trans hr)] at hapart
          rw [hapart] at hu
          cases hu
      show op.typeOf? ((left.wrap W).typeIn S') ((right.wrap W).typeIn S') = some t
      rw [hchild (by simp [children]) hleft l hl, hchild (by simp [children]) hright r hr, ← hl,
        ← hr]
      exact ht
    | call tag callee args =>
      obtain ⟨hcallee, hargs⟩ := hself
      rw [typeIn] at ht
      rw [wrapBelow, wrapAll_eq, typeIn, Insertions.place, hcallee]
      dsimp only
      cases hc : S.callee callee with
      | function signature =>
        rw [hS.callee_wrapBelow W (by simp [hc]), hc]
        rw [hc] at ht
        exact ht
      | conversion target =>
        rw [hS.callee_wrapBelow W (by simp [hc]), hc]
        rw [hc, typesIn_eq] at ht
        obtain ⟨u, htypes, -⟩ := BasicType.converted?_eq_some.1 ht
        obtain ⟨arg, rfl, hu⟩ := List.map_eq_singleton_iff.1 htypes
        have hnone : W arg.ref = none := by
          refine Option.eq_none_iff_forall_ne_some.2 fun i hi => ?_
          obtain ⟨signature, hf, -⟩ := hargs 0 arg i rfl hi
          cases hf.symm.trans hc
        rw [typesIn_eq, List.map_singleton, List.map_singleton,
          hchild (by simp [children]) hnone u hu, ← hu]
        exact ht
      | _ =>
        rw [hc] at ht
        cases ht

theorem Scope.callsVariable_wrapBelow (hS : S.Grows S') (h : W.MendsBelow S e)
    (hv : S.callsVariable e = true) : S'.callsVariable (e.wrapBelow W) = true := by
  unfold callsVariable at hv
  split at hv
  · rename_i tag tag' text args
    have hname : (Expr.name tag' text : PlacedExpr).wrap W = .name tag' text :=
      Expr.wrap_of_none h.1
    show S'.callsVariable (.call tag ((Expr.name tag' text).wrap W) (Expr.wrapAll W args)) = true
    rw [hname]
    exact hS.isSome_locals hv
  · cases hv

theorem Scope.repeats_wrapBelow (hS : S.Grows S') (h : ∀ part ∈ e.parts, W.MendsBelow S part)
    {type : BasicType} (hr : S.repeats type e = true) : S'.repeats type (e.wrapBelow W) = true := by
  unfold repeats at hr
  split at hr
  · rename_i tag callee arg
    obtain ⟨hcallee, hargs⟩ := h _ (Expr.self_mem_parts _)
    rw [Bool.and_eq_true] at hr
    obtain ⟨hconversion, harg⟩ := hr
    have hc : S'.callee (callee.wrap W) = S.callee callee := by
      rw [Expr.wrap_of_none hcallee]
      refine hS.callee_wrapBelow W fun type? hc => ?_
      simp [hc] at hconversion
    have hnone : W arg.ref = none := by
      refine Option.eq_none_iff_forall_ne_some.2 fun i hi => ?_
      obtain ⟨signature, hf, -⟩ := hargs 0 arg i rfl hi
      simp [hf] at hconversion
    have harg' : (arg.wrap W).typeIn S' = some type := by
      rw [Expr.wrap_of_none hnone]
      refine Expr.grows_wrapBelow hS (fun part hp => h part ?_) _ (by simpa using harg)
      exact Expr.mem_parts_of_child (by simp [Expr.children]) hp
    show S'.repeats type (.call tag (callee.wrap W) [arg.wrap W]) = true
    rw [repeats, hc, hconversion, harg', beq_self_eq_true]
    rfl
  · cases hr

/-! ### Values -/

/-- The four states of a value that stands where a type is wanted. -/
theorem Scope.pendingAt_cases (S : Scope) (wanted? : Option BasicType) (e : PlacedExpr) :
    (S.callsVariable e = true ∧ S.pendingAt wanted? e = 0) ∨
      (∃ t, wanted? = some t ∧ e.typeIn S = some t ∧
        (S.repeats t e = true ∧ S.pendingAt wanted? e = 0 ∨ S.pendingAt wanted? e = 1)) ∨
        S.pendingAt wanted? e = 2 := by
  unfold pendingAt
  by_cases hv : S.callsVariable e = true
  · exact .inl ⟨hv, if_pos hv⟩
  · rw [if_neg hv]
    cases ht : e.typeIn S with
    | none => exact .inr (.inr rfl)
    | some type =>
      cases wanted? with
      | none => exact .inr (.inr rfl)
      | some wanted =>
        dsimp only
        by_cases heq : type = wanted
        · subst heq
          rw [if_pos rfl]
          refine .inr (.inl ⟨type, rfl, rfl, ?_⟩)
          split
          · exact .inl ⟨‹_›, rfl⟩
          · exact .inr rfl
        · exact .inr (.inr (if_neg heq))

theorem Scope.pendingAt_of_callsVariable (h : S.callsVariable e = true) :
    S.pendingAt wanted? e = 0 := if_pos h

theorem Scope.pendingAt_of_repeats {t : BasicType} (ht : e.typeIn S = some t)
    (h : S.repeats t e = true) : S.pendingAt (some t) e = 0 := by
  simp [pendingAt, ht, h]

theorem Scope.pendingAt_of_typed {t : BasicType} (ht : e.typeIn S = some t) :
    S.pendingAt (some t) e ≤ 1 := by
  unfold pendingAt
  rw [ht]
  dsimp only
  rw [if_pos rfl]
  repeat' split
  all_goals omega

theorem Scope.pendingAt_wrapBelow (hS : S.Grows S') (h : ∀ part ∈ e.parts, W.MendsBelow S part)
    (hw : TypeGrows wanted? wanted?') :
    S'.pendingAt wanted?' (e.wrapBelow W) ≤ S.pendingAt wanted? e := by
  have htype := Expr.grows_wrapBelow hS h
  rcases S.pendingAt_cases wanted? e with ⟨hv, hp⟩ | ⟨t, hwanted, ht, ⟨hr, hp⟩ | hp⟩ | hp
  · rw [pendingAt_of_callsVariable (callsVariable_wrapBelow hS (h e e.self_mem_parts) hv)]
    exact Nat.zero_le _
  · rw [hw t hwanted, pendingAt_of_repeats (htype t ht) (repeats_wrapBelow hS h hr)]
    exact Nat.zero_le _
  · rw [hw t hwanted, hp]
    exact pendingAt_of_typed (htype t ht)
  · rw [hp]
    exact pendingAt_le _ _ _

/-- The conversion of a value has the type that it names, unless that is the name of a variable. -/
theorem Insertion.typeIn_around (written : i.type.isUntyped = false)
    (hc : ∃ t, e.typeIn S = some t ∧ t.convertibleTo i.type) :
    S.callsVariable (i.around e) = true ∨
      S.callee (.name i.callee i.type.name : PlacedExpr) = .conversion i.type ∧
        (i.around e).typeIn S = some i.type := by
  obtain ⟨t, ht, hc⟩ := hc
  cases hx : S.locals i.type.name with
  | some type? =>
    refine .inl ?_
    show (S.locals i.type.name).isSome = true
    rw [hx]
    rfl
  | none =>
    have hcallee : S.callee (.name i.callee i.type.name : PlacedExpr) = .conversion i.type := by
      rw [Scope.callee, Scope.calleeNamed, hx, BasicType.ofKeyword?_name written]
    refine .inr ⟨hcallee, ?_⟩
    rw [around_eq, Expr.typeIn, hcallee, Expr.typesIn_eq, List.map_singleton, ht]
    exact BasicType.converted?_eq_some.2 ⟨t, rfl, hc, rfl⟩

theorem Insertion.Mends.pendingAt_around (hm : i.Mends S wanted? e) {e' : PlacedExpr}
    (htype : TypeGrows (e.typeIn S) (e'.typeIn S')) (hw : TypeGrows wanted? wanted?') :
    S'.pendingAt wanted?' (i.around e') + 1 ≤ S.pendingAt wanted? e := by
  obtain ⟨t, ht, hconvertible⟩ := hm.typed
  have hpos : 1 ≤ S.pendingAt wanted? e := by
    rcases S.pendingAt_cases wanted? e with ⟨hv, -⟩ | ⟨u, hu, ht', ⟨hr, -⟩ | hp⟩ | hp
    · rw [Scope.typeIn_of_callsVariable hv] at ht
      cases ht
    · obtain rfl := Option.some.inj (hu.symm.trans hm.wanted)
      rw [hm.news ht'] at hr
      cases hr
    · exact hp.ge
    · omega
  rw [hw _ hm.wanted]
  rcases Insertion.typeIn_around hm.written ⟨t, htype t ht, hconvertible⟩ with hv | ⟨hc, ht'⟩
  · rw [Scope.pendingAt_of_callsVariable hv]
    exact hpos
  · by_cases heq : t = i.type
    · subst heq
      have hr : S'.repeats i.type (i.around e') = true := by
        rw [around_eq, Scope.repeats, hc, htype _ ht]
        simp
      rw [Scope.pendingAt_of_repeats ht' hr]
      exact hpos
    · have htwo : S.pendingAt wanted? e = 2 := by
        rcases S.pendingAt_cases wanted? e with ⟨hv, -⟩ | ⟨u, hu, hu', -⟩ | hp
        · rw [Scope.typeIn_of_callsVariable hv] at ht
          cases ht
        · exact absurd (Option.some.inj ((ht.symm.trans hu').trans (hu.symm.trans hm.wanted))) heq
        · exact hp
      rw [htwo]
      exact Nat.succ_le_succ (Scope.pendingAt_of_typed ht')

theorem Scope.pendingAt_wrap (hS : S.Grows S') (h : ∀ part ∈ e.parts, W.MendsBelow S part)
    (hw : TypeGrows wanted? wanted?') (hm : ∀ i, W e.ref = some i → i.Mends S wanted? e) :
    S'.pendingAt wanted?' (e.wrap W) + W.count [e] ≤ S.pendingAt wanted? e := by
  cases hi : W e.ref with
  | none =>
    rw [Expr.wrap_of_none hi, Insertions.count_of_none hi]
    exact pendingAt_wrapBelow hS h hw
  | some i =>
    rw [Expr.wrap_of_some hi, Insertions.count_of_some hi]
    exact (hm i hi).pendingAt_around (Expr.grows_wrapBelow hS h) hw

theorem Scope.pendingValues_wrap (hS : S.Grows S') {es : List PlacedExpr}
    {wanted wanted' : Nat → Option BasicType}
    (h : ∀ root ∈ es, ∀ part ∈ root.parts, W.MendsBelow S part)
    (hw : ∀ k, TypeGrows (wanted k) (wanted' k))
    (hm : ∀ k e i, es[k]? = some e → W e.ref = some i → i.Mends S (wanted k) e) :
    S'.pendingValues wanted' (es.map (Expr.wrap W)) + W.count es ≤ S.pendingValues wanted es := by
  induction es generalizing wanted wanted' with
  | nil => exact Nat.le_refl _
  | cons e es ih =>
    have hfirst := pendingAt_wrap hS (h e List.mem_cons_self) (hw 0) (fun i => hm 0 e i rfl)
    have hrest := ih (fun root hr => h root (List.mem_cons_of_mem _ hr)) (fun k => hw (k + 1))
      (fun k e i => hm (k + 1) e i)
    rw [List.map_cons, pendingValues, pendingValues, Insertions.count_cons]
    omega

/-! ### Operands -/

theorem Scope.settled_wrap (hS : S.Grows S') (hl : ∀ part ∈ left.parts, W.MendsBelow S part)
    (hr : ∀ part ∈ right.parts, W.MendsBelow S part) (hleft : W left.ref = none)
    (hright : W right.ref = none) (h : S.settled left right = true) :
    S'.settled (left.wrap W) (right.wrap W) = true := by
  rw [Expr.wrap_of_none hleft, Expr.wrap_of_none hright]
  simp only [settled, Bool.or_eq_true] at h ⊢
  refine h.imp (.imp ?_ ?_) fun h => ?_
  · exact callsVariable_wrapBelow hS (hl left left.self_mem_parts)
  · exact callsVariable_wrapBelow hS (hr right right.self_mem_parts)
  · split at h
    · rename_i htl htr
      rw [Expr.grows_wrapBelow hS hl _ htl, Expr.grows_wrapBelow hS hr _ htr]
      exact h
    · cases h

theorem Scope.Apart.not_settled (h : S.Apart left right) : S.settled left right = false := by
  obtain ⟨l, r, hl, hr, hu⟩ := h
  have hnot {e : PlacedExpr} {t : BasicType} (ht : e.typeIn S = some t) :
      S.callsVariable e = false := by
    rw [Bool.eq_false_iff]
    intro hv
    rw [typeIn_of_callsVariable hv] at ht
    cases ht
  simp [settled, hnot hl, hnot hr, hl, hr, hu]

theorem BasicType.unify?_self (t : BasicType) : t.unify? t = some t := if_pos rfl

/-- A conversion of one operand to the type of the other one settles them. -/
theorem Insertion.Mends.settled (hm : i.Mends S wanted? e) {e' other : PlacedExpr}
    (htype : TypeGrows (e.typeIn S) (e'.typeIn S')) (hother : TypeGrows wanted? (other.typeIn S')) :
    S'.settled (i.around e') other = true ∧ S'.settled other (i.around e') = true := by
  obtain ⟨t, ht, hc⟩ := hm.typed
  rcases typeIn_around hm.written ⟨t, htype t ht, hc⟩ with hv | ⟨-, ht'⟩
  · simp [Scope.settled, hv]
  · simp [Scope.settled, ht', hother _ hm.wanted, BasicType.unify?_self]

theorem Scope.settled_count (hS : S.Grows S') {tag : Placed} {op : BinaryOp}
    (h : ∀ part ∈ (Expr.binary tag op left right).parts, W.MendsBelow S part) :
    (if S'.settled (left.wrap W) (right.wrap W) then 0 else 1) + W.count [left, right]
      ≤ if S.settled left right then 0 else 1 := by
  have hpart {side : PlacedExpr} (hs : side ∈ (Expr.binary tag op left right).children) :
      ∀ part ∈ side.parts, W.MendsBelow S part :=
    fun part hp => h part (Expr.mem_parts_of_child hs hp)
  have hl : ∀ part ∈ left.parts, W.MendsBelow S part := hpart (by simp [Expr.children])
  have hr : ∀ part ∈ right.parts, W.MendsBelow S part := hpart (by simp [Expr.children])
  have hgl := Expr.grows_wrapBelow hS hl
  have hgr := Expr.grows_wrapBelow hS hr
  rw [Insertions.count_cons]
  rcases h _ (Expr.self_mem_parts _) with ⟨hleft, hright⟩ |
    ⟨hapart, ⟨i, hleft, hright, hm⟩ | ⟨i, hright, hleft, hm⟩⟩
  · rw [Insertions.count_of_none hleft, Insertions.count_of_none hright]
    by_cases hs : S.settled left right = true
    · rw [if_pos hs, if_pos (settled_wrap hS hl hr hleft hright hs)]
    · rw [if_neg hs]
      split <;> omega
  · rw [Insertions.count_of_some hleft, Insertions.count_of_none hright, Expr.wrap_of_some hleft,
      Expr.wrap_of_none hright, if_pos (hm.settled hgl hgr).1, hapart.not_settled]
    exact Nat.le_refl _
  · rw [Insertions.count_of_none hleft, Insertions.count_of_some hright, Expr.wrap_of_none hleft,
      Expr.wrap_of_some hright, if_pos (hm.settled hgr hgl).2, hapart.not_settled]
    exact Nat.le_refl _

/-! ### Expressions -/

theorem Expr.ownPending_wrapBelow (hS : S.Grows S') (h : ∀ part ∈ e.parts, W.MendsBelow S part) :
    (e.wrapBelow W).ownPending S' + W.count e.children ≤ e.ownPending S := by
  have hself := h e e.self_mem_parts
  cases e with
  | hole | literal | name => exact Nat.le_refl _
  | paren | neg =>
    rw [children, Insertions.count_of_none hself]
    exact Nat.le_refl _
  | binary tag op left right => exact Scope.settled_count hS h
  | call tag callee args =>
    obtain ⟨hcallee, hargs⟩ := hself
    have hwrap : (Expr.call tag callee args).wrapBelow W
        = .call tag (callee.wrapBelow W) (args.map (Expr.wrap W)) := by
      rw [wrapBelow, wrapAll_eq, Insertions.place, hcallee]
    rw [hwrap, children, Insertions.count_cons, Insertions.count_of_none hcallee, Nat.zero_add]
    have hnone (hf : ∀ signature, S.callee callee ≠ .function signature) : W.count args = 0 := by
      refine List.countP_eq_zero.2 fun arg ha hsome => ?_
      obtain ⟨k, hk⟩ := List.getElem?_of_mem ha
      obtain ⟨i, hi⟩ := Option.isSome_iff_exists.1 hsome
      obtain ⟨signature, hc, -⟩ := hargs k arg i hk hi
      exact hf signature hc
    cases hc : S.callee callee with
    | function signature =>
      rw [ownPending, ownPending, hS.callee_wrapBelow W (by simp [hc]), hc, List.length_map]
      refine Scope.pendingValues_wrap hS (fun root hr part hp => h part ?_) (fun _ => .refl _) ?_
      · exact mem_parts_of_child (List.mem_cons_of_mem _ hr) hp
      · intro k arg i hk hi
        obtain ⟨signature', hf, hm⟩ := hargs k arg i hk hi
        cases hf.symm.trans hc
        exact hm
    | conversion | println | undefined | compound =>
      rw [ownPending, ownPending, hS.callee_wrapBelow W (by simp [hc]), hc, hnone (by simp [hc])]
    | _ =>
      obtain ⟨type?', hc'⟩ := hS.callee_variable W hc
      rw [ownPending, ownPending, hc, hc', hnone (by simp [hc])]

/-- Nothing is ever done about the nodes of a conversion. -/
theorem Insertions.ownPending_nodes (hw : W.Written [e]) :
    ((W.nodes e).map (Expr.ownPending S)).sum = (e.wrapBelow W).ownPending S := by
  rw [nodes]
  cases hi : W e.ref with
  | none => simp
  | some i =>
    have hwritten := hw e (List.mem_singleton_self e) i hi
    have haround : (i.around (e.wrapBelow W)).ownPending S = 0 := by
      rw [Insertion.around_eq, Expr.ownPending, Scope.callee, Scope.calleeNamed,
        BasicType.ofKeyword?_name hwritten]
      cases S.locals i.type.name <;> rfl
    simp only [List.map_cons, List.map_nil, List.sum_cons, List.sum_nil, haround, Nat.zero_add,
      Nat.add_zero]
    exact Nat.zero_add _

theorem Expr.ownPending_parts (hS : S.Grows S') {es : List PlacedExpr}
    (h : ∀ e ∈ es, ∀ part ∈ e.parts, W.MendsBelow S part) (hw : W.Written es) :
    ((es.flatMap W.nodes).map (ownPending S')).sum + W.count (es.flatMap children)
      ≤ (es.map (ownPending S)).sum := by
  induction es with
  | nil => exact Nat.le_refl _
  | cons e es ih =>
    have hfirst := ownPending_wrapBelow hS (h e List.mem_cons_self)
    have hrest := ih (fun e he => h e (List.mem_cons_of_mem _ he))
      (fun e he => hw e (List.mem_cons_of_mem _ he))
    have hnodes := Insertions.ownPending_nodes (S := S') (W := W) (e := e)
      (fun x hx => hw x (List.mem_singleton.1 hx ▸ List.mem_cons_self))
    rw [List.flatMap_cons, List.flatMap_cons, List.map_append, List.sum_append, hnodes,
      Insertions.count_append, List.map_cons, List.sum_cons]
    omega

/-- The bound for expressions goes down by the number of conversions that are put around
expressions below them. -/
theorem Expr.ownPending_wrap (hS : S.Grows S') {es : List PlacedExpr}
    (h : ∀ root ∈ es, ∀ part ∈ root.parts, W.MendsBelow S part)
    (hw : W.Written (es.flatMap parts)) :
    ((((es.map (wrap W)).flatMap parts).map (ownPending S')).sum + W.count (es.flatMap parts)
      ≤ ((es.flatMap parts).map (ownPending S)).sum + W.count es) := by
  have hparts : (es.map (wrap W)).flatMap parts = (es.flatMap parts).flatMap W.nodes := by
    rw [List.flatMap_map, List.flatMap_assoc]
    exact List.flatMap_congr fun e _ => e.parts_wrap W
  have hcount : W.count (es.flatMap parts)
      = W.count es + W.count ((es.flatMap parts).flatMap children) := by
    rw [← Insertions.count_append]
    exact (flatMap_parts_perm fun e _ => e.parts_perm).countP_eq _
  have hbelow : ∀ e ∈ es.flatMap parts, ∀ part ∈ e.parts, W.MendsBelow S part := by
    intro e he part hp
    obtain ⟨root, hr, he⟩ := List.mem_flatMap.1 he
    exact h root hr part (mem_parts_trans hp he)
  have hbound := ownPending_parts hS hbelow hw
  rw [hparts]
  omega

/-! ### Statements -/

/-- The targets of an assignment. -/
def Stmt.targets : PlacedStmt → List PlacedExpr
  | .assign _ targets _ => targets
  | _ => []

theorem Stmt.children_eq (s : PlacedStmt) : s.children = s.targets ++ s.values := by
  cases s <;> rfl

/-- The conversions in a statement mend what the checker says about it. -/
structure Insertions.MendsStmt (W : Insertions BasicType) (S : Scope) (own : List (Option BasicType))
    (s : PlacedStmt) : Prop where
  values : ∀ k v i, s.values[k]? = some v → W v.ref = some i → i.Mends S (s.wantedAt S own k) v
  parts : ∀ root ∈ s.values, ∀ part ∈ root.parts, W.MendsBelow S part
  targets : ∀ goal ∈ s.targets, ∀ part ∈ goal.parts, W part.ref = none
  written : W.Written (s.values.flatMap Expr.parts)

theorem Stmt.values_wrap (s : PlacedStmt) : (s.wrap W).values = s.values.map (Expr.wrap W) := by
  cases s <;> rfl

theorem Expr.targetType?_wrap (hS : S.Grows S') (h : ∀ part ∈ e.parts, W part.ref = none) :
    TypeGrows (e.targetType? S) ((e.wrap W).targetType? S') := by
  induction e using Expr.inductArgs with
  | name tag text =>
    rw [wrap_of_none (h _ (self_mem_parts _))]
    exact hS.typed text
  | paren tag inner ih =>
    rw [wrap_of_none (h _ (self_mem_parts _))]
    exact ih fun part hp => h part (mem_parts_of_child (by simp [children]) hp)
  | _ =>
    intro t ht
    cases ht

theorem Insertions.MendsStmt.wantedAt {s : PlacedStmt} (hS : S.Grows S')
    (h : W.MendsStmt S own s) (k : Nat) :
    TypeGrows (s.wantedAt S own k) ((s.wrap W).wantedAt S' own k) := by
  cases s with
  | assign tag targets values =>
    intro t ht
    obtain ⟨goal, hg, ht⟩ := Option.bind_eq_some_iff.1 ht
    show ((targets.map (Expr.wrap W))[k]?.bind _) = some t
    rw [List.getElem?_map, hg]
    exact Expr.targetType?_wrap hS (h.targets goal (List.mem_of_getElem? hg)) t ht
  | _ => exact .refl _

theorem Stmt.pending_wrap {s : PlacedStmt} (hS : S.Grows S') (h : W.MendsStmt S own s) :
    (s.wrap W).pending S' own + W.count (s.children.flatMap Expr.parts) ≤ s.pending S own := by
  have hvalues := Scope.pendingValues_wrap hS h.parts (h.wantedAt hS) h.values
  have hparts := Expr.ownPending_wrap hS h.parts h.written
  have htargets : W.count (s.targets.flatMap Expr.parts) = 0 := by
    refine List.countP_eq_zero.2 fun e he => ?_
    obtain ⟨goal, hg, he⟩ := List.mem_flatMap.1 he
    simp [h.targets goal hg e he]
  rw [pending, pending, values_wrap, children_eq, List.flatMap_append, Insertions.count_append,
    htargets]
  omega

/-- Variables get no other types than before by conversions that mend something. -/
theorem Stmt.scope_wrap {s : PlacedStmt} (hS : S.Grows S') (h : W.MendsStmt S own s) :
    (s.scope S).Grows ((s.wrap W).scope S') := by
  cases s with
  | var tag names type? values =>
    refine hS.declareAll names fun hnone => ?_
    -- values of variables without a declared type are not converted themselves
    have hW : ∀ v ∈ values, W v.ref = none := fun v hv => by
      refine Option.eq_none_iff_forall_ne_some.2 fun i hi => ?_
      obtain ⟨k, hk⟩ := List.getElem?_of_mem hv
      have hwanted := (h.values k v i hk hi).wanted
      rw [wantedAt, Option.map_eq_none_iff.1 hnone] at hwanted
      cases hwanted
    rw [List.map_map, List.forall₂_map_left_iff, List.forall₂_map_right_iff, List.forall₂_same]
    intro v hv
    rw [Function.comp_apply, Expr.wrap_of_none (hW v hv)]
    exact Expr.grows_wrapBelow hS (h.parts v hv)
  | _ => exact hS

theorem Stmt.bodyPending_wrap (body : List PlacedStmt) : ∀ {S S' : Scope}, S.Grows S' →
    (∀ before s after, body = before ++ s :: after →
      W.MendsStmt (before.foldl Stmt.scope S) own s) →
    bodyPending S' own (body.map (Stmt.wrap W))
      + W.count (body.flatMap fun s => s.children.flatMap Expr.parts) ≤ bodyPending S own body := by
  induction body with
  | nil => exact fun _ _ => Nat.le_refl _
  | cons s body ih =>
    intro S S' hS h
    have hs : W.MendsStmt S own s := h [] s body rfl
    have hfirst := pending_wrap hS hs
    have hrest := ih (scope_wrap hS hs) fun before s' after heq =>
      h (s :: before) s' after (by rw [heq]; rfl)
    rw [List.map_cons, bodyPending, bodyPending, List.flatMap_cons, Insertions.count_append]
    omega

end

/-! ### Programs -/

/-- The conversions in a program mend what the checker says about it. -/
def Insertions.MendsProgram (W : Insertions BasicType) (p : PlacedProgram) : Prop :=
  ∀ f before s after signature, p.At f before s after signature →
    W.MendsStmt (p.scopeAt f signature before) f.signature.results s

theorem signaturesOf_wrap (W : Insertions BasicType) (fs : List PlacedFunction) :
    signaturesOf (fs.map (Function.wrap W)) = signaturesOf fs := by
  funext name
  rw [signaturesOf, signaturesOf, ← List.map_reverse, List.find?_map, Option.map_map]
  rfl

theorem pendingFunctions_wrap {W : Insertions BasicType} {signatures : String → Option Signature}
    {fs : List PlacedFunction} (h : ∀ f ∈ fs, ∃ signature, signatures f.name = some signature ∧
      ∀ before s after, f.body = before ++ s :: after →
        W.MendsStmt (before.foldl Stmt.scope (f.scope signatures signature)) f.signature.results
          s) :
    ((fs.map (Function.wrap W)).map (Function.pending signatures)).sum
      + W.count (fs.flatMap fun f => f.body.flatMap fun s => s.children.flatMap Expr.parts)
      ≤ (fs.map (Function.pending signatures)).sum := by
  induction fs with
  | nil => exact Nat.le_refl _
  | cons f fs ih =>
    obtain ⟨signature, hsignature, hbody⟩ := h f List.mem_cons_self
    have hrest := ih fun f hf => h f (List.mem_cons_of_mem _ hf)
    have hpending : f.pending signatures
        = Stmt.bodyPending (f.scope signatures signature) f.signature.results f.body := by
      rw [Function.pending, hsignature]
    have hpending' : (f.wrap W).pending signatures
        = Stmt.bodyPending (f.scope signatures signature) f.signature.results
          (f.body.map (Stmt.wrap W)) := by
      rw [Function.pending, show (f.wrap W).name = f.name from rfl, hsignature]
      rfl
    have hfirst : (f.wrap W).pending signatures
        + W.count (f.body.flatMap fun s => s.children.flatMap Expr.parts) ≤ f.pending signatures := by
      rw [hpending, hpending']
      exact Stmt.bodyPending_wrap f.body (.refl _) hbody
    rw [List.flatMap_cons, Insertions.count_append, List.map_cons, List.map_cons, List.sum_cons,
      List.map_cons, List.sum_cons]
    omega

/-- The parts of a program, function by function. -/
theorem Program.parts_eq (p : PlacedProgram) : p.parts
    = p.functions.flatMap fun f => f.body.flatMap fun s => s.children.flatMap Expr.parts := by
  rw [parts, exprs, stmts]
  simp only [List.flatMap_assoc]

/-- Conversions that mend what the checker says about a program use up conversions that may still be
made. -/
theorem Program.pending_wrap {W : Insertions BasicType} {p : PlacedProgram} (h : W.MendsProgram p) :
    (p.wrap W).pending + W.count p.parts ≤ p.pending := by
  rw [parts_eq, pending, pending, pendingFunctions, pendingFunctions,
    show (p.wrap W).functions = p.functions.map (Function.wrap W) from rfl, signaturesOf_wrap]
  refine pendingFunctions_wrap fun f hf => ?_
  have hknown : (signaturesOf p.functions f.name).isSome := by
    rw [Checker.isSome_signaturesOf]
    exact List.any_eq_true.2 ⟨f, hf, beq_self_eq_true _⟩
  obtain ⟨signature, hsignature⟩ := Option.isSome_iff_exists.1 hknown
  exact ⟨signature, hsignature, fun before s after hbody =>
    h f before s after signature ⟨hf, hsignature, hbody⟩⟩

end Recast
