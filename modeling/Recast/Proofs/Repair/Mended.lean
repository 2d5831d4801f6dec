import Recast.Proofs.Repair.Sites
import Recast.Proofs.Store.Twins

/-!
# Values of which a type is wanted

At some places of a statement the checker wants values of a certain type. Where a pass puts a
conversion, the type that is wanted is the one that the conversion names, and it is still wanted in
every program with the code that the pass leaves.
-/

namespace Recast

/-- The slot without its node. -/
def Slot.bare : Slot → Slot
  | varValue _ k => varValue 0 k
  | assignValue _ k => assignValue 0 k
  | returnValue _ k => returnValue 0 k
  | callArg _ k => callArg 0 k
  | operand _ side => operand 0 side

/-- Of an expression in a slot of another one a type is wanted: of an argument of a function that of
its parameter, of an operand that of the other one. -/
inductive Expr.Wants (S : Scope) : PlacedExpr → Slot → PlacedExpr → BasicType → Prop where
  | argument {tag : Placed} {callee v : PlacedExpr} {args : List PlacedExpr} {signature : Signature}
      {k : Nat} {type : BasicType} (function : S.callee callee = .function signature)
      (present : args[k]? = some v) (wanted : signature.wantedAt args.length k = some type) :
      Wants S (.call tag callee args) (.callArg tag.id k) v type
  | left {tag : Placed} {op : BinaryOp} {v right : PlacedExpr} {type : BasicType}
      (other : right.typeIn S = some type) :
      Wants S (.binary tag op v right) (.operand tag.id .left) v type
  | right {tag : Placed} {op : BinaryOp} {left v : PlacedExpr} {type : BasicType}
      (other : left.typeIn S = some type) :
      Wants S (.binary tag op left v) (.operand tag.id .right) v type

/-- Of an expression in a slot in a statement a type is wanted. -/
inductive Stmt.Wants (S : Scope) (own : List (Option BasicType)) (slot : Slot) (v : PlacedExpr)
    (type : BasicType) (s : PlacedStmt) : Prop where
  | value {k : Nat} (present : s.values[k]? = some v) (stands : s.slotAt? k = some slot)
      (wanted : s.wantedAt S own k = some type)
  | child {root part : PlacedExpr} (mem_values : root ∈ s.values) (mem_parts : part ∈ root.parts)
      (wants : part.Wants S slot v type)

section Wants

variable {S S' : Scope} {own : List (Option BasicType)} {e e' v root part : PlacedExpr}
  {type : BasicType} {s s' : PlacedStmt} {W : Insertions BasicType} {i : Insertion BasicType}
  {slot : Slot} {k : Nat}

theorem Expr.Wants.mem_children (h : e.Wants S slot v type) : v ∈ e.children := by
  cases h with
  | argument _ present => exact List.mem_cons_of_mem _ (List.mem_of_getElem? present)
  | left | right => simp [children]

theorem Stmt.Wants.exists_root (h : s.Wants S own slot v type) :
    ∃ root ∈ s.values, v ∈ root.parts := by
  cases h with
  | value present => exact ⟨v, List.mem_of_getElem? present, v.self_mem_parts⟩
  | child hr hp hw => exact ⟨_, hr, Expr.child_mem_parts hp hw.mem_children⟩

/-! ### Conversions -/

theorem Expr.wrapBelow_mem_parts (W : Insertions BasicType) (hp : part ∈ root.parts) :
    part.wrapBelow W ∈ (root.wrap W).parts := by
  rw [parts_wrap]
  refine List.mem_flatMap.2 ⟨part, hp, ?_⟩
  rw [Insertions.nodes]
  split <;> simp

theorem Insertion.MendsChild.wants (hm : i.MendsChild W S v e slot) (hS : S.Grows S')
    (h : ∀ part ∈ e.parts, W.MendsBelow S part) (hi : W v.ref = some i) :
    (e.wrapBelow W).Wants S' slot (i.around (v.wrapBelow W)) i.type := by
  have hside {side : PlacedExpr} (hs : side ∈ e.children) :
      ∀ part ∈ side.parts, W.MendsBelow S part :=
    fun part hp => h part (Expr.mem_parts_of_child hs hp)
  have haround : v.wrap W = i.around (v.wrapBelow W) := Expr.wrap_of_some hi
  rw [← haround]
  cases hm with
  | @argument tag callee args signature k present function mends =>
    have hself := h _ (Expr.self_mem_parts _)
    have hcallee : S'.callee (callee.wrap W) = .function signature := by
      rw [Expr.wrap_of_none hself.1, hS.callee_wrapBelow W (by simp [function]), function]
    have hpresent : (args.map (Expr.wrap W))[k]? = some (v.wrap W) := by
      rw [List.getElem?_map, present]
      rfl
    rw [Expr.wrapBelow, Expr.wrapAll_eq]
    refine .argument hcallee hpresent ?_
    rw [List.length_map]
    exact mends.wanted
  | @left tag op right apart other mends =>
    have hother : (right.wrap W).typeIn S' = some i.type := by
      rw [Expr.wrap_of_none other]
      exact Expr.grows_wrapBelow hS (hside (by simp [Expr.children])) _ mends.wanted
    exact .left hother
  | @right tag op left apart other mends =>
    have hother : (left.wrap W).typeIn S' = some i.type := by
      rw [Expr.wrap_of_none other]
      exact Expr.grows_wrapBelow hS (hside (by simp [Expr.children])) _ mends.wanted
    exact .right hother

theorem Stmt.slotAt?_wrap (W : Insertions BasicType) (s : PlacedStmt) (k : Nat) :
    (s.wrap W).slotAt? k = s.slotAt? k := by
  cases s <;> rfl

/-- Where a conversion goes that mends something, its type is wanted. -/
theorem Insertion.MendsIn.wants (hm : i.MendsIn W S own v s slot) (hS : S.Grows S')
    (h : W.MendsStmt S own s) (hi : W v.ref = some i) :
    (s.wrap W).Wants S' own slot (i.around (v.wrapBelow W)) i.type := by
  cases hm with
  | value present stands mends =>
    refine .value ?_ ((s.slotAt?_wrap W _).trans stands) (h.wantedAt hS _ _ mends.wanted)
    rw [Stmt.values_wrap, List.getElem?_map, present]
    exact congrArg some (Expr.wrap_of_some hi)
  | @child root part _ hr hp hm =>
    refine .child ?_ (Expr.wrapBelow_mem_parts W hp) (hm.wants hS (fun part' hp' => ?_) hi)
    · rw [Stmt.values_wrap]
      exact List.mem_map_of_mem hr
    · exact h.parts root hr part' (Expr.mem_parts_trans hp' hp)

theorem Insertion.MendsIn.exists_mends (hm : i.MendsIn W S own v s slot) :
    ∃ wanted?, i.Mends S wanted? v := by
  cases hm with
  | value _ _ mends => exact ⟨_, mends⟩
  | child _ _ hm =>
    cases hm with
    | argument _ _ mends => exact ⟨_, mends⟩
    | left _ _ mends => exact ⟨_, mends⟩
    | right _ _ mends => exact ⟨_, mends⟩

/-- A conversion that mends something has its type, unless that is the name of a variable. -/
theorem Insertion.MendsIn.typed (hm : i.MendsIn W S own v s slot) (hS : S.Grows S')
    (h : W.MendsStmt S own s) : (S'.locals i.type.name).isSome ∨
      (i.around (v.wrapBelow W)).typeIn S' = some i.type := by
  obtain ⟨wanted?, hmends⟩ := hm.exists_mends
  obtain ⟨t, ht, hc⟩ := hmends.typed
  obtain ⟨root, hr, hv⟩ := List.mem_flatMap.1 hm.mem_parts
  have hbelow : (v.wrapBelow W).typeIn S' = some t :=
    Expr.grows_wrapBelow hS (fun part hp => h.parts root hr part (Expr.mem_parts_trans hp hv)) t ht
  exact (Insertion.typeIn_around hmends.written ⟨t, hbelow, hc⟩).imp id And.right

/-! ### Other programs with the same code -/

theorem Scope.callee_eq_of_bare (h : e.bare = e'.bare) : S.callee e = S.callee e' := by
  have := congrArg S.callee h
  rwa [Expr.bare, Expr.bare, callee_retag, callee_retag] at this

theorem Expr.typeIn_eq_of_bare (h : e.bare = e'.bare) : e.typeIn S = e'.typeIn S := by
  have := congrArg (typeIn S) h
  rwa [bare, bare, typeIn_retag, typeIn_retag] at this

theorem Expr.Wants.exists_twin (h : e.Wants S slot v type) (he : e.bare = e'.bare) :
    ∃ slot' v', slot'.bare = slot.bare ∧ v.bare = v'.bare ∧ e'.Wants S slot' v' type ∧
      (v, v') ∈ e.children.zip e'.children := by
  cases h with
  | @argument tag callee _ args _ _ _ function present wanted =>
    cases e' with
    | call tag' callee' args' =>
      have hcallee : callee.bare = callee'.bare := (call.inj he).2.1
      have hargs : List.Forall₂ (fun a a' => a.bare = a'.bare) args args' :=
        (List.forall₂_cons.1 (forall₂_children he)).2
      obtain ⟨v', hv', hbare, hzip⟩ := exists_zip_of_getElem? hargs present
      rw [Scope.callee_eq_of_bare hcallee] at function
      rw [hargs.length_eq] at wanted
      exact ⟨.callArg tag'.id _, v', rfl, hbare, .argument function hv' wanted,
        List.mem_cons_of_mem _ hzip⟩
    | _ => cases he
  | left other =>
    cases e' with
    | binary tag' op' left' right' =>
      obtain ⟨-, rfl, hleft, hright⟩ := binary.inj he
      exact ⟨.operand tag'.id .left, left', rfl, hleft, .left (typeIn_eq_of_bare hright ▸ other),
        by simp [children]⟩
    | _ => cases he
  | right other =>
    cases e' with
    | binary tag' op' left' right' =>
      obtain ⟨-, rfl, hleft, hright⟩ := binary.inj he
      exact ⟨.operand tag'.id .right, right', rfl, hright, .right (typeIn_eq_of_bare hleft ▸ other),
        by simp [children]⟩
    | _ => cases he

theorem Stmt.exists_value_twin (hs : s.bare = s'.bare) (hv : s.values[k]? = some v) :
    ∃ v', s'.values[k]? = some v' ∧ v.bare = v'.bare ∧ (v, v') ∈ s.children.zip s'.children := by
  have hbares := congrArg values hs
  rw [values_bare, values_bare] at hbares
  have hvalues : List.Forall₂ (fun v v' => v.bare = v'.bare) s.values s'.values :=
    forall₂_of_map_eq hbares
  have htargets : s.targets.length = s'.targets.length := by
    have hchildren := (forall₂_children hs).length_eq
    rw [children_eq, children_eq, List.length_append, List.length_append] at hchildren
    have := hvalues.length_eq
    omega
  obtain ⟨v', hv', hbare, hzip⟩ := exists_zip_of_getElem? hvalues hv
  refine ⟨v', hv', hbare, ?_⟩
  rw [children_eq, children_eq, List.zip_append htargets]
  exact List.mem_append_right _ hzip

theorem Stmt.exists_slotAt?_twin (hs : s.bare = s'.bare) (h : s.slotAt? k = some slot) :
    ∃ slot', s'.slotAt? k = some slot' ∧ slot'.bare = slot.bare := by
  cases s with
  | hole | expr => cases h
  | var | assign | ret =>
    cases h
    cases s' <;> first | exact ⟨_, rfl, rfl⟩ | cases hs

/-- What is wanted in a statement is wanted in every statement with the same code. -/
theorem Stmt.Wants.exists_twin (h : s.Wants S own slot v type) (hs : s.bare = s'.bare) :
    ∃ slot' v', slot'.bare = slot.bare ∧ v.bare = v'.bare ∧ s'.Wants S own slot' v' type ∧
      ∃ root root', (root, root') ∈ s.children.zip s'.children ∧
        (v, v') ∈ root.parts.zip root'.parts := by
  cases h with
  | value present stands wanted =>
    obtain ⟨v', hv', hbare, hzip⟩ := exists_value_twin hs present
    obtain ⟨slot', hslot', hslot⟩ := exists_slotAt?_twin hs stands
    have hself : (v, v') ∈ v.parts.zip v'.parts :=
      (Expr.mem_zip_parts hbare).2 (.inl ⟨rfl, rfl⟩)
    refine ⟨slot', v', hslot, hbare, .value hv' hslot' ?_, v, v', hzip, hself⟩
    rw [← wantedAt_bare, ← hs, wantedAt_bare, wanted]
  | @child root part hr hp hw =>
    obtain ⟨k, hk⟩ := List.getElem?_of_mem hr
    obtain ⟨root', hr', hroot, hzip⟩ := exists_value_twin hs hk
    obtain ⟨part', hpart, hparts⟩ := exists_zip_of_mem (Expr.forall₂_parts hroot) hp
    obtain ⟨slot', v', hslot, hbare, hw', hchildren⟩ := hw.exists_twin hpart
    have hv : (v, v') ∈ part.parts.zip part'.parts := by
      refine (Expr.mem_zip_parts hpart).2 (.inr ⟨v, v', hchildren, ?_⟩)
      exact (Expr.mem_zip_parts hbare).2 (.inl ⟨rfl, rfl⟩)
    have hp' := (List.of_mem_zip hparts).2
    exact ⟨slot', v', hslot, hbare, .child (List.mem_of_getElem? hr') hp' hw', root, root', hzip,
      Expr.mem_zip_parts_trans hroot hparts hv⟩

end Wants

/-! ### Sites in programs -/

section Sites

variable {p p' : PlacedProgram} {f : PlacedFunction} {before after : List PlacedStmt}
  {s : PlacedStmt} {signature : Signature} {W : Insertions BasicType}

theorem Program.At.wrap (h : p.At f before s after signature) (W : Insertions BasicType) :
    (p.wrap W).At (f.wrap W) (before.map (Stmt.wrap W)) (s.wrap W) (after.map (Stmt.wrap W))
      signature where
  function := List.mem_map_of_mem h.function
  signature := by
    show signaturesOf (p.functions.map (Function.wrap W)) f.name = _
    rw [signaturesOf_wrap, h.signature]
  body := by
    show f.body.map (Stmt.wrap W) = _
    rw [h.body, List.map_append, List.map_cons]

theorem Stmt.foldl_scope_wrap (own : List (Option BasicType)) (before : List PlacedStmt) :
    ∀ {S S' : Scope}, S.Grows S' →
      (∀ done s rest, before = done ++ s :: rest → W.MendsStmt (done.foldl scope S) own s) →
        (before.foldl scope S).Grows ((before.map (wrap W)).foldl scope S') := by
  induction before with
  | nil => exact fun hS _ => hS
  | cons s before ih =>
    intro S S' hS h
    refine ih (scope_wrap hS (h [] s before rfl)) fun done s' rest heq => ?_
    exact h (s :: done) s' rest (by rw [heq, List.cons_append])

/-- Types of variables stay known when conversions mend what the checker says. -/
theorem Insertions.MendsProgram.grows (hW : W.MendsProgram p)
    (h : p.At f before s after signature) : (p.scopeAt f signature before).Grows
      ((p.wrap W).scopeAt (f.wrap W) signature (before.map (Stmt.wrap W))) := by
  have hsignatures : signaturesOf (p.wrap W).functions = signaturesOf p.functions :=
    signaturesOf_wrap W p.functions
  rw [Program.scopeAt, Program.scopeAt, hsignatures]
  refine Stmt.foldl_scope_wrap f.signature.results before (.refl _) fun done s' rest heq => ?_
  refine hW f done s' (rest ++ s :: after) signature ⟨h.function, h.signature, ?_⟩
  rw [h.body, heq, List.append_assoc, List.cons_append]

theorem Function.signature_eq_of_bare {f f' : PlacedFunction} (h : f.bare = f'.bare) :
    f.signature = f'.signature := by
  rw [← f.signature_bare, h, f'.signature_bare]

theorem Function.scope_eq_of_bare {f f' : PlacedFunction} (h : f.bare = f'.bare)
    (signatures : String → Option Signature) (signature : Signature) :
    f.scope signatures signature = f'.scope signatures signature := by
  have hbare (f : PlacedFunction) : f.bare.scope signatures signature
      = f.scope signatures signature := Scope.declareParams_bare _ _
  rw [← hbare f, h, hbare f']

theorem Stmt.foldl_scope_eq_of_bare {before before' : List PlacedStmt}
    (h : before.map bare = before'.map bare) (S : Scope) :
    before.foldl scope S = before'.foldl scope S := by
  have hbare (before : List PlacedStmt) :
      (before.map bare).foldl scope S = before.foldl scope S := by
    rw [List.foldl_map]
    congr 1
    funext S s
    exact s.scope_bare
  rw [← hbare before, h, hbare before']

/-- A statement of a program has a partner in every program with the same code, and the checker
knows the same about the names there. -/
theorem Program.At.exists_twin (h : p.At f before s after signature)
    (hcode : p.functions.map Function.bare = p'.functions.map Function.bare) :
    ∃ f' before' s' after', p'.At f' before' s' after' signature ∧ f.bare = f'.bare ∧
      s.bare = s'.bare ∧ p.scopeAt f signature before = p'.scopeAt f' signature before' ∧
        (f, f') ∈ p.functions.zip p'.functions ∧ (s, s') ∈ f.body.zip f'.body := by
  obtain ⟨f', hf, hzip⟩ := exists_zip_of_mem (forall₂_of_map_eq hcode) h.function
  have hsignatures : signaturesOf p.functions = signaturesOf p'.functions := by
    rw [← signaturesOf_bare, hcode, signaturesOf_bare]
  have hname : f.name = f'.name := (Function.mk.inj hf).2.1
  have hbody : f'.body.map Stmt.bare = (before ++ s :: after).map Stmt.bare := by
    rw [← h.body]
    exact (Function.mk.inj hf).2.2.2.2.symm
  rw [List.map_append, List.map_cons] at hbody
  obtain ⟨before', rest', hsplit, hbefore, hrest⟩ := List.map_eq_append_iff.1 hbody
  obtain ⟨s', after', rfl, hs, -⟩ := List.map_eq_cons_iff.1 hrest
  have hlength : before.length = before'.length := by
    simpa using (congrArg List.length hbefore).symm
  refine ⟨f', before', s', after', ⟨(List.of_mem_zip hzip).2, ?_, hsplit⟩, hf, hs.symm, ?_, hzip,
    ?_⟩
  · rw [← hsignatures, ← hname, h.signature]
  · rw [scopeAt, scopeAt, hsignatures, Function.scope_eq_of_bare hf,
      Stmt.foldl_scope_eq_of_bare hbefore.symm]
  · rw [h.body, hsplit, List.zip_append hlength]
    exact List.mem_append_right _ List.mem_cons_self

end Sites

end Recast
