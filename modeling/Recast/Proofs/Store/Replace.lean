import Recast.Proofs.Repair.Wrap
import Recast.Proofs.Store.Slots

/-!
# Putting expressions into slots

When a slot gets another expression, the node that has the slot gets another child. All other nodes
stay as they are, though child lists share one pool: the old expression stands in one list only.
-/

namespace Recast

variable {β : Type}

/-! ### Lists -/

section Pools

variable {p p' : Pool β} {slice t : Slice β} {xs : List β} {i : Nat} {x y : β}

theorem Pool.size_set? (h : p.set? t i x = some p') : p'.items.size = p.items.size := by
  unfold set? at h
  split at h
  · rename_i hi
    cases h
    exact Array.size_set hi.2
  · cases h

theorem Pool.Keeps.set_self (h : p.Keeps t xs) (hset : p.set? t i x = some p') :
    p'.Keeps t (xs.set i x) :=
  ⟨Pool.size_set? hset ▸ h.bound, by rw [list_set? hset, h.list]⟩

/-- A list that does not have the replaced item stays. -/
theorem Pool.Keeps.set_other (h : p.Keeps slice xs) (hset : p.set? t i x = some p')
    (hget : p.get? t i = some y) (hy : y ∉ xs) : p'.Keeps slice xs where
  bound := Pool.size_set? hset ▸ h.bound
  list := by
    rw [← h.list] at hy ⊢
    apply List.ext_getElem?
    intro j
    rw [← get?_eq_getElem?, ← get?_eq_getElem?]
    have hj : p.get? slice j ≠ some y := fun e =>
      hy (List.mem_of_getElem? (get?_eq_getElem? p slice j ▸ e))
    unfold set? at hset
    unfold get? at hget hj ⊢
    split at hset
    · cases hset
      grind
    · cases hset

/-- The ids of a list after one is replaced. -/
def swap (old new : ExprId) (id : ExprId) : ExprId := if id = old then new else id

theorem map_swap_of_not_mem {old new : ExprId} {ids : List ExprId} (h : old ∉ ids) :
    ids.map (swap old new) = ids := by
  conv => rhs; rw [← List.map_id ids]
  refine List.map_congr_left fun id hid => if_neg ?_
  rintro rfl
  exact h hid

theorem map_swap {old new : ExprId} {ids : List ExprId} (distinct : ids.Nodup) {i : Nat}
    (h : ids[i]? = some old) : ids.map (swap old new) = ids.set i new := by
  apply List.ext_getElem?
  intro j
  rw [List.getElem?_map, List.getElem?_set]
  obtain ⟨hi, rfl⟩ := List.getElem?_eq_some_iff.1 h
  by_cases hij : i = j
  · subst hij
    simp [hi, swap]
  · rw [if_neg hij]
    cases hj : ids[j]? with
    | none => rfl
    | some id =>
      obtain ⟨hj', rfl⟩ := List.getElem?_eq_some_iff.1 hj
      have : ids[j] ≠ ids[i] := fun e => hij ((distinct.getElem_inj_iff.1 e).symm)
      simp [swap, this]

end Pools

/-! ### Slots -/

/-- The expression of which a slot is a part. -/
def Slot.expr? : Slot → Option ExprId
  | .callArg id _ | .operand id _ => some id
  | _ => none

/-- The statement of which a slot is a part. -/
def Slot.stmt? : Slot → Option StmtId
  | .varValue id _ | .assignValue id _ | .returnValue id _ => some id
  | _ => none

namespace Store

variable {s s' : Store} {slot : Slot} {old new : ExprId}

/-- What putting an expression into a slot in a list changes. -/
theorem setSlot?_list (hslot : ∀ id side, slot ≠ .operand id side) (hget : s.slot? slot = some old)
    (new : ExprId) :
    ∃ slice i lists, s.listPosition? slot = some (slice, i) ∧
      s.exprLists.get? slice i = some old ∧ s.exprLists.set? slice i new = some lists ∧
        s.setSlot? slot new = some { s with exprLists := lists } := by
  have hlist : (s.slot? slot = (s.listPosition? slot).bind fun p => s.exprLists.get? p.1 p.2) ∧
      s.setSlot? slot new = (s.listPosition? slot).bind fun p =>
        (s.exprLists.set? p.1 p.2 new).map fun lists => { s with exprLists := lists } := by
    cases slot with
    | operand id side => exact absurd rfl (hslot id side)
    | _ => exact ⟨rfl, rfl⟩
  rw [hlist.1] at hget
  obtain ⟨⟨slice, i⟩, hp, hg⟩ := Option.bind_eq_some_iff.1 hget
  have hsome := s.exprLists.set?_isSome slice i new
  rw [hg] at hsome
  obtain ⟨lists, hl⟩ := Option.isSome_iff_exists.1 hsome
  refine ⟨slice, i, lists, hp, hg, hl, ?_⟩
  rw [hlist.2, hp]
  simp [hl]

/-- The node of a binary expression with another operand. -/
def operandShape (op : BinaryOp) (left right new : ExprId) : Side → ExprShape Name Slice
  | .left => .binary op new right
  | .right => .binary op left new

theorem exists_call_of_listPosition? {id : ExprId} {index i : Nat} {slice : Slice ExprId}
    (h : s.listPosition? (.callArg id index) = some (slice, i)) :
    ∃ callee span, s.exprs[id]? = some ⟨.call callee slice, span⟩ := by
  simp only [listPosition?] at h
  split at h
  · rename_i callee args span hn
    cases h
    exact ⟨callee, span, hn⟩
  · cases h

/-- The operand on one side. -/
def operandOn (left right : ExprId) : Side → ExprId
  | .left => left
  | .right => right

theorem exists_binary_of_slot? {id : ExprId} {side : Side}
    (h : s.slot? (.operand id side) = some old) : ∃ op left right span,
      s.exprs[id]? = some ⟨.binary op left right, span⟩ ∧ operandOn left right side = old := by
  simp only [slot?] at h
  split at h
  · rename_i op left right span hn
    exact ⟨op, left, right, span, hn, by cases side <;> exact Option.some.inj h⟩
  · cases h

/-- What putting an operand into a binary expression changes. -/
theorem setSlot?_operand {id : ExprId} {side : Side} {op : BinaryOp} {left right : ExprId}
    {span : Span} (h : s.exprs[id]? = some ⟨.binary op left right, span⟩) :
    s.setSlot? (.operand id side) new = some { s with
      exprs := s.exprs.setIfInBounds id (Node.mk (operandShape op left right new side) span) } := by
  rw [setSlot?, h]
  cases side <;> rfl

/-! ### Expressions -/

section Expressions

variable {id : ExprId} {span : Span} {shape : ExprShape String List}

theorem HasShape.getElem? (h : s.HasShape id span shape) :
    ∃ raw, s.exprs[id]? = some ⟨raw, span⟩ := by
  cases shape with
  | literal | name | call =>
    obtain ⟨_, h, -⟩ := h
    exact ⟨_, h⟩
  | paren | neg | binary => exact ⟨_, h⟩

theorem HasShape.of_binary {op : BinaryOp} {left right : ExprId} {span' : Span}
    (h : s.HasShape id span shape) (hn : s.exprs[id]? = some ⟨.binary op left right, span'⟩) :
    shape = .binary op left right ∧ span = span' := by
  cases shape with
  | literal | name | call =>
    obtain ⟨_, h, -⟩ := h
    cases h.symm.trans hn
  | paren | neg => cases (show _ = _ from h).symm.trans hn
  | binary =>
    cases (show _ = _ from h).symm.trans hn
    exact ⟨rfl, rfl⟩

theorem HasShape.of_call {callee : ExprId} {slice : Slice ExprId} {span' : Span}
    (h : s.HasShape id span shape) (hn : s.exprs[id]? = some ⟨.call callee slice, span'⟩) :
    ∃ args, shape = .call callee args ∧ span = span' ∧ s.exprLists.Keeps slice args := by
  cases shape with
  | literal | name =>
    obtain ⟨_, h, -⟩ := h
    cases h.symm.trans hn
  | paren | neg | binary => cases (show _ = _ from h).symm.trans hn
  | call _ args =>
    obtain ⟨_, h, hk⟩ := h
    cases h.symm.trans hn
    exact ⟨args, rfl, rfl, hk⟩

theorem ExprShape.rename_swap_of_not_mem (h : old ∉ shape.children) :
    shape.rename (swap old new) = shape := by
  have hne {id : ExprId} (hid : id ∈ shape.children) : swap old new id = id := by
    refine if_neg ?_
    rintro rfl
    exact h hid
  cases shape with
  | literal | name => rfl
  | paren inner => rw [ExprShape.rename, hne (by simp [ExprShape.children])]
  | neg operand => rw [ExprShape.rename, hne (by simp [ExprShape.children])]
  | binary op left right =>
    rw [ExprShape.rename, hne (by simp [ExprShape.children]), hne (by simp [ExprShape.children])]
  | call callee args =>
    rw [ExprShape.rename, hne (by simp [ExprShape.children]), map_swap_of_not_mem]
    exact fun hm => h (List.mem_cons_of_mem _ hm)

/-- A node without the old expression stays when an item of a list is replaced. -/
theorem HasShape.of_lists {slice : Slice ExprId} {i : Nat} {lists : Pool ExprId}
    (h : s.HasShape id span shape) (hget : s.exprLists.get? slice i = some old)
    (hset : s.exprLists.set? slice i new = some lists) (hold : old ∉ shape.children) :
    ({ s with exprLists := lists } : Store).HasShape id span shape := by
  cases shape with
  | call callee args =>
    obtain ⟨list, hn, hk⟩ := h
    exact ⟨list, hn, hk.set_other hset hget fun hm => hold (List.mem_cons_of_mem _ hm)⟩
  | _ => exact h

/-- A node other than the binary expression stays when an operand of that is replaced. -/
theorem HasShape.of_exprs {other : ExprId} {node : Node (ExprShape Name Slice)}
    (h : s.HasShape id span shape) (hne : other ≠ id) :
    ({ s with exprs := s.exprs.setIfInBounds other node } : Store).HasShape id span shape := by
  have hget : (s.exprs.setIfInBounds other node)[id]? = s.exprs[id]? :=
    Array.getElem?_setIfInBounds_ne hne
  cases shape with
  | literal | name | call =>
    obtain ⟨x, hn, hx⟩ := h
    exact ⟨x, hget.trans hn, hx⟩
  | paren | neg | binary => exact hget.trans h

/-- When a slot gets another expression, a node has that expression in place of the old one. The old
one is a child of no node but the one with the slot. -/
theorem hasShape_setSlot? (hget : s.slot? slot = some old) (hset : s.setSlot? slot new = some s')
    (h : s.HasShape id span shape) (distinct : shape.children.Nodup)
    (only : old ∈ shape.children → slot.expr? = some id) :
    s'.HasShape id span (shape.rename (swap old new)) := by
  cases slot with
  | operand binary side =>
    obtain ⟨op, left, right, span', hn, hside⟩ := exists_binary_of_slot? hget
    rw [setSlot?_operand hn] at hset
    obtain rfl := Option.some.inj hset
    by_cases hid : binary = id
    · subst hid
      obtain ⟨rfl, rfl⟩ := h.of_binary hn
      have hlt := (Array.getElem?_eq_some_iff.1 hn).1
      have hne : left ≠ right := by simpa [ExprShape.children] using distinct
      have hnode : (s.exprs.setIfInBounds binary
          (Node.mk (operandShape op left right new side) span))[binary]?
            = some ⟨operandShape op left right new side, span⟩ := by
        simp [hlt]
      show _ = _
      rw [hnode, ← hside]
      cases side with
      | left => simp [operandShape, operandOn, swap, hne.symm]
      | right => simp [operandShape, operandOn, swap, hne]
    · rw [ExprShape.rename_swap_of_not_mem fun hm => hid (Option.some.inj (only hm))]
      exact h.of_exprs hid
  | callArg call i =>
    obtain ⟨slice, i', lists, hp, hg, hl, hs⟩ := setSlot?_list (by simp) hget new
    rw [hs] at hset
    obtain rfl := Option.some.inj hset
    by_cases hold : old ∈ shape.children
    · obtain rfl := Option.some.inj (only hold)
      obtain ⟨callee, span', hn⟩ := exists_call_of_listPosition? hp
      obtain ⟨args, rfl, rfl, hk⟩ := h.of_call hn
      rw [Pool.get?_eq_getElem?, hk.list] at hg
      obtain ⟨hcallee, hargs⟩ := List.nodup_cons.1 distinct
      have hne : swap old new callee = callee := by
        refine if_neg ?_
        rintro rfl
        exact hcallee (List.mem_of_getElem? hg)
      rw [ExprShape.rename, hne, map_swap hargs hg]
      exact ⟨slice, hn, hk.set_self hl⟩
    · rw [ExprShape.rename_swap_of_not_mem hold]
      exact h.of_lists hg hl hold
  | _ =>
    obtain ⟨slice, i', lists, hp, hg, hl, hs⟩ := setSlot?_list (by simp) hget new
    rw [hs] at hset
    obtain rfl := Option.some.inj hset
    have hold : old ∉ shape.children := fun hm => by cases only hm
    rw [ExprShape.rename_swap_of_not_mem hold]
    exact h.of_lists hg hl hold

end Expressions

/-! ### Statements -/

section Statements

variable {id : StmtId} {span : Span} {shape : StmtShape String List}

theorem StmtShape.rename_swap_of_not_mem (h : old ∉ shape.children) :
    shape.rename (swap old new) = shape := by
  cases shape with
  | var names type? values => exact congrArg _ (map_swap_of_not_mem h)
  | assign targets values =>
    rw [StmtShape.rename, map_swap_of_not_mem fun hm => h (List.mem_append_left _ hm),
      map_swap_of_not_mem fun hm => h (List.mem_append_right _ hm)]
  | ret results => exact congrArg _ (map_swap_of_not_mem h)
  | expr e =>
    have : swap old new e = e := if_neg fun he => h (List.mem_singleton.2 he.symm)
    rw [StmtShape.rename, this]

/-- A statement without the old expression stays when an item of a list is replaced. -/
theorem HasStmtShape.of_lists {slice : Slice ExprId} {i : Nat} {lists : Pool ExprId}
    (h : s.HasStmtShape id span shape) (hget : s.exprLists.get? slice i = some old)
    (hset : s.exprLists.set? slice i new = some lists) (hold : old ∉ shape.children) :
    ({ s with exprLists := lists } : Store).HasStmtShape id span shape := by
  cases shape with
  | var names type? values =>
    obtain ⟨ns, ns', t?, vs, hn, hns, hnames, ht, hk⟩ := h
    exact ⟨ns, ns', t?, vs, hn, hns, hnames, ht, hk.set_other hset hget hold⟩
  | assign targets values =>
    obtain ⟨ts, vs, hn, ht, hv⟩ := h
    exact ⟨ts, vs, hn, ht.set_other hset hget fun hm => hold (List.mem_append_left _ hm),
      hv.set_other hset hget fun hm => hold (List.mem_append_right _ hm)⟩
  | ret results =>
    obtain ⟨rs, hn, hk⟩ := h
    exact ⟨rs, hn, hk.set_other hset hget hold⟩
  | expr => exact h

/-- The statement with the slot gets the new expression. -/
theorem HasStmtShape.of_slot {slice : Slice ExprId} {i : Nat} {lists : Pool ExprId}
    (h : s.HasStmtShape id span shape) (hid : slot.stmt? = some id)
    (hp : s.listPosition? slot = some (slice, i)) (hget : s.exprLists.get? slice i = some old)
    (hset : s.exprLists.set? slice i new = some lists) (distinct : shape.children.Nodup) :
    ({ s with exprLists := lists } : Store).HasStmtShape id span (shape.rename (swap old new)) := by
  rw [Pool.get?_eq_getElem?] at hget
  cases slot with
  | callArg | operand => cases hid
  | varValue stmt index =>
    obtain rfl := Option.some.inj hid
    cases shape with
    | var names type? values =>
      obtain ⟨ns, ns', t?, vs, hn, hns, hnames, ht, hk⟩ := h
      simp only [listPosition?, hn, Option.some.injEq, Prod.mk.injEq] at hp
      obtain ⟨rfl, rfl⟩ := hp
      rw [hk.list] at hget
      have hvalues : values.Nodup := distinct
      rw [StmtShape.rename, map_swap hvalues hget]
      exact ⟨ns, ns', t?, vs, hn, hns, hnames, ht, hk.set_self hset⟩
    | assign =>
      obtain ⟨_, _, hn, -⟩ := h
      simp [listPosition?, hn] at hp
    | ret =>
      obtain ⟨_, hn, -⟩ := h
      simp [listPosition?, hn] at hp
    | expr => simp [listPosition?, show _ = _ from h] at hp
  | assignValue stmt index =>
    obtain rfl := Option.some.inj hid
    cases shape with
    | assign targets values =>
      obtain ⟨ts, vs, hn, htargets, hk⟩ := h
      simp only [listPosition?, hn, Option.some.injEq, Prod.mk.injEq] at hp
      obtain ⟨rfl, rfl⟩ := hp
      rw [hk.list] at hget
      obtain ⟨-, hvalues, hne⟩ := List.nodup_append.1 distinct
      have hold : old ∉ targets := fun hm => hne old hm old (List.mem_of_getElem? hget) rfl
      rw [StmtShape.rename, map_swap hvalues hget, map_swap_of_not_mem hold]
      rw [← hk.list, ← Pool.get?_eq_getElem?] at hget
      exact ⟨ts, vs, hn, htargets.set_other hset hget hold, hk.set_self hset⟩
    | var =>
      obtain ⟨_, _, _, _, hn, -⟩ := h
      simp [listPosition?, hn] at hp
    | ret =>
      obtain ⟨_, hn, -⟩ := h
      simp [listPosition?, hn] at hp
    | expr => simp [listPosition?, show _ = _ from h] at hp
  | returnValue stmt index =>
    obtain rfl := Option.some.inj hid
    cases shape with
    | ret results =>
      obtain ⟨rs, hn, hk⟩ := h
      simp only [listPosition?, hn, Option.some.injEq, Prod.mk.injEq] at hp
      obtain ⟨rfl, rfl⟩ := hp
      rw [hk.list] at hget
      have hresults : results.Nodup := distinct
      rw [StmtShape.rename, map_swap hresults hget]
      exact ⟨rs, hn, hk.set_self hset⟩
    | var =>
      obtain ⟨_, _, _, _, hn, -⟩ := h
      simp [listPosition?, hn] at hp
    | assign =>
      obtain ⟨_, _, hn, -⟩ := h
      simp [listPosition?, hn] at hp
    | expr => simp [listPosition?, show _ = _ from h] at hp

/-- When a slot gets another expression, a statement has that expression in place of the old one. The
old one is an expression of no statement but the one with the slot. -/
theorem hasStmtShape_setSlot? (hget : s.slot? slot = some old)
    (hset : s.setSlot? slot new = some s') (h : s.HasStmtShape id span shape)
    (distinct : shape.children.Nodup) (only : old ∈ shape.children → slot.stmt? = some id) :
    s'.HasStmtShape id span (shape.rename (swap old new)) := by
  cases slot with
  | operand binary side =>
    obtain ⟨op, left, right, span', hn, -⟩ := exists_binary_of_slot? hget
    rw [setSlot?_operand hn] at hset
    obtain rfl := Option.some.inj hset
    rw [StmtShape.rename_swap_of_not_mem fun hm => by cases only hm]
    cases shape <;> exact h
  | _ =>
    obtain ⟨slice, i', lists, hp, hg, hl, hs⟩ := setSlot?_list (by simp) hget new
    rw [hs] at hset
    obtain rfl := Option.some.inj hset
    by_cases hold : old ∈ shape.children
    · exact h.of_slot (only hold) hp hg hl distinct
    · rw [StmtShape.rename_swap_of_not_mem hold]
      exact h.of_lists hg hl hold

end Statements

end Store

end Recast
