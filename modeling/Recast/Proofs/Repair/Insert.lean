import Mathlib.Data.List.Pairwise
import Recast.Proofs.Store.Extends
import Recast.Proofs.Store.Replace
import Recast.Store.Conversion

/-!
# A conversion goes into the store

A store that represents a program with some conversions in it represents, after one more conversion
has been put around an expression that stands in a slot, the program with that conversion too.
-/

namespace Recast

variable {β γ τ : Type}

/-! ### Expressions have one place -/

/-- An item of a list made of lists without repetitions comes from one of them. -/
theorem eq_of_mem_flatMap {f : β → List γ} {xs : List β} (h : (xs.flatMap f).Nodup) {x y : β}
    (hx : x ∈ xs) (hy : y ∈ xs) {a : γ} (hax : a ∈ f x) (hay : a ∈ f y) : x = y := by
  by_contra hne
  have : Std.Symm (Function.onFun List.Disjoint f) := ⟨fun _ _ hd _ ha hb => hd hb ha⟩
  exact (List.nodup_flatMap.1 h).2.forall hx hy hne hax hay

theorem flatMap_parts_perm {es : List PlacedExpr}
    (h : ∀ e ∈ es, e.parts.Perm (e :: e.parts.flatMap Expr.children)) :
    (es.flatMap Expr.parts).Perm (es ++ (es.flatMap Expr.parts).flatMap Expr.children) := by
  induction es with
  | nil => exact .refl _
  | cons e es ih =>
    have ih := ih fun e he => h e (List.mem_cons_of_mem _ he)
    rw [List.flatMap_cons, List.flatMap_append]
    refine ((h e List.mem_cons_self).append ih).trans (.cons e ?_)
    exact List.perm_append_comm_assoc _ _ _

/-- The parts of an expression are the expression and the children of its parts. -/
theorem Expr.parts_perm (e : PlacedExpr) : e.parts.Perm (e :: e.parts.flatMap Expr.children) := by
  induction e using Expr.inductChildren with
  | step e ih =>
    rw [parts_eq, List.flatMap_cons]
    exact .cons e (flatMap_parts_perm ih)

/-- The parts of a program are its outermost expressions and the children of its parts. -/
theorem Program.parts_perm (p : PlacedProgram) :
    p.parts.Perm (p.exprs ++ p.parts.flatMap Expr.children) :=
  flatMap_parts_perm fun e _ => e.parts_perm

section Places

variable {p : PlacedProgram} {e h c c' : PlacedExpr} {s t : PlacedStmt}

/-- Expressions with different ids stand in different places. -/
theorem Program.nodup_places (distinct : (p.parts.map Expr.ref).Nodup) :
    (p.stmts.flatMap fun s => s.children.map Expr.ref).Nodup ∧
      (p.parts.flatMap fun e => e.children.map Expr.ref).Nodup ∧
        ∀ c ∈ p.exprs, ∀ c' ∈ p.parts.flatMap Expr.children, c.ref ≠ c'.ref := by
  have := (p.parts_perm.map Expr.ref).nodup_iff.1 distinct
  rw [List.map_append, List.nodup_append] at this
  obtain ⟨hroots, hchildren, hne⟩ := this
  rw [Program.exprs, List.map_flatMap] at hroots
  rw [List.map_flatMap] at hchildren
  exact ⟨hroots, hchildren, fun c hc c' hc' =>
    hne _ (List.mem_map_of_mem hc) _ (List.mem_map_of_mem hc')⟩

theorem Program.parent_unique (distinct : (p.parts.map Expr.ref).Nodup) (he : e ∈ p.parts)
    (hh : h ∈ p.parts) (hc : c ∈ e.children) (hc' : c' ∈ h.children) (href : c.ref = c'.ref) :
    e = h :=
  eq_of_mem_flatMap (nodup_places distinct).2.1 he hh (List.mem_map_of_mem hc)
    (href ▸ List.mem_map_of_mem hc')

theorem Program.stmt_unique (distinct : (p.parts.map Expr.ref).Nodup) (hs : s ∈ p.stmts)
    (ht : t ∈ p.stmts) (hc : c ∈ s.children) (hc' : c' ∈ t.children) (href : c.ref = c'.ref) :
    s = t :=
  eq_of_mem_flatMap (nodup_places distinct).1 hs ht (List.mem_map_of_mem hc)
    (href ▸ List.mem_map_of_mem hc')

theorem Program.ref_ne_of_root (distinct : (p.parts.map Expr.ref).Nodup) (hs : s ∈ p.stmts)
    (hc : c ∈ s.children) (hh : h ∈ p.parts) (hc' : c' ∈ h.children) : c.ref ≠ c'.ref :=
  (nodup_places distinct).2.2 c (List.mem_flatMap.2 ⟨s, hs, hc⟩) c'
    (List.mem_flatMap.2 ⟨h, hh, hc'⟩)

end Places

/-! ### What stands in slots -/

/-- The store has the nodes of the program. -/
structure Store.HasNodes (s : Store) (p : PlacedProgram) : Prop where
  exprs : ∀ e ∈ p.parts, s.HasExpr e
  stmts : ∀ st ∈ p.stmts, s.HasStmt st


/-- The expression stands in the slot. -/
inductive Program.Fills (p : PlacedProgram) : Slot → PlacedExpr → Prop where
  | varValue {tag : Placed} {names : List String} {type? : Option (TypeRef String)}
      {values : List PlacedExpr} {i : Nat} {v : PlacedExpr}
      (holder : .var tag names type? values ∈ p.stmts) (present : values[i]? = some v) :
      Fills p (.varValue tag.id i) v
  | assignValue {tag : Placed} {targets values : List PlacedExpr} {i : Nat} {v : PlacedExpr}
      (holder : .assign tag targets values ∈ p.stmts) (present : values[i]? = some v) :
      Fills p (.assignValue tag.id i) v
  | returnValue {tag : Placed} {values : List PlacedExpr} {i : Nat} {v : PlacedExpr}
      (holder : .ret tag values ∈ p.stmts) (present : values[i]? = some v) :
      Fills p (.returnValue tag.id i) v
  | callArg {tag : Placed} {callee : PlacedExpr} {args : List PlacedExpr} {i : Nat}
      {v : PlacedExpr} (holder : .call tag callee args ∈ p.parts) (present : args[i]? = some v) :
      Fills p (.callArg tag.id i) v
  | left {tag : Placed} {op : BinaryOp} {v right : PlacedExpr}
      (holder : .binary tag op v right ∈ p.parts) : Fills p (.operand tag.id .left) v
  | right {tag : Placed} {op : BinaryOp} {left v : PlacedExpr}
      (holder : .binary tag op left v ∈ p.parts) : Fills p (.operand tag.id .right) v

namespace Program.Fills

variable {p : PlacedProgram} {slot : Slot} {v : PlacedExpr} {s t : Store}

/-- What stands in a slot of an expression is a child of it, and likewise for statements. -/
theorem holder (h : p.Fills slot v) :
    (∃ e ∈ p.parts, v ∈ e.children ∧ slot.expr? = some e.ref) ∨
      ∃ st ∈ p.stmts, v ∈ st.children ∧ slot.stmt? = some st.ref := by
  cases h with
  | varValue hm hv => exact .inr ⟨_, hm, List.mem_of_getElem? hv, rfl⟩
  | assignValue hm hv =>
    exact .inr ⟨_, hm, List.mem_append_right _ (List.mem_of_getElem? hv), rfl⟩
  | returnValue hm hv => exact .inr ⟨_, hm, List.mem_of_getElem? hv, rfl⟩
  | callArg hm hv => exact .inl ⟨_, hm, List.mem_cons_of_mem _ (List.mem_of_getElem? hv), rfl⟩
  | left hm => exact .inl ⟨_, hm, by simp [Expr.children], rfl⟩
  | right hm => exact .inl ⟨_, hm, by simp [Expr.children], rfl⟩

theorem mem_parts (h : p.Fills slot v) : v ∈ p.parts := by
  rcases h.holder with ⟨e, he, hv, -⟩ | ⟨st, hs, hv, -⟩
  · obtain ⟨root, hr, he⟩ := List.mem_flatMap.1 he
    exact List.mem_flatMap.2 ⟨root, hr, Expr.child_mem_parts he hv⟩
  · exact Store.Program.mem_parts_of_mem_children hs hv

theorem wrap [Spelled τ] (h : p.Fills slot v) (W : Insertions τ) : (p.wrap W).Fills slot (v.wrap W) := by
  have hstmt {st : PlacedStmt} (hst : st ∈ p.stmts) : st.wrap W ∈ (p.wrap W).stmts := by
    rw [Program.stmts_wrap]
    exact List.mem_map_of_mem hst
  have hexpr {e : PlacedExpr} (he : e ∈ p.parts) : e.wrapBelow W ∈ (p.wrap W).parts :=
    Program.wrapBelow_mem_parts W he
  have hlist {es : List PlacedExpr} {i : Nat} (hv : es[i]? = some v) :
      (es.map (Expr.wrap W))[i]? = some (v.wrap W) := by simp [hv]
  cases h with
  | varValue hm hv => exact .varValue (hstmt hm) (hlist hv)
  | assignValue hm hv => exact .assignValue (hstmt hm) (hlist hv)
  | returnValue hm hv => exact .returnValue (hstmt hm) (hlist hv)
  | callArg hm hv =>
    have := hexpr hm
    rw [Expr.wrapBelow, Expr.wrapAll_eq] at this
    exact .callArg this (hlist hv)
  | left hm => exact .left (hexpr hm)
  | right hm => exact .right (hexpr hm)

/-- The place of a slot in a list. -/
theorem listPosition? (h : p.Fills slot v) (hs : s.HasNodes p)
    (hlist : ∀ id side, slot ≠ .operand id side) :
    ∃ slice i ids, s.listPosition? slot = some (slice, i) ∧ s.exprLists.Keeps slice ids ∧
      ids[i]? = some v.ref := by
  have hmap {es : List PlacedExpr} {i : Nat} (hv : es[i]? = some v) :
      (es.map Expr.ref)[i]? = some v.ref := by simp [hv]
  cases h with
  | left | right => exact absurd rfl (hlist _ _)
  | varValue hm hv =>
    obtain ⟨_, hshape, hn⟩ := hs.stmts _ hm
    cases hshape
    obtain ⟨ns, ns', t?, vs, hn, -, -, -, hk⟩ := hn
    rw [Stmt.ref] at hn
    exact ⟨vs, _, _, by simp only [Store.listPosition?, hn], hk, hmap hv⟩
  | assignValue hm hv =>
    obtain ⟨_, hshape, hn⟩ := hs.stmts _ hm
    cases hshape
    obtain ⟨ts, vs, hn, -, hk⟩ := hn
    rw [Stmt.ref] at hn
    exact ⟨vs, _, _, by simp only [Store.listPosition?, hn], hk, hmap hv⟩
  | returnValue hm hv =>
    obtain ⟨_, hshape, hn⟩ := hs.stmts _ hm
    cases hshape
    obtain ⟨rs, hn, hk⟩ := hn
    rw [Stmt.ref] at hn
    exact ⟨rs, _, _, by simp only [Store.listPosition?, hn], hk, hmap hv⟩
  | callArg hm hv =>
    obtain ⟨_, hshape, hn⟩ := hs.exprs _ hm
    cases hshape
    obtain ⟨slice, hn, hk⟩ := hn
    rw [Expr.ref] at hn
    exact ⟨slice, _, _, by simp only [Store.listPosition?, hn], hk, hmap hv⟩

theorem slot?_eq (h : p.Fills slot v) (hs : s.HasNodes p) : s.slot? slot = some v.ref := by
  cases h with
  | varValue hm hv =>
    obtain ⟨_, hshape, hn⟩ := hs.stmts _ hm
    cases hshape
    exact (Store.slot?_varValue hn).trans (by simp [hv])
  | assignValue hm hv =>
    obtain ⟨_, hshape, hn⟩ := hs.stmts _ hm
    cases hshape
    exact (Store.slot?_assignValue hn).trans (by simp [hv])
  | returnValue hm hv =>
    obtain ⟨_, hshape, hn⟩ := hs.stmts _ hm
    cases hshape
    exact (Store.slot?_returnValue hn).trans (by simp [hv])
  | callArg hm hv =>
    obtain ⟨_, hshape, hn⟩ := hs.exprs _ hm
    cases hshape
    exact (Store.slot?_callArg hn).trans (by simp [hv])
  | left hm =>
    obtain ⟨_, hshape, hn⟩ := hs.exprs _ hm
    cases hshape
    exact Store.slot?_operand hn .left
  | right hm =>
    obtain ⟨_, hshape, hn⟩ := hs.exprs _ hm
    cases hshape
    exact Store.slot?_operand hn .right

end Program.Fills

/-! ### The new nodes -/

/-- The store has a new conversion of an expression; its list stands behind all earlier ones. -/
structure Store.AddsConversion (s t : Store) (name : String) (arg : ExprId) (span : Span) : Prop where
  extends_ : Extends s t
  size : t.exprs.size = s.exprs.size + 2
  stmts : t.stmts = s.stmts
  functions : t.functions = s.functions
  trivia : t.trivia = s.trivia
  callee : t.HasShape s.exprs.size ⟨span.start, span.start⟩ (.name name)
  call : ∃ slice, t.exprs[s.exprs.size + 1]? = some ⟨.call s.exprs.size slice, span⟩ ∧
    t.exprLists.Keeps slice [arg] ∧ slice.start = s.exprLists.items.size

namespace Store

variable {s t t' : Store} {slot : Slot} {p : PlacedProgram} {v : PlacedExpr}

theorem fst_addConversion (s : Store) (name : String) (arg : ExprId) :
    (s.addConversion name arg).1 = s.exprs.size + 1 := by
  unfold addConversion
  rw [(addsExpr _ _ _).1, (addsExpr _ _ _).2.size]

theorem addConversion_spec {arg : ExprId} {span : Span}
    (h : (s.exprs[arg]?.map Node.span) = some span) (name : String) :
    (s.addConversion name arg).1 = s.exprs.size + 1 ∧
      AddsConversion s (s.addConversion name arg).2 name arg span := by
  have hspan : (s.exprs[arg]?.map Node.span).getD ⟨0, 0⟩ = span := by rw [h]; rfl
  obtain ⟨hname, ha⟩ := addsExpr s (.name name) ⟨span.start, span.start⟩
  obtain ⟨hcall, hb⟩ := addsExpr (s.addExpr (.name name) ⟨span.start, span.start⟩).2
    (.call s.exprs.size [arg]) span
  unfold addConversion
  rw [hspan]
  dsimp only
  rw [hname]
  refine ⟨by rw [hcall, ha.size], ha.extends_.trans hb.extends_, by rw [hb.size, ha.size],
    hb.stmts.trans ha.stmts, hb.functions.trans ha.functions, rfl, ?_, ?_⟩
  · obtain ⟨n, hn, ht⟩ := ha.shape
    exact ⟨n, hb.extends_.exprs hn, hb.extends_.strings ht⟩
  · obtain ⟨-, hk⟩ := addExprList_spec (s.addExpr (.name name) ⟨span.start, span.start⟩).2 [arg]
    refine ⟨_, ?_, hk, rfl⟩
    rw [← ha.size]
    exact getElem?_pushExpr _ _

theorem Extends.listPosition? (h : Extends s t) {slice : Slice ExprId} {i : Nat}
    (hp : s.listPosition? slot = some (slice, i)) : t.listPosition? slot = some (slice, i) := by
  cases slot with
  | operand => cases hp
  | varValue | assignValue | returnValue =>
    simp only [Store.listPosition?] at hp ⊢
    split at hp
    · rename_i hn
      rw [h.stmts hn]
      exact hp
    · cases hp
  | callArg =>
    simp only [Store.listPosition?] at hp ⊢
    split at hp
    · rename_i hn
      rw [h.exprs hn]
      exact hp
    · cases hp

theorem Extends.hasNodes (h : Extends s t) (hs : s.HasNodes p) : t.HasNodes p :=
  ⟨fun e he => h.hasExpr (hs.exprs e he), fun st hst => h.hasStmt (hs.stmts st hst)⟩

theorem AddsConversion.hasTrivia {name : String} {arg : ExprId} {span : Span}
    (h : AddsConversion s t name arg span) {trivia : Trivia String} (ht : s.HasTrivia trivia) :
    t.HasTrivia trivia :=
  ⟨by rw [h.trivia]; exact map_some_mono h.extends_.comment? ht.comments, h.trivia ▸ ht.blankLines⟩

/-- Stores that differ in expressions and their lists only. -/
structure SameFrame (s t : Store) : Prop where
  size : t.exprs.size = s.exprs.size
  functions : t.functions = s.functions
  params : t.params = s.params
  stmtLists : t.stmtLists = s.stmtLists
  typeLists : t.typeLists = s.typeLists
  interner : t.interner = s.interner
  trivia : t.trivia = s.trivia

theorem SameFrame.string? (h : SameFrame s t) (n : Name) : t.string? n = s.string? n := by
  rw [Store.string?, Store.string?, h.interner]

theorem SameFrame.hasFunction (h : SameFrame s t) {id : FunctionId} {f : PlacedFunction}
    (hf : s.HasFunction id f) : t.HasFunction id f := by
  obtain ⟨htag, name, ps, ps', rs, rs', body, hn, hname, ⟨hps, hparams⟩, ⟨hrs, hresults⟩, hbody⟩ :=
    hf
  have htype {x y} (hx : s.type? x = some y) : t.type? x = some y := by
    rw [Store.type?, h.string?]
    exact hx
  have hparam {x y} (hx : s.param? x = some y) : t.param? x = some y := by
    rw [Store.param?, h.string?, Store.type?, h.string?]
    exact hx
  exact ⟨htag, name, ps, ps', rs, rs', body, h.functions ▸ hn, (h.string? name).trans hname,
    ⟨h.params ▸ hps, map_some_mono hparam hparams⟩,
    ⟨h.typeLists ▸ hrs, map_some_mono htype hresults⟩, h.stmtLists ▸ hbody⟩

theorem SameFrame.hasTrivia (h : SameFrame s t) {trivia : Trivia String} (ht : s.HasTrivia trivia) :
    t.HasTrivia trivia where
  comments := by
    have hcomment {x y} (hx : s.comment? x = some y) : t.comment? x = some y := by
      rw [Store.comment?, h.string?]
      exact hx
    rw [h.trivia]
    exact map_some_mono hcomment ht.comments
  blankLines := h.trivia ▸ ht.blankLines

/-- Putting an expression into a slot that exists. -/
theorem exists_setSlot? {old : ExprId} (h : s.slot? slot = some old) (new : ExprId) :
    ∃ t, s.setSlot? slot new = some t ∧ SameFrame s t := by
  cases slot with
  | operand id side =>
    obtain ⟨op, left, right, span, hn, -⟩ := exists_binary_of_slot? h
    exact ⟨_, setSlot?_operand hn, Array.size_setIfInBounds, rfl, rfl, rfl, rfl, rfl, rfl⟩
  | _ =>
    obtain ⟨slice, i, lists, -, -, -, hs⟩ := setSlot?_list (by simp) h new
    exact ⟨_, hs, rfl, rfl, rfl, rfl, rfl, rfl, rfl⟩

/-- The new conversion keeps its argument when it is put into the slot of that. -/
theorem AddsConversion.call_setSlot? {name : String} {span : Span}
    (h : AddsConversion s t name v.ref span) (hs : s.HasNodes p) (hv : p.Fills slot v)
    {new : ExprId} (hset : t.setSlot? slot new = some t') :
    t'.HasShape (s.exprs.size + 1) span (.call s.exprs.size [v.ref]) := by
  obtain ⟨slice, hn, hk, hstart⟩ := h.call
  have hget := hv.slot?_eq (h.extends_.hasNodes hs)
  by_cases hlist : ∀ id side, slot ≠ .operand id side
  · obtain ⟨slice', i, ids, hp, hk', hi⟩ := hv.listPosition? hs hlist
    obtain ⟨slice'', i', lists, hp', hg, hl, hput⟩ := setSlot?_list hlist hget new
    rw [h.extends_.listPosition? hp] at hp'
    cases hp'
    rw [hput] at hset
    obtain rfl := Option.some.inj hset
    refine ⟨slice, hn, ⟨Pool.size_set? hl ▸ hk.bound, ?_⟩⟩
    rw [← hk.list]
    exact Pool.list_set?_of_disjoint hl (.inr (hstart ▸ hk'.bound))
  · simp only [not_forall, not_not] at hlist
    obtain ⟨id, side, rfl⟩ := hlist
    obtain ⟨op, left, right, span', hb, -⟩ := exists_binary_of_slot? (hv.slot?_eq hs)
    rw [setSlot?_operand (h.extends_.exprs hb)] at hset
    obtain rfl := Option.some.inj hset
    have hlt := (Array.getElem?_eq_some_iff.1 hb).1
    have hcall : t.HasShape (s.exprs.size + 1) span (.call s.exprs.size [v.ref]) := ⟨slice, hn, hk⟩
    exact hcall.of_exprs (Nat.ne_of_lt (Nat.lt_succ_of_lt hlt))

end Store

/-! ### One more insertion -/

section Insert

variable {s : Store} {p : PlacedProgram} {W : Insertions τ} {slot : Slot} {v : PlacedExpr}

theorem Insertions.insert_self (id : ExprId) (i : Insertion τ) : W.insert id i id = some i :=
  if_pos rfl

theorem Insertions.insert_other {id other : ExprId} (i : Insertion τ) (h : other ≠ id) :
    W.insert id i other = W other := if_neg h

theorem Insertions.nodup_insert {ids : List ExprId} {id : ExprId} {i : Insertion τ}
    (distinct : ids.Nodup) (h : (ids.flatMap W.ids).Nodup) (hid : id ∈ ids) (hW : W id = none)
    (hcall : i.call.id ∉ ids.flatMap W.ids) (hcallee : i.callee.id ∉ ids.flatMap W.ids)
    (hne : i.call.id ≠ i.callee.id) : (ids.flatMap (W.insert id i).ids).Nodup := by
  obtain ⟨before, after, rfl⟩ := List.append_of_mem hid
  have hother {other : ExprId} (ho : other ≠ id) : (W.insert id i).ids other = W.ids other := by
    rw [Insertions.ids, Insertions.ids, insert_other i ho]
  have hself : (W.insert id i).ids id = [i.call.id, i.callee.id] ++ W.ids id := by
    rw [Insertions.ids, Insertions.ids, insert_self, hW]
    rfl
  obtain ⟨-, hafter, hdisj⟩ := List.nodup_append.1 distinct
  have hb : before.flatMap (W.insert id i).ids = before.flatMap W.ids :=
    List.flatMap_congr fun other ho => hother fun e => hdisj other ho id List.mem_cons_self e
  have ha : after.flatMap (W.insert id i).ids = after.flatMap W.ids :=
    List.flatMap_congr fun other ho => hother fun e => (List.nodup_cons.1 hafter).1 (e ▸ ho)
  have hperm : ((before ++ id :: after).flatMap (W.insert id i).ids).Perm
      ([i.call.id, i.callee.id] ++ (before ++ id :: after).flatMap W.ids) := by
    rw [List.flatMap_append, List.flatMap_cons, hb, ha, hself, List.append_assoc,
      List.flatMap_append, List.flatMap_cons]
    exact List.perm_append_comm_assoc _ _ _
  rw [hperm.nodup_iff]
  exact List.nodup_cons.2 ⟨fun hm => (List.mem_cons.1 hm).elim hne hcall,
    List.nodup_cons.2 ⟨hcallee, h⟩⟩

/-- Only an expression that nothing is put around has its id in the tree as the id of the place. -/
theorem Insertions.rename_eq_iff {ids : List ExprId} {id other : ExprId}
    (h : (ids.flatMap W.ids).Nodup) (hid : id ∈ ids) (ho : other ∈ ids) (hW : W id = none) :
    W.rename other = id ↔ other = id := by
  constructor
  · intro hr
    refine eq_of_mem_flatMap (a := id) h ho hid ?_ ?_
    · rw [Insertions.rename] at hr
      rw [Insertions.ids]
      cases hother : W other <;> simp_all
    · simp [Insertions.ids, hW]
  · rintro rfl
    rw [Insertions.rename, hW]

theorem Insertions.rename_insert {ids : List ExprId} {id other : ExprId} (i : Insertion τ)
    (h : (ids.flatMap W.ids).Nodup) (hid : id ∈ ids) (ho : other ∈ ids) (hW : W id = none) :
    (W.insert id i).rename other = swap id i.call.id (W.rename other) := by
  by_cases he : other = id
  · subst he
    rw [swap, if_pos ((rename_eq_iff h hid ho hW).2 rfl), Insertions.rename, insert_self]
  · rw [swap, if_neg fun hr => he ((rename_eq_iff h hid ho hW).1 hr), Insertions.rename,
      insert_other i he, Insertions.rename]

variable [Spelled τ]

/-- The conversion that a store makes around an expression. -/
def Store.insertion (s : Store) (v : PlacedExpr) (type : τ) : Insertion τ :=
  ⟨⟨s.exprs.size, ⟨v.span.start, v.span.start⟩⟩, ⟨s.exprs.size + 1, v.span⟩, type⟩

theorem Store.HasFunction.wrap {t : Store} {id : FunctionId} {f : PlacedFunction} (W' : Insertions τ)
    (h : t.HasFunction id (f.wrap W)) : t.HasFunction id (f.wrap W') := by
  obtain ⟨htag, name, ps, ps', rs, rs', body, hn, hname, hps, hrs, hbody⟩ := h
  refine ⟨htag, name, ps, ps', rs, rs', body, hn, hname, hps, hrs, ?_⟩
  simpa [Function.wrap, Function.comp_def] using hbody

theorem Store.Represents.hasNodes {p : PlacedProgram} (h : s.Represents p) : s.HasNodes p :=
  ⟨h.exprs, h.stmts⟩

/-- Where the store of a program with conversions is changed by one more conversion. -/
structure Store.Inserts (s t : Store) (p : PlacedProgram) (W : Insertions τ) (slot : Slot)
    (v : PlacedExpr) (type : τ) : Prop where
  added : let conversion := s.addConversion (Spelled.spelling type) v.ref
    conversion.2.setSlot? slot conversion.1 = some t
  represents : t.Represents (p.wrap (W.insert v.ref (s.insertion v type)))
  size : t.exprs.size = s.exprs.size + 2

theorem Expr.children_of_shape? {e : PlacedExpr} {shape : ExprShape String List}
    (h : e.shape? = some shape) : shape.children = e.children.map Expr.ref := by
  cases e <;> cases h <;> simp [ExprShape.children, Expr.children]

theorem Stmt.children_of_shape? {s : PlacedStmt} {shape : StmtShape String List}
    (h : s.shape? = some shape) : shape.children = s.children.map Expr.ref := by
  cases s <;> cases h <;> simp [StmtShape.children, Stmt.children]

theorem ExprShape.rename_rename {f g k : ExprId → ExprId} {shape : ExprShape String List}
    (h : ∀ id ∈ shape.children, k id = g (f id)) : (shape.rename f).rename g = shape.rename k := by
  cases shape <;> simp_all [ExprShape.rename, ExprShape.children]

theorem StmtShape.rename_rename {f g k : ExprId → ExprId} {shape : StmtShape String List}
    (h : ∀ id ∈ shape.children, k id = g (f id)) : (shape.rename f).rename g = shape.rename k := by
  cases shape <;> simp_all [StmtShape.rename, StmtShape.children]

theorem Program.mem_parts_of_child {e c : PlacedExpr} (he : e ∈ p.parts) (hc : c ∈ e.children) :
    c ∈ p.parts := by
  obtain ⟨root, hr, he⟩ := List.mem_flatMap.1 he
  exact List.mem_flatMap.2
    ⟨root, hr, Expr.child_mem_parts he hc⟩

namespace Store.Represents

variable {t₁ t : Store}

/-- Nodes that do not have the old expression stay when a slot gets another one. -/
theorem hasExpr_other (h : s.Represents (p.wrap W)) (hext : Extends s t₁)
    (hget : t₁.slot? slot = some v.ref) {new : ExprId} (hset : t₁.setSlot? slot new = some t)
    {x : PlacedExpr} (hx : x ∈ (p.wrap W).parts) (hold : v.ref ∉ x.children.map Expr.ref) :
    t.HasExpr x := by
  obtain ⟨shape, hs, hn⟩ := hext.hasExpr (h.exprs x hx)
  have hchildren := Expr.children_of_shape? hs
  refine ⟨shape, hs, ?_⟩
  have := hasShape_setSlot? hget hset hn (hchildren ▸ h.distinct_children hx)
    fun hm => absurd (hchildren ▸ hm) hold
  rwa [ExprShape.rename_swap_of_not_mem (hchildren ▸ hold)] at this

theorem rename_ref_eq_iff (h : s.Represents (p.wrap W)) (hv : p.Fills slot v) (hW : W v.ref = none)
    {c : PlacedExpr} (hc : c ∈ p.parts) : W.rename c.ref = v.ref ↔ c.ref = v.ref :=
  Insertions.rename_eq_iff (p.ids_wrap W ▸ h.distinct) (List.mem_map_of_mem hv.mem_parts)
    (List.mem_map_of_mem hc) hW

variable (h : s.Represents (p.wrap W)) (distinct : (p.parts.map Expr.ref).Nodup)
  (hv : p.Fills slot v) (hW : W v.ref = none)

include h distinct hv hW

/-- The nodes of expressions of the program after one more insertion. -/
theorem hasExpr_insert (hext : Extends s t₁) (hget : t₁.slot? slot = some v.ref) {i : Insertion τ}
    (hset : t₁.setSlot? slot i.call.id = some t) {e : PlacedExpr} (he : e ∈ p.parts)
    (hw : e.wrapBelow W ∈ (p.wrap W).parts) : t.HasExpr (e.wrapBelow (W.insert v.ref i)) := by
  have hids : ((p.parts.map Expr.ref).flatMap W.ids).Nodup := p.ids_wrap W ▸ h.distinct
  obtain ⟨shape, hs, hn⟩ := hext.hasExpr (h.exprs _ hw)
  have hchildren := Expr.children_of_shape? hs
  have hnew := hasShape_setSlot? hget hset hn (hchildren ▸ h.distinct_children hw) fun hm => by
    rw [hchildren, Expr.children_wrapBelow, List.map_map] at hm
    obtain ⟨c, hc, hr⟩ := List.mem_map.1 hm
    have hcv : c.ref = v.ref := (h.rename_ref_eq_iff hv hW
      (Program.mem_parts_of_child he hc)).1 ((Expr.ref_wrap c).symm.trans hr)
    rcases hv.holder with ⟨parent, hp, hvp, hslot⟩ | ⟨st, hst, hvs, -⟩
    · rw [hslot, Program.parent_unique distinct hp he hvp hc hcv.symm, Expr.ref_wrapBelow]
    · exact absurd hcv.symm (Program.ref_ne_of_root distinct hst hvs he hc)
  rw [Expr.shape?_wrapBelow] at hs
  obtain ⟨shape₀, hs₀, rfl⟩ := Option.map_eq_some_iff.1 hs
  refine ⟨shape₀.rename (W.insert v.ref i).rename, ?_, ?_⟩
  · rw [Expr.shape?_wrapBelow, hs₀]
    rfl
  · rw [← ExprShape.rename_rename fun id hid => ?_]
    · simpa using hnew
    · rw [Expr.children_of_shape? hs₀] at hid
      obtain ⟨c, hc, rfl⟩ := List.mem_map.1 hid
      exact Insertions.rename_insert i hids (List.mem_map_of_mem hv.mem_parts)
        (List.mem_map_of_mem (Program.mem_parts_of_child he hc)) hW

/-- The nodes of statements of the program after one more insertion. -/
theorem hasStmt_insert (hext : Extends s t₁) (hget : t₁.slot? slot = some v.ref) {i : Insertion τ}
    (hset : t₁.setSlot? slot i.call.id = some t) {st : PlacedStmt} (hst : st ∈ p.stmts) :
    t.HasStmt (st.wrap (W.insert v.ref i)) := by
  have hids : ((p.parts.map Expr.ref).flatMap W.ids).Nodup := p.ids_wrap W ▸ h.distinct
  have hw : st.wrap W ∈ (p.wrap W).stmts := by
    rw [Program.stmts_wrap]
    exact List.mem_map_of_mem hst
  have hmem {c : PlacedExpr} (hc : c ∈ st.children) : c ∈ p.parts :=
    Program.mem_parts_of_mem_children hst hc
  obtain ⟨shape, hs, hn⟩ := hext.hasStmt (h.stmts _ hw)
  have hchildren := Stmt.children_of_shape? hs
  have hnew := hasStmtShape_setSlot? hget hset hn (hchildren ▸ h.distinct_exprs hw) fun hm => by
    rw [hchildren, Stmt.children_wrap, List.map_map] at hm
    obtain ⟨c, hc, hr⟩ := List.mem_map.1 hm
    have hcv : c.ref = v.ref := (h.rename_ref_eq_iff hv hW (hmem hc)).1
      ((Expr.ref_wrap c).symm.trans hr)
    rcases hv.holder with ⟨parent, hp, hvp, -⟩ | ⟨st', hst', hvs, hslot⟩
    · exact absurd hcv (Program.ref_ne_of_root distinct hst hc hp hvp)
    · rw [hslot, Program.stmt_unique distinct hst' hst hvs hc hcv.symm, Stmt.ref_wrap]
  rw [Stmt.shape?_wrap] at hs
  obtain ⟨shape₀, hs₀, rfl⟩ := Option.map_eq_some_iff.1 hs
  refine ⟨shape₀.rename (W.insert v.ref i).rename, ?_, ?_⟩
  · rw [Stmt.shape?_wrap, hs₀]
    rfl
  · rw [← StmtShape.rename_rename fun id hid => ?_]
    · simpa using hnew
    · rw [Stmt.children_of_shape? hs₀] at hid
      obtain ⟨c, hc, rfl⟩ := List.mem_map.1 hid
      exact Insertions.rename_insert i hids (List.mem_map_of_mem hv.mem_parts)
        (List.mem_map_of_mem (hmem hc)) hW

end Store.Represents

theorem Insertion.shape?_around (i : Insertion τ) (e : PlacedExpr) :
    (i.around e).shape? = some (.call i.callee.id [e.ref]) := rfl

theorem Insertion.refs_around (i : Insertion τ) (e : PlacedExpr) :
    (i.around e).children.map Expr.ref = [i.callee.id, e.ref] := rfl

/-- A conversion refers to its argument by id. -/
theorem Store.HasExpr.around {t : Store} {i : Insertion τ} {e e' : PlacedExpr}
    (h : t.HasExpr (i.around e)) (href : e.ref = e'.ref) : t.HasExpr (i.around e') := by
  obtain ⟨shape, hs, hn⟩ := h
  refine ⟨shape, ?_, hn⟩
  rw [← hs, Insertion.shape?_around, Insertion.shape?_around, href]

theorem Insertions.mem_nodes {x e : PlacedExpr} : x ∈ W.nodes e ↔ x = e.wrapBelow W ∨
    ∃ i, W e.ref = some i ∧
      (x = i.around (e.wrapBelow W) ∨ x = .name i.callee (Spelled.spelling i.type)) := by
  rw [nodes]
  cases W e.ref <;> simp [or_comm, or_left_comm]

/-- The argument of a conversion that is there is another expression than one without a conversion,
and so is its callee. -/
theorem Store.Represents.ref_not_mem_around (h : s.Represents (p.wrap W)) (hv : p.Fills slot v)
    (hW : W v.ref = none) {e : PlacedExpr} {i : Insertion τ} (he : e ∈ p.parts)
    (hi : W e.ref = some i) : v.ref ∉ [i.callee.id, e.ref] := by
  have hids : ((p.parts.map Expr.ref).flatMap W.ids).Nodup := p.ids_wrap W ▸ h.distinct
  have hne : e.ref ≠ v.ref := fun hev => by rw [hev, hW] at hi; cases hi
  intro hm
  rcases List.mem_cons.1 hm with hc | hc
  · refine hne (eq_of_mem_flatMap (a := v.ref) hids (List.mem_map_of_mem he)
      (List.mem_map_of_mem hv.mem_parts) ?_ ?_)
    · simp [Insertions.ids, hi, hc]
    · simp [Insertions.ids, hW]
  · exact hne (List.mem_singleton.1 hc).symm

/-- All nodes of expressions are there after one more insertion, if the new ones are. -/
theorem Store.Represents.hasExpr_nodes_insert {t₁ t : Store} (h : s.Represents (p.wrap W))
    (distinct : (p.parts.map Expr.ref).Nodup) (hv : p.Fills slot v) (hW : W v.ref = none)
    (hext : Extends s t₁) (hget : t₁.slot? slot = some v.ref) {new : Insertion τ}
    (hset : t₁.setSlot? slot new.call.id = some t)
    (hcall : t.HasShape new.call.id new.call.span (.call new.callee.id [v.ref]))
    (hcallee : t.HasShape new.callee.id new.callee.span (.name (Spelled.spelling new.type)))
    {e : PlacedExpr} (he : e ∈ p.parts) {x : PlacedExpr}
    (hx : x ∈ (W.insert v.ref new).nodes e) : t.HasExpr x := by
  have hnodes {x : PlacedExpr} (hx : x ∈ W.nodes e) : x ∈ (p.wrap W).parts := by
    rw [Program.parts_wrap]
    exact List.mem_flatMap.2 ⟨e, he, hx⟩
  rcases Insertions.mem_nodes.1 hx with rfl | ⟨i, hi, hx⟩
  · exact h.hasExpr_insert distinct hv hW hext hget hset he
      (hnodes (Insertions.mem_nodes.2 (.inl rfl)))
  by_cases hev : e.ref = v.ref
  · rw [hev, Insertions.insert_self] at hi
    obtain rfl := Option.some.inj hi
    rcases hx with rfl | rfl
    · refine ⟨_, ?_, hcall⟩
      rw [Insertion.shape?_around, Expr.ref_wrapBelow, hev]
    · exact ⟨_, rfl, hcallee⟩
  · rw [Insertions.insert_other _ hev] at hi
    rcases hx with rfl | rfl
    · have := h.hasExpr_other hext hget hset
        (hnodes (Insertions.mem_nodes.2 (.inr ⟨i, hi, .inl rfl⟩)))
        (by rw [Insertion.refs_around, Expr.ref_wrapBelow]; exact h.ref_not_mem_around hv hW he hi)
      exact this.around (by rw [Expr.ref_wrapBelow, Expr.ref_wrapBelow])
    · exact h.hasExpr_other hext hget hset
        (hnodes (Insertions.mem_nodes.2 (.inr ⟨i, hi, .inr rfl⟩))) (by simp [Expr.children])

/-- A conversion around an expression that stands in a slot makes a store represent the program with
one more insertion. -/
theorem Store.Represents.insert (h : s.Represents (p.wrap W))
    (distinct : (p.parts.map Expr.ref).Nodup) (hv : p.Fills slot v) (hW : W v.ref = none)
    (type : τ) : ∃ t, s.Inserts t p W slot v type := by
  have hids : ((p.parts.map Expr.ref).flatMap W.ids).Nodup := p.ids_wrap W ▸ h.distinct
  have hlt {id : ExprId} (hid : id ∈ (p.parts.map Expr.ref).flatMap W.ids) : id < s.exprs.size := by
    rw [← p.ids_wrap W] at hid
    obtain ⟨e, he, rfl⟩ := List.mem_map.1 hid
    exact (h.exprs e he).ref_lt
  have hmem := List.mem_map_of_mem (f := Expr.ref) hv.mem_parts
  have hfills : (p.wrap W).Fills slot (v.wrapBelow W) := Expr.wrap_of_none hW ▸ hv.wrap W
  have hspan : s.exprs[v.ref]?.map Node.span = some v.span := by
    obtain ⟨shape, -, hn⟩ := h.exprs _ hfills.mem_parts
    obtain ⟨raw, hn⟩ := hn.getElem?
    rw [Expr.ref_wrapBelow, Expr.span_wrapBelow] at hn
    rw [hn]
    rfl
  obtain ⟨hcall, hadds⟩ := addConversion_spec hspan (Spelled.spelling type)
  revert hcall hadds
  rcases hconv : s.addConversion (Spelled.spelling type) v.ref with ⟨call, t₁⟩
  dsimp only
  rintro rfl hadds
  have hget : t₁.slot? slot = some v.ref :=
    (hfills.slot?_eq (hadds.extends_.hasNodes h.hasNodes)).trans (by rw [Expr.ref_wrapBelow])
  obtain ⟨t, hset, hframe⟩ := exists_setSlot? hget (s.exprs.size + 1)
  have hcallNode : t.HasShape (s.exprs.size + 1) v.span (.call s.exprs.size [v.ref]) := by
    rw [← v.ref_wrapBelow (W := W)] at hadds ⊢
    exact hadds.call_setSlot? h.hasNodes hfills hset
  have hcallee := hasShape_setSlot? hget hset hadds.callee List.nodup_nil nofun
  refine ⟨t, by rw [hconv]; exact hset, ⟨?_, ?_, ?_, ?_, ?_, ?_, ?_⟩, hframe.size.trans hadds.size⟩
  · rw [hframe.functions, hadds.functions, h.functions]
    simp [Program.wrap]
  · intro id f hf
    rw [Program.wrap, List.getElem?_map] at hf
    obtain ⟨f₀, hf₀, rfl⟩ := Option.map_eq_some_iff.1 hf
    have hw : (p.wrap W).functions[id]? = some (f₀.wrap W) := by
      rw [Program.wrap, List.getElem?_map, hf₀]
      rfl
    exact (hframe.hasFunction (hadds.extends_.hasFunction (h.function id _ hw))).wrap _
  · rw [Program.stmts_wrap]
    exact List.forall_mem_map.2 fun st hst =>
      h.hasStmt_insert distinct hv hW hadds.extends_ hget hset hst
  · rw [Program.parts_wrap]
    refine List.forall_mem_flatMap.2 fun e he x hx => ?_
    exact h.hasExpr_nodes_insert distinct hv hW hadds.extends_ hget hset hcallNode hcallee he hx
  · have := h.distinctStmts
    simp only [Program.stmts_wrap, List.map_map, Function.comp_def, Stmt.ref_wrap] at this ⊢
    exact this
  · rw [Program.ids_wrap]
    refine Insertions.nodup_insert distinct hids hmem hW (fun hm => ?_) (fun hm => ?_) ?_
    · exact absurd (hlt hm) (Nat.not_lt.2 (Nat.le_succ _))
    · exact absurd (hlt hm) (Nat.lt_irrefl _)
    · exact Nat.succ_ne_self _
  · exact hframe.hasTrivia (hadds.hasTrivia h.trivia)

end Insert

end Recast
