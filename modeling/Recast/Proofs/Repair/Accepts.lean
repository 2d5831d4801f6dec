import Recast.Proofs.Repair.Mended

/-!
# What a check takes

The checker takes a value where its type is assignable to the one that is required there, and
operands of one type. So it takes values of the types that are wanted in a program, unless a
function is declared again: its results are checked by the last declaration, but converted by its
own one.
-/

namespace Recast

/-- The expression stands in the slot, and the checker takes a value of the type there. -/
inductive Program.Accepts (p : PlacedProgram) (info : TypeInfo) :
    Slot → PlacedExpr → BasicType → Prop where
  | initializer {tag : Placed} {names : List String} {written : TypeRef String} {v : PlacedExpr}
      {values : List PlacedExpr} {k : Nat} {type declared : BasicType}
      (stands : .var tag names (some written) values ∈ p.stmts) (present : values[k]? = some v)
      (required : written.type? = some declared) (fits : type.assignableTo declared = true) :
      Accepts p info (.varValue tag.id k) v type
  | assigned {tag : Placed} {targets values : List PlacedExpr} {goal v : PlacedExpr} {k : Nat}
      {type target : BasicType} (stands : .assign tag targets values ∈ p.stmts)
      (present : values[k]? = some v) (goes : targets[k]? = some goal)
      (required : info.typeOf goal = some target) (fits : type.assignableTo target = true) :
      Accepts p info (.assignValue tag.id k) v type
  | returned {f : PlacedFunction} {signature : Signature} {tag : Placed} {v : PlacedExpr}
      {values : List PlacedExpr} {k : Nat} {type result : BasicType} (function : f ∈ p.functions)
      (stands : .ret tag values ∈ f.body) (present : values[k]? = some v)
      (known : info.signatures[f.name]? = some signature)
      (required : signature.results[k]? = some (some result))
      (fits : type.assignableTo result = true) : Accepts p info (.returnValue tag.id k) v type
  | argument {tag : Placed} {callee v : PlacedExpr} {args : List PlacedExpr} {signature : Signature}
      {k : Nat} {type param : BasicType} (stands : .call tag callee args ∈ p.parts)
      (present : args[k]? = some v) (function : info.callee callee = .function signature)
      (required : signature.param? k = some (some param))
      (fits : type.assignableTo param = true) : Accepts p info (.callArg tag.id k) v type
  | left {tag : Placed} {op : BinaryOp} {v right : PlacedExpr} {type : BasicType}
      (stands : .binary tag op v right ∈ p.parts) (other : info.typeOf right = some type) :
      Accepts p info (.operand tag.id .left) v type
  | right {tag : Placed} {op : BinaryOp} {left v : PlacedExpr} {type : BasicType}
      (stands : .binary tag op left v ∈ p.parts) (other : info.typeOf left = some type) :
      Accepts p info (.operand tag.id .right) v type

/-- The expression stands in the slot, as a result of a function that declares the type for it, but
the checker goes by another declaration of that function. -/
inductive Program.Redeclares (p : PlacedProgram) (info : TypeInfo) :
    Slot → PlacedExpr → BasicType → Prop where
  | returned {f : PlacedFunction} {tag : Placed} {v : PlacedExpr} {values : List PlacedExpr}
      {k : Nat} {type : BasicType} (function : f ∈ p.functions) (stands : .ret tag values ∈ f.body)
      (present : values[k]? = some v) (own : f.signature.results[k]? = some (some type))
      (other : info.signatures[f.name]? ≠ some f.signature) :
      Redeclares p info (.returnValue tag.id k) v type

/-- The expression is a call of a variable that is named as the type. -/
def TypeInfo.Captures (info : TypeInfo) (e : PlacedExpr) (type : BasicType) : Prop :=
  ∃ tag callee arg type?, e = .call tag (.name callee type.name) [arg] ∧
    info.bindings[callee.id]? = some type?

theorem BasicType.assignableTo_self (t : BasicType) : t.assignableTo t = true := by
  cases t <;> rfl

section Sites

variable {p : PlacedProgram} {c : Checked} {f : PlacedFunction} {before after : List PlacedStmt}
  {s : PlacedStmt} {signature : Signature} {v part root : PlacedExpr} {type : BasicType}
  {slot : Slot}

theorem Expr.Wants.accepts (h : part.Wants (p.scopeAt f signature before) slot v type)
    (hc : c.Describes p) (hat : p.At f before s after signature) (hroot : root ∈ s.values)
    (hpart : part ∈ root.parts) : p.Accepts c.info slot v type := by
  have hstands := hat.mem_parts hroot hpart
  have hchild {child : PlacedExpr} (hm : child ∈ part.children) : child ∈ root.parts :=
    Expr.child_mem_parts hpart hm
  cases h with
  | @argument _ callee _ args signature k _ function present wanted =>
    have hknows := (hc.knows hat (Stmt.names_of_value hroot)).part (hchild List.mem_cons_self)
    refine .argument hstands present (hknows.callee_eq.trans function) ?_ type.assignableTo_self
    obtain ⟨hk, -⟩ := List.getElem?_eq_some_iff.1 present
    rw [← Signature.getElem?_targets hk]
    exact Option.join_eq_some_iff.1 wanted
  | left other =>
    exact .left hstands ((hc.typeOf_eq hat hroot (hchild (by simp [Expr.children]))).trans other)
  | right other =>
    exact .right hstands ((hc.typeOf_eq hat hroot (hchild (by simp [Expr.children]))).trans other)

/-- Where a type is wanted by what a function declares, the checker takes a value of the type, but
for results of functions that are declared again. -/
theorem Stmt.Wants.accepts
    (h : s.Wants (p.scopeAt f signature before) f.signature.results slot v type)
    (hc : c.Describes p) (hat : p.At f before s after signature) :
    p.Accepts c.info slot v type ∨ p.Redeclares c.info slot v type := by
  have hbody : s ∈ f.body := by simp [hat.body]
  cases h with
  | child hroot hpart hw => exact .inl (hw.accepts hc hat hroot hpart)
  | @value k present stands wanted =>
    cases s with
    | hole => cases present
    | expr => cases wanted
    | var tag names type? values =>
      cases stands
      obtain ⟨written, rfl, hw⟩ := Option.bind_eq_some_iff.1 wanted
      exact .inl (.initializer hat.mem_stmts present hw type.assignableTo_self)
    | assign tag targets values =>
      cases stands
      obtain ⟨goal, hg, ht⟩ := Option.bind_eq_some_iff.1 wanted
      refine .inl (.assigned hat.mem_stmts present hg ?_ type.assignableTo_self)
      refine TypeInfo.typeOf_target (fun n hn => hc.binding hat ?_) ht
      have hgoal := List.mem_of_getElem? hg
      exact List.mem_append_left _ (List.mem_flatMap.2 ⟨goal, hgoal, by simp [hn]⟩)
    | ret tag values =>
      cases stands
      have hown : f.signature.results[k]? = some (some type) := Option.join_eq_some_iff.1 wanted
      by_cases hlast : c.info.signatures[f.name]? = some f.signature
      · exact .inl (.returned hat.function hbody present hlast hown type.assignableTo_self)
      · exact .inr (.returned hat.function hbody present hown hlast)

theorem Checked.Describes.captures (hc : c.Describes p) (hat : p.At f before s after signature)
    (hroot : root ∈ s.values) {tag callee : Placed} {arg : PlacedExpr}
    (hpart : .call tag (.name callee type.name) [arg] ∈ root.parts)
    (h : ((p.scopeAt f signature before).locals type.name).isSome) :
    c.info.Captures (.call tag (.name callee type.name) [arg]) type := by
  have hknows := (hc.knows hat (Stmt.names_of_value hroot)).part hpart
  obtain ⟨type?, ht⟩ := Option.isSome_iff_exists.1 h
  refine ⟨tag, callee, arg, type?, rfl, ?_⟩
  have hname : .name callee type.name ∈ (Expr.call tag (.name callee type.name) [arg]).children :=
    List.mem_cons_self
  rw [(hknows.child hname).name, ht]

end Sites

end Recast
