import Recast.Proofs.Printing.RoundTrip
import Recast.Proofs.Repair.Pass

/-!
# Repaired programs are read back

A conversion is a call of a name, which binds as tightly as anything, so a printable program stays
printable when conversions are put around its expressions.
-/

namespace Recast

/-! ### Printable programs with conversions -/

/-- The name of a type that can be written is a name. -/
theorem BasicType.isName_name {t : BasicType} (h : t.isUntyped = false) : IsName t.name := by
  cases t <;> first | exact Bool.noConfusion h | exact ⟨_, _, rfl, rfl⟩

section

variable {W : Insertions BasicType} {p : PlacedProgram}

theorem Insertion.printable_around {i : Insertion BasicType} {e : PlacedExpr}
    (hi : i.type.isUntyped = false) (he : e.Printable 0) (m : Nat) : (i.around e).Printable m :=
  ⟨BasicType.isName_name hi, (by decide : 1 ≤ maxItems), he, trivial⟩

theorem Expr.Printable.wrap {e : PlacedExpr} (hW : W.Written e.parts) {m : Nat}
    (h : e.Printable m) : (e.wrap W).Printable m := by
  induction e using Expr.inductChildren generalizing m with
  | step e ih =>
    have hchild {child : PlacedExpr} (hc : child ∈ e.children) {m : Nat} (h : child.Printable m) :
        (child.wrap W).Printable m :=
      ih child hc (fun part hp => hW part (Expr.mem_parts_of_child hc hp)) h
    have hbelow {m : Nat} (h : e.Printable m) : (e.wrapBelow W).Printable m := by
      cases e with
      | hole | literal | name => exact h
      | paren => exact hchild (by simp [Expr.children]) h
      | neg => exact ⟨h.1, hchild (by simp [Expr.children]) h.2⟩
      | binary =>
        exact ⟨h.1, hchild (by simp [Expr.children]) h.2.1, hchild (by simp [Expr.children]) h.2.2⟩
      | call tag callee args =>
        obtain ⟨hcallee, hlength, hargs⟩ := h
        rw [allPrintable_iff] at hargs
        rw [Expr.wrapBelow, Expr.wrapAll_eq]
        refine ⟨hchild List.mem_cons_self hcallee, by rwa [List.length_map], ?_⟩
        rw [allPrintable_iff, List.forall_mem_map]
        exact fun arg ha => hchild (List.mem_cons_of_mem _ ha) (hargs arg ha)
    cases hi : W e.ref with
    | none =>
      rw [Expr.wrap_of_none hi]
      exact hbelow h
    | some i =>
      rw [Expr.wrap_of_some hi]
      exact Insertion.printable_around (hW e e.self_mem_parts i hi) (hbelow (h.mono (Nat.zero_le m))) m

theorem PrintableList.wrap {es : List PlacedExpr} (hW : W.Written (es.flatMap Expr.parts))
    (h : PrintableList es) : PrintableList (es.map (Expr.wrap W)) where
  length := by
    rw [List.length_map]
    exact h.length
  printable := List.forall_mem_map.2 fun e he =>
    (h.printable e he).wrap fun part hp => hW part (List.mem_flatMap.2 ⟨e, he, hp⟩)

theorem Stmt.Printable.wrap {s : PlacedStmt} (hW : W.Written (s.children.flatMap Expr.parts))
    (h : s.Printable) : (s.wrap W).Printable := by
  cases s with
  | hole => exact h
  | var tag names type? values =>
    obtain ⟨hnames, htype, hne, hvalues⟩ := h
    exact ⟨hnames, htype, fun ht => by simpa using hne ht, hvalues.wrap hW⟩
  | assign tag targets values =>
    rw [Stmt.children, List.flatMap_append] at hW
    obtain ⟨⟨htne, htargets⟩, hvne, hvalues⟩ := h
    exact ⟨⟨by simpa using htne, htargets.wrap fun e he => hW e (List.mem_append_left _ he)⟩,
      by simpa using hvne, hvalues.wrap fun e he => hW e (List.mem_append_right _ he)⟩
  | ret tag values => exact PrintableList.wrap hW h
  | expr tag e =>
    exact Expr.Printable.wrap (fun part hp => hW part (by simpa [Stmt.children] using hp)) h

theorem Program.Printable.wrap (hW : W.Written p.parts) (h : p.Printable) : (p.wrap W).Printable where
  functions := List.forall_mem_map.2 fun f hf => by
    have hp := h.functions f hf
    refine ⟨hp.name, hp.params, hp.results, ?_, List.forall_mem_map.2 fun s hs => ?_⟩
    · show (f.body.map _).length ≤ _
      rw [List.length_map]
      exact hp.body.1
    · refine (hp.body.2 s hs).wrap fun e he => hW e ?_
      obtain ⟨root, hr, he⟩ := List.mem_flatMap.1 he
      exact List.mem_flatMap.2 ⟨root, List.mem_flatMap.2 ⟨s, List.mem_flatMap.2 ⟨f, hf, hs⟩, hr⟩, he⟩
  comments := h.comments

end

/-- A program is printable after a pass of repairs if it was before. -/
theorem Pass.printable {info : TypeInfo} {p : PlacedProgram} {base : Nat} {done : List Remark}
    {t : Store} {W : Insertions BasicType} (h : Pass info p base done t W) (hp : p.Printable) :
    t.program.Printable := by
  rw [h.represents.program]
  exact hp.wrap h.sound.written

/-! ### Round trips -/

end Recast
