import Mathlib.Data.List.Chain
import Recast.Proofs.Tree.Chain

/-!
# What stands on a path

A path to a position consists of the nodes that enclose it, all of them, and each one is a child of
the next. The search takes the first child that encloses the position and never turns back; it misses
nothing since siblings do not overlap.
-/

namespace Recast

variable {ε α : Type} [Spanned α]

namespace Expr

variable {pos : Nat} {e x : Expr ε α} {es : List (Expr ε α)}

theorem encloses_eq_contains (h : e.tag?.isSome) : e.encloses pos = e.span.contains pos := by
  cases e with
  | hole => cases h
  | _ => rfl

/-- A search among siblings goes on with one that encloses the position, or there is none. -/
theorem firstChain_cases (pos : Nat) (es : List (Expr ε α)) :
    ((∀ e ∈ es, e.encloses pos = false) ∧ firstChain pos es = []) ∨
      ∃ e ∈ es, e.encloses pos ∧ firstChain pos es = e.chain pos := by
  rw [firstChain_eq]
  cases hfind : es.find? (encloses pos) with
  | none => exact .inl ⟨fun e he => by simpa using List.find?_eq_none.1 hfind e he, rfl⟩
  | some e => exact .inr ⟨e, List.mem_of_find?_eq_some hfind, List.find?_some hfind, rfl⟩

/-- A search passes each part at most once, outer ones first. -/
theorem chain_sublist (pos : Nat) (e : Expr ε α) : (e.chain pos).Sublist e.parts := by
  induction e using inductChildren with
  | step e ih =>
    rw [chain_eq, parts_eq]
    rcases firstChain_cases pos e.children with ⟨-, hnil⟩ | ⟨c, hc, -, hchain⟩
    · rw [hnil]
      exact (List.nil_sublist _).cons_cons e
    · rw [hchain, List.flatMap_def]
      exact ((ih c hc).trans (List.sublist_flatten_of_mem (List.mem_map_of_mem hc))).cons_cons e

/-- All that a search passes encloses the position. -/
theorem encloses_of_mem_chain (he : e.encloses pos) (hx : x ∈ e.chain pos) : x.encloses pos := by
  induction e using inductChildren with
  | step e ih =>
    rw [chain_eq] at hx
    rcases List.mem_cons.1 hx with rfl | hx
    · exact he
    · rcases firstChain_cases pos e.children with ⟨-, hnil⟩ | ⟨c, hc, hpos, hchain⟩
      · rw [hnil] at hx
        cases hx
      · rw [hchain] at hx
        exact ih c hc hpos hx

/-- A search passes exactly the parts that enclose the position. -/
theorem WellPlaced.mem_chain (h : e.WellPlaced) (he : e.encloses pos) :
    x ∈ e.chain pos ↔ x ∈ e.parts ∧ x.encloses pos := by
  constructor
  · exact fun hx => ⟨(chain_sublist pos e).subset hx, encloses_of_mem_chain he hx⟩
  · rintro ⟨hp, hx⟩
    obtain ⟨-, above, hchain⟩ := h.chain_part hp hx
    rw [hchain, chain_eq pos x]
    exact List.mem_append_right _ List.mem_cons_self

/-- What holds between each part and its children holds between neighbours on the way of a
search. -/
theorem isChain_chain {R : Expr ε α → Expr ε α → Prop}
    (h : ∀ part ∈ e.parts, ∀ child ∈ part.children, R part child) : (e.chain pos).IsChain R := by
  induction e using inductChildren with
  | step e ih =>
    rw [chain_eq]
    rcases firstChain_cases pos e.children with ⟨-, hnil⟩ | ⟨c, hc, -, hchain⟩
    · rw [hnil]
      exact .singleton e
    · have hbelow := ih c hc fun part hp => h part (mem_parts_of_child hc hp)
      rw [hchain]
      rw [chain_eq] at hbelow ⊢
      exact hbelow.cons_cons (h e e.self_mem_parts c hc)

end Expr

/-! ### Programs -/

/-- How a path to a position can end: at a function, at a statement of it or within one of the
statement's expressions. -/
inductive Program.Passes (p : Program ε α) (pos : Nat) : Path ε α → Prop where
  | function {f : Function ε α} (present : f ∈ p.functions) (encloses : f.encloses pos)
      (last : ∀ s ∈ f.body, s.encloses pos = false) : Passes p pos ⟨f, none, []⟩
  | stmt {f : Function ε α} {s : Stmt ε α} (present : f ∈ p.functions) (encloses : f.encloses pos)
      (within : s ∈ f.body) (passes : s.encloses pos)
      (last : ∀ e ∈ s.children, e.encloses pos = false) : Passes p pos ⟨f, some s, []⟩
  | expr {f : Function ε α} {s : Stmt ε α} {root : Expr ε α} (present : f ∈ p.functions)
      (encloses : f.encloses pos) (within : s ∈ f.body) (passes : s.encloses pos)
      (below : root ∈ s.children) (enters : root.encloses pos) :
      Passes p pos ⟨f, some s, (root.chain pos).reverse⟩

section Programs

variable {p : Program ε α} {pos : Nat} {path : Path ε α}

theorem Program.passes_of_pathAt (h : p.pathAt pos = some path) : p.Passes pos path := by
  unfold pathAt at h
  cases hf : p.functions.find? (·.encloses pos) with
  | none =>
    rw [hf] at h
    cases h
  | some f =>
    rw [hf] at h
    obtain rfl := Option.some.inj h
    have hmem := List.mem_of_find?_eq_some hf
    have hfun := List.find?_some hf
    cases hs : f.body.find? (·.encloses pos) with
    | none => exact .function hmem hfun fun s hs' => by simpa using List.find?_eq_none.1 hs s hs'
    | some s =>
      have hbody := List.mem_of_find?_eq_some hs
      have hstmt := List.find?_some hs
      dsimp only
      rcases Expr.firstChain_cases pos s.children with ⟨hlast, hnil⟩ | ⟨root, hr, hroot, hchain⟩
      · rw [hnil]
        exact .stmt hmem hfun hbody hstmt hlast
      · rw [hchain]
        exact .expr hmem hfun hbody hstmt hr hroot

/-- There is a path to the positions within functions only. -/
theorem Program.pathAt_eq_none :
    p.pathAt pos = none ↔ ∀ f ∈ p.functions, f.encloses pos = false := by
  unfold pathAt
  cases hf : p.functions.find? (·.encloses pos) with
  | none => simpa using hf
  | some f =>
    refine iff_of_false (Option.some_ne_none _) fun h => ?_
    exact Bool.false_ne_true ((h f (List.mem_of_find?_eq_some hf)).symm.trans (List.find?_some hf))

end Programs

end Recast
