import Recast.Proofs.Tree.Basic

/-!
# Placement

How the spans of a tree lie in each other when the tree was read from a text: children lie inside
their parents and one after the other, and an operator expression or a call starts where its first
child starts.
-/

namespace Recast

variable {ε α : Type} [Spanned α]

/-- One span lies inside another. -/
structure Span.Inside (s t : Span) : Prop where
  start : t.start ≤ s.start
  stop : s.stop ≤ t.stop

theorem Span.Inside.trans {s t u : Span} (h : s.Inside t) (h' : t.Inside u) : s.Inside u :=
  ⟨Nat.le_trans h'.start h.start, Nat.le_trans h.stop h'.stop⟩

/-- Where the first child of an expression starts: an operation and a call start with it, while a
parenthesis or a minus sign stands before it. -/
def Expr.Leads : Expr ε α → Prop
  | hole _ | literal .. | name .. => True
  | paren tag inner => (Spanned.span tag).start < inner.span.start
  | neg tag operand => (Spanned.span tag).start < operand.span.start
  | binary tag _ left _ => left.span.start = (Spanned.span tag).start
  | call tag callee _ => callee.span.start = (Spanned.span tag).start

/-- An expression lies in the source text as its form demands. -/
structure Expr.Sits (e : Expr ε α) : Prop where
  nonempty : e.span.start < e.span.stop
  inside : ∀ child ∈ e.children, child.span.Inside e.span
  apart : e.children.Pairwise fun a b => a.span.stop ≤ b.span.start
  leads : e.Leads

/-- All parts of an expression lie as their forms demand. -/
def Expr.WellPlaced (e : Expr ε α) : Prop := ∀ part ∈ e.parts, part.Sits

/-- A statement and its expressions lie as they should. -/
structure Stmt.WellPlaced (s : Stmt ε α) : Prop where
  nonempty : s.span.start < s.span.stop
  inside : ∀ child ∈ s.children, child.span.Inside s.span
  apart : s.children.Pairwise fun a b => a.span.stop ≤ b.span.start
  children : ∀ child ∈ s.children, child.WellPlaced

/-- A function and its statements lie as they should. -/
structure Function.WellPlaced (f : Function ε α) : Prop where
  nonempty : f.span.start < f.span.stop
  inside : ∀ s ∈ f.body, s.span.Inside f.span
  apart : f.body.Pairwise fun a b => a.span.stop ≤ b.span.start
  body : ∀ s ∈ f.body, s.WellPlaced

/-- The functions of a program lie as they should. -/
structure Program.WellPlaced (p : Program ε α) : Prop where
  apart : p.functions.Pairwise fun a b => a.span.stop ≤ b.span.start
  functions : ∀ f ∈ p.functions, f.WellPlaced

namespace Expr

theorem WellPlaced.sits {e : Expr ε α} (h : e.WellPlaced) : e.Sits := h e (self_mem_parts e)

theorem WellPlaced.part {e part : Expr ε α} (h : e.WellPlaced) (hp : part ∈ e.parts) :
    part.WellPlaced :=
  fun _ hq => h _ (mem_parts_trans hq hp)

theorem wellPlaced_iff {e : Expr ε α} :
    e.WellPlaced ↔ e.Sits ∧ ∀ child ∈ e.children, child.WellPlaced := by
  constructor
  · exact fun h => ⟨h.sits, fun c hc => h.part (mem_parts_of_child hc c.self_mem_parts)⟩
  · rintro ⟨hs, hc⟩ part hp
    rcases mem_parts.1 hp with rfl | ⟨child, hchild, hp⟩
    · exact hs
    · exact hc child hchild part hp

/-- Parts of an expression lie inside it. -/
theorem WellPlaced.inside {e part : Expr ε α} (h : e.WellPlaced) (hp : part ∈ e.parts) :
    part.span.Inside e.span := by
  have hinside : part.WellPlaced ∧ part.span.Inside e.span := by
    refine forall_parts (P := fun e' => e'.WellPlaced ∧ e'.span.Inside e.span) ?_
      ⟨h, Nat.le_refl _, Nat.le_refl _⟩ hp
    exact fun e' he child hc =>
      ⟨(wellPlaced_iff.1 he.1).2 child hc, (he.1.sits.inside child hc).trans he.2⟩
  exact hinside.2

/-! ### Other tags -/

variable {β : Type} [Spanned β] {f : α → β}

theorem leads_retag (hf : ∀ tag, Spanned.span (f tag) = Spanned.span tag) {e : Expr ε α} :
    (e.retag f).Leads ↔ e.Leads := by
  cases e <;> simp [retag, Leads, span_retag hf, hf]

theorem sits_retag (hf : ∀ tag, Spanned.span (f tag) = Spanned.span tag) {e : Expr ε α} :
    (e.retag f).Sits ↔ e.Sits := by
  constructor
  · rintro ⟨hn, hi, ha, hl⟩
    exact ⟨by simpa [span_retag hf] using hn,
      by simpa [children_retag, span_retag hf] using hi,
      by simpa [children_retag, span_retag hf, List.pairwise_map] using ha, (leads_retag hf).1 hl⟩
  · rintro ⟨hn, hi, ha, hl⟩
    exact ⟨by simpa [span_retag hf] using hn,
      by simpa [children_retag, span_retag hf] using hi,
      by simpa [children_retag, span_retag hf, List.pairwise_map] using ha, (leads_retag hf).2 hl⟩

theorem wellPlaced_retag (hf : ∀ tag, Spanned.span (f tag) = Spanned.span tag) {e : Expr ε α} :
    (e.retag f).WellPlaced ↔ e.WellPlaced := by
  simp [WellPlaced, parts_retag, sits_retag hf]

end Expr

variable {β : Type} [Spanned β]

theorem Stmt.wellPlaced_retag {f : α → β} (hf : ∀ tag, Spanned.span (f tag) = Spanned.span tag)
    {s : Stmt ε α} : (s.retag f).WellPlaced ↔ s.WellPlaced := by
  constructor
  · rintro ⟨hn, hi, ha, hc⟩
    exact ⟨by simpa [span_retag hf] using hn,
      by simpa [children_retag, span_retag hf, Expr.span_retag hf] using hi,
      by simpa [children_retag, Expr.span_retag hf, List.pairwise_map] using ha,
      by simpa [children_retag, Expr.wellPlaced_retag hf] using hc⟩
  · rintro ⟨hn, hi, ha, hc⟩
    exact ⟨by simpa [span_retag hf] using hn,
      by simpa [children_retag, span_retag hf, Expr.span_retag hf] using hi,
      by simpa [children_retag, Expr.span_retag hf, List.pairwise_map] using ha,
      by simpa [children_retag, Expr.wellPlaced_retag hf] using hc⟩

theorem Function.span_retag {g : α → β} (hg : ∀ tag, Spanned.span (g tag) = Spanned.span tag)
    (f : Function ε α) : (f.retag g).span = f.span := hg f.tag

theorem Function.wellPlaced_retag {g : α → β}
    (hg : ∀ tag, Spanned.span (g tag) = Spanned.span tag) {f : Function ε α} :
    (f.retag g).WellPlaced ↔ f.WellPlaced := by
  have hbody : (f.retag g).body = f.body.map (Stmt.retag g) := rfl
  constructor
  · rintro ⟨hn, hi, ha, hb⟩
    exact ⟨by simpa [span_retag hg] using hn,
      by simpa [hbody, span_retag hg, Stmt.span_retag hg] using hi,
      by simpa [hbody, Stmt.span_retag hg, List.pairwise_map] using ha,
      by simpa [hbody, Stmt.wellPlaced_retag hg] using hb⟩
  · rintro ⟨hn, hi, ha, hb⟩
    exact ⟨by simpa [span_retag hg] using hn,
      by simpa [hbody, span_retag hg, Stmt.span_retag hg] using hi,
      by simpa [hbody, Stmt.span_retag hg, List.pairwise_map] using ha,
      by simpa [hbody, Stmt.wellPlaced_retag hg] using hb⟩

end Recast
