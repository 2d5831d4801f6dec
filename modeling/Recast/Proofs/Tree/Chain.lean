import Recast.Path
import Recast.Proofs.Tree.Placement

/-!
# The path to a node

In a tree that is placed as it was read, a search for the position at which a node starts passes
through that node: siblings do not overlap, so at each level it takes the one child that encloses the
position. Below the node it follows first children as long as they start where the node starts.
-/

namespace Recast

variable {ε α β : Type} [Spanned α]

/-- Of items that exclude each other, a search finds the one that it is for. -/
theorem find?_of_pairwise {R : β → β → Prop} {p : β → Bool} {xs : List β} (h : xs.Pairwise R)
    (apart : ∀ a ∈ xs, ∀ b, R a b → p b → p a = false) {x : β} (hx : x ∈ xs) (hp : p x) :
    xs.find? p = some x := by
  induction xs with
  | nil => cases hx
  | cons y ys ih =>
    obtain ⟨hy, hys⟩ := List.pairwise_cons.1 h
    rcases List.mem_cons.1 hx with rfl | hx
    · exact List.find?_cons_of_pos hp
    · rw [List.find?_cons_of_neg (by simp [apart y List.mem_cons_self x (hy x hx) hp])]
      exact ih hys (fun a ha => apart a (List.mem_cons_of_mem _ ha)) hx

namespace Expr

variable {pos : Nat} {e part child : Expr ε α}

theorem Sits.encloses_iff (h : e.Sits) : e.encloses pos ↔ e.span.start ≤ pos ∧ pos < e.span.stop := by
  cases e with
  | hole => exact absurd h.nonempty (Nat.lt_irrefl _)
  | _ => exact Span.contains_iff

theorem Sits.encloses_start (h : e.Sits) : e.encloses e.span.start :=
  h.encloses_iff.2 ⟨Nat.le_refl _, h.nonempty⟩

theorem Sits.encloses_of_child (h : e.Sits) (hc : child ∈ e.children) (hs : child.Sits)
    (hp : child.encloses pos) : e.encloses pos := by
  obtain ⟨hl, hr⟩ := hs.encloses_iff.1 hp
  obtain ⟨hl', hr'⟩ := h.inside child hc
  exact h.encloses_iff.2 ⟨Nat.le_trans hl' hl, Nat.lt_of_lt_of_le hr hr'⟩

theorem firstChain_eq (pos : Nat) (es : List (Expr ε α)) : firstChain pos es =
    match es.find? (encloses pos) with
    | some e => e.chain pos
    | none => [] := by
  induction es with
  | nil => rfl
  | cons e es ih =>
    rw [firstChain, List.find?_cons]
    cases e.encloses pos with
    | true => rfl
    | false => exact ih

/-- All forms of expressions search their children from left to right. -/
theorem chain_eq (pos : Nat) (e : Expr ε α) : e.chain pos = e :: firstChain pos e.children := by
  cases e with
  | binary _ _ left right =>
    rw [chain, children, firstChain, firstChain, firstChain]
  | _ => rfl

/-- Of siblings, the one that encloses the position is searched. -/
theorem firstChain_of_mem {es : List (Expr ε α)} (hs : ∀ e ∈ es, e.Sits)
    (apart : es.Pairwise fun a b => a.span.stop ≤ b.span.start) (he : e ∈ es)
    (hp : e.encloses pos) : firstChain pos es = e.chain pos := by
  have hfind : es.find? (encloses pos) = some e := by
    refine find?_of_pairwise (List.Pairwise.and_mem.1 apart) (fun a _ b hab hb => ?_) he hp
    obtain ⟨ha, hb', hab⟩ := hab
    rw [Bool.eq_false_iff]
    intro ha'
    have := (hs a ha).encloses_iff.1 ha'
    have := (hs b hb').encloses_iff.1 hb
    omega
  rw [firstChain_eq, hfind]

/-- Where no sibling encloses the position, the search ends. -/
theorem firstChain_eq_nil {es : List (Expr ε α)} (h : ∀ e ∈ es, e.encloses pos = false) :
    firstChain pos es = [] := by
  rw [firstChain_eq, List.find?_eq_none.2 fun e he => by simp [h e he]]

/-- A search for a position passes through every part that encloses it. -/
theorem WellPlaced.chain_part (h : e.WellPlaced) (hp : part ∈ e.parts) (hpos : part.encloses pos) :
    e.encloses pos ∧ ∃ above, e.chain pos = above ++ part.chain pos := by
  induction e using inductChildren with
  | step e ih =>
    rcases mem_parts.1 hp with rfl | ⟨child, hc, hp⟩
    · exact ⟨hpos, [], rfl⟩
    · have hchildren := (wellPlaced_iff.1 h).2
      obtain ⟨hin, above, he⟩ := ih child hc (hchildren child hc) hp
      refine ⟨h.sits.encloses_of_child hc (hchildren child hc).sits hin, e :: above, ?_⟩
      rw [chain_eq, firstChain_of_mem (fun a ha => (hchildren a ha).sits) h.sits.apart hc hin, he]
      rfl

/-! ### Below a node -/

/-- The first child of an operation or of a call, which starts where that starts. -/
def lead? : Expr ε α → Option (Expr ε α)
  | binary _ _ left _ => some left
  | call _ callee _ => some callee
  | _ => none

omit [Spanned α] in
theorem lead?_mem {lead : Expr ε α} (h : e.lead? = some lead) : lead ∈ e.children := by
  cases e <;> cases h <;> simp [children]

/-- A search for the start of an expression goes on with its first child only. -/
theorem WellPlaced.chain_start (h : e.WellPlaced) :
    e.chain e.span.start = e :: (match e.lead? with
      | some lead => lead.chain lead.span.start
      | none => []) := by
  have hl := h.sits.leads
  have follow {lead : Expr ε α} (hlead : e.lead? = some lead)
      (hstart : lead.span.start = e.span.start) :
      firstChain e.span.start e.children = lead.chain lead.span.start := by
    have hc := lead?_mem hlead
    have hchildren := (wellPlaced_iff.1 h).2
    rw [hstart, firstChain_of_mem (fun a ha => (hchildren a ha).sits) h.sits.apart hc]
    rw [← hstart]
    exact (hchildren lead hc).sits.encloses_start
  have stops {inner : Expr ε α} (hc : inner ∈ e.children) (hin : e.span.start < inner.span.start) :
      inner.encloses e.span.start = false := by
    rw [Bool.eq_false_iff]
    intro he
    have := ((wellPlaced_iff.1 h).2 inner hc).sits.encloses_iff.1 he
    omega
  rw [chain_eq]
  congr 1
  cases e with
  | hole | literal | name => rfl
  | paren _ inner =>
    exact firstChain_eq_nil (List.forall_mem_singleton.2 (stops (by simp [children]) hl))
  | neg _ operand =>
    exact firstChain_eq_nil (List.forall_mem_singleton.2 (stops (by simp [children]) hl))
  | binary => exact follow rfl hl
  | call => exact follow rfl hl

/-- All expressions on the way from an expression to its start begin there. -/
theorem WellPlaced.start_of_mem_chain (h : e.WellPlaced) :
    ∀ x ∈ e.chain e.span.start, x ∈ e.parts ∧ x.span.start = e.span.start := by
  induction e using inductChildren with
  | step e ih =>
    intro x hx
    rw [h.chain_start] at hx
    rcases List.mem_cons.1 hx with rfl | hx
    · exact ⟨self_mem_parts x, rfl⟩
    · cases hl : e.lead? with
      | none => rw [hl] at hx; cases hx
      | some lead =>
        rw [hl] at hx
        have hc := lead?_mem hl
        obtain ⟨hp, hs⟩ := ih lead hc ((wellPlaced_iff.1 h).2 lead hc) x hx
        refine ⟨mem_parts_of_child hc hp, hs.trans ?_⟩
        have := h.sits.leads
        cases e <;> cases hl <;> exact this

end Expr

/-! ### Pairs of nodes on a path -/

/-- Each item of a list with the one before it, last ones first. -/
def outward (xs : List β) : List (β × β) := xs.reverse.zip xs.reverse.tail

@[simp] theorem outward_singleton (x : β) : outward [x] = [] := rfl

/-- The last pair of a list is the first of the outward walk, and the walk ends with the pair of the
first two. -/
theorem outward_append_cons (above : List β) (x y : β) (below : List β) :
    outward (above ++ x :: y :: below)
      = outward (y :: below) ++ (y, x) :: (x :: above.reverse).zip above.reverse := by
  obtain ⟨ys, hys⟩ : ∃ ys, (y :: below).reverse = ys ++ [y] :=
    ⟨below.reverse, List.reverse_cons⟩
  have hzip : ∀ (ys us : List β), (ys ++ y :: x :: us).zip (ys ++ y :: x :: us).tail
      = (ys ++ [y]).zip (ys ++ [y]).tail ++ (y, x) :: (x :: us).zip us := by
    intro ys us
    induction ys with
    | nil => rfl
    | cons z ys ih =>
      cases ys with
      | nil => rfl
      | cons w ys => simpa using ih
  have hrev : (above ++ x :: y :: below).reverse = ys ++ y :: x :: above.reverse := by
    rw [List.reverse_append, List.reverse_cons, hys]
    simp
  rw [outward, outward, hrev, hys, hzip]

theorem outward_cons_cons (x y : β) (below : List β) :
    outward (x :: y :: below) = outward (y :: below) ++ [(y, x)] :=
  outward_append_cons [] x y below

/-- A walk outward stops at the first pair that is looked for. -/
theorem findSome?_outward {γ : Type} {f : β × β → Option γ} {above : List β} {x y : β}
    {below : List β} {c : γ} (none_below : ∀ pair ∈ outward (y :: below), f pair = none)
    (hit : f (y, x) = some c) : (outward (above ++ x :: y :: below)).findSome? f = some c := by
  rw [outward_append_cons, List.findSome?_append, List.findSome?_eq_none_iff.2 none_below, List.findSome?_cons, hit]
  rfl

namespace Expr

variable {e : Expr ε α}

/-- On the way to its start, an expression is followed by its first child. -/
theorem WellPlaced.lead_of_mem_outward (h : e.WellPlaced) :
    ∀ pair ∈ outward (e.chain e.span.start), pair.2 ∈ e.parts ∧ pair.2.lead? = some pair.1 := by
  induction e using inductChildren with
  | step e ih =>
    intro pair hp
    rw [h.chain_start] at hp
    cases hl : e.lead? with
    | none => rw [hl] at hp; cases hp
    | some lead =>
      simp only [hl] at hp
      have hc := lead?_mem hl
      have hw := (wellPlaced_iff.1 h).2 lead hc
      obtain ⟨rest, hrest⟩ : ∃ rest, lead.chain lead.span.start = lead :: rest :=
        ⟨_, chain_eq _ lead⟩
      rw [hrest, outward_cons_cons] at hp
      rcases List.mem_append.1 hp with hp | hp
      · rw [← hrest] at hp
        obtain ⟨hm, hlead⟩ := ih lead hc hw pair hp
        exact ⟨mem_parts_of_child hc hm, hlead⟩
      · obtain rfl := List.mem_singleton.1 hp
        exact ⟨self_mem_parts e, hl⟩

end Expr

/-! ### Programs -/

section Programs

variable {p : Program ε α} {f : Function ε α} {s : Stmt ε α} {root part : Expr ε α} {pos : Nat}

theorem Stmt.WellPlaced.encloses_iff (h : s.WellPlaced) :
    s.encloses pos ↔ s.span.start ≤ pos ∧ pos < s.span.stop := by
  cases s with
  | hole => exact absurd h.nonempty (Nat.lt_irrefl _)
  | _ => exact Span.contains_iff

theorem Program.WellPlaced.find?_function (h : p.WellPlaced) (hf : f ∈ p.functions)
    (hpos : f.encloses pos) : p.functions.find? (·.encloses pos) = some f := by
  refine find?_of_pairwise h.apart (fun a _ b hab hb => ?_) hf hpos
  rw [Bool.eq_false_iff]
  intro ha
  have := Span.contains_iff.1 ha
  have := Span.contains_iff.1 hb
  omega

theorem Function.WellPlaced.find?_stmt (h : f.WellPlaced) (hs : s ∈ f.body)
    (hpos : s.encloses pos) : f.body.find? (·.encloses pos) = some s := by
  refine find?_of_pairwise (List.Pairwise.and_mem.1 h.apart) (fun a _ b hab hb => ?_) hs hpos
  obtain ⟨ha, hb', hab⟩ := hab
  rw [Bool.eq_false_iff]
  intro ha'
  have := (h.body a ha).encloses_iff.1 ha'
  have := (h.body b hb').encloses_iff.1 hb
  omega

theorem Function.WellPlaced.encloses_of_stmt (h : f.WellPlaced) (hs : s ∈ f.body)
    (hpos : s.encloses pos) : f.encloses pos := by
  obtain ⟨hl, hu⟩ := (h.body s hs).encloses_iff.1 hpos
  obtain ⟨hl', hu'⟩ := h.inside s hs
  exact Span.contains_iff.2 ⟨Nat.le_trans hl' hl, Nat.lt_of_lt_of_le hu hu'⟩

theorem Stmt.WellPlaced.encloses_of_child (h : s.WellPlaced) (hr : root ∈ s.children)
    (hpos : root.encloses pos) : s.encloses pos := by
  obtain ⟨hl, hu⟩ := (h.children root hr).sits.encloses_iff.1 hpos
  obtain ⟨hl', hu'⟩ := h.inside root hr
  exact h.encloses_iff.2 ⟨Nat.le_trans hl' hl, Nat.lt_of_lt_of_le hu hu'⟩

/-- The path to a position within an expression leads through its function, its statement and all
that encloses it. -/
theorem Program.WellPlaced.pathAt_part (h : p.WellPlaced) (hf : f ∈ p.functions)
    (hs : s ∈ f.body) (hr : root ∈ s.children) (hp : part ∈ root.parts)
    (hpos : part.encloses pos) :
    p.pathAt pos = some ⟨f, some s, (root.chain pos).reverse⟩ := by
  have hwf := h.functions f hf
  have hws := hwf.body s hs
  have hroot := ((hws.children root hr).chain_part hp hpos).1
  have hstmt := hws.encloses_of_child hr hroot
  rw [pathAt, h.find?_function hf (hwf.encloses_of_stmt hs hstmt)]
  dsimp only
  rw [hwf.find?_stmt hs hstmt]
  dsimp only
  rw [Expr.firstChain_of_mem (fun e he => (hws.children e he).sits) hws.apart hr hroot]

/-- The path to the start of an expression leads through its function, its statement and all that
encloses it. -/
theorem Program.WellPlaced.pathAt_start (h : p.WellPlaced) (hf : f ∈ p.functions)
    (hs : s ∈ f.body) (hr : root ∈ s.children) (hp : part ∈ root.parts) :
    p.pathAt part.span.start = some ⟨f, some s, (root.chain part.span.start).reverse⟩ :=
  h.pathAt_part hf hs hr hp
    ((((h.functions f hf).body s hs).children root hr).part hp).sits.encloses_start

/-- Nothing on the path to the start of an expression starts after it. -/
theorem Expr.WellPlaced.getLast?_chain (h : root.WellPlaced) (hp : part ∈ root.parts) :
    ∃ e, (root.chain part.span.start).getLast? = some e ∧ e.span.start = part.span.start := by
  have hwp := h.part hp
  obtain ⟨-, above, hchain⟩ := h.chain_part hp hwp.sits.encloses_start
  obtain ⟨rest, hrest⟩ : ∃ rest, part.chain part.span.start = part :: rest := ⟨_, chain_eq _ part⟩
  obtain ⟨e, he⟩ : ∃ e, (part :: rest).getLast? = some e :=
    ⟨_, List.getLast?_eq_some_getLast (List.cons_ne_nil part rest)⟩
  refine ⟨e, by rw [hchain, hrest, List.getLast?_append, he]; rfl, ?_⟩
  exact (hwp.start_of_mem_chain e (hrest ▸ List.mem_of_getLast? he)).2

end Programs

end Recast
