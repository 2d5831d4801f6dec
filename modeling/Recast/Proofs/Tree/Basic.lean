import Recast.Tree.Text

/-!
# Parts and tags of trees

Induction over expressions, their parts, and the trees that are left when tags are replaced or
dropped. Two trees have the same bare tree when they differ in ids and places only; the texts of
such trees are the same.
-/

namespace Recast

variable {ε α β : Type}

namespace Expr

/-- Induction over expressions, with one hypothesis for all arguments of a call. -/
@[elab_as_elim, induction_eliminator]
theorem inductArgs {motive : Expr ε α → Prop}
    (hole : ∀ label, motive (.hole label))
    (literal : ∀ tag kind lexeme, motive (.literal tag kind lexeme))
    (name : ∀ tag text, motive (.name tag text))
    (paren : ∀ tag inner, motive inner → motive (.paren tag inner))
    (neg : ∀ tag operand, motive operand → motive (.neg tag operand))
    (binary : ∀ tag op left right, motive left → motive right →
      motive (.binary tag op left right))
    (call : ∀ tag callee args, motive callee → (∀ arg ∈ args, motive arg) →
      motive (.call tag callee args)) (e : Expr ε α) : motive e :=
  @Expr.rec ε α motive (fun es => ∀ e ∈ es, motive e) hole literal name paren neg binary call
    (fun _ h => nomatch h)
    (fun _ _ he hes _ h => (List.mem_cons.1 h).elim (fun e => e ▸ he) (hes _)) e

/-- Induction over expressions in which all forms are alike. -/
theorem inductChildren {motive : Expr ε α → Prop}
    (step : ∀ e, (∀ child ∈ e.children, motive child) → motive e) (e : Expr ε α) : motive e := by
  induction e with
  | hole | literal | name => exact step _ fun _ h => nomatch h
  | paren _ _ ih => exact step _ (by simpa [children] using ih)
  | neg _ _ ih => exact step _ (by simpa [children] using ih)
  | binary _ _ _ _ ihl ihr => exact step _ (by simpa [children] using ⟨ihl, ihr⟩)
  | call _ _ _ ihc iha => exact step _ (by simpa [children] using ⟨ihc, iha⟩)

/-! ### Parts -/

mutual

/-- An expression and all that it is made of, an expression before its parts. -/
def parts : Expr ε α → List (Expr ε α)
  | hole label => [hole label]
  | literal tag kind lexeme => [literal tag kind lexeme]
  | name tag text => [name tag text]
  | paren tag inner => paren tag inner :: inner.parts
  | neg tag operand => neg tag operand :: operand.parts
  | binary tag op left right => binary tag op left right :: (left.parts ++ right.parts)
  | call tag callee args => call tag callee args :: (callee.parts ++ partsAll args)

/-- The parts of several expressions. -/
def partsAll : List (Expr ε α) → List (Expr ε α)
  | [] => []
  | e :: es => e.parts ++ partsAll es

end

@[simp] theorem partsAll_eq (es : List (Expr ε α)) : partsAll es = es.flatMap parts := by
  induction es with
  | nil => rfl
  | cons e es ih => rw [partsAll, ih, List.flatMap_cons]

/-- The parts are the expression itself and the parts of its children. -/
theorem parts_eq (e : Expr ε α) : e.parts = e :: e.children.flatMap parts := by
  cases e <;> simp [parts, children]

theorem self_mem_parts (e : Expr ε α) : e ∈ e.parts := by
  simp [parts_eq e]

theorem mem_parts {e part : Expr ε α} :
    part ∈ e.parts ↔ part = e ∨ ∃ child ∈ e.children, part ∈ child.parts := by
  rw [parts_eq e, List.mem_cons, List.mem_flatMap]

/-- What passes from an expression to its children passes to all its parts. -/
theorem forall_parts {P : Expr ε α → Prop}
    (pass : ∀ e, P e → ∀ child ∈ e.children, P child) {e part : Expr ε α} (h : P e)
    (hp : part ∈ e.parts) : P part := by
  induction e using inductChildren with
  | step e ih =>
    rcases mem_parts.1 hp with rfl | ⟨child, hc, hp⟩
    · exact h
    · exact ih child hc (pass e h child hc) hp

theorem mem_parts_trans {a b c : Expr ε α} (hab : a ∈ b.parts) (hbc : b ∈ c.parts) :
    a ∈ c.parts := by
  induction c using inductChildren with
  | step c ih =>
    rcases mem_parts.1 hbc with rfl | ⟨child, hc, hb⟩
    · exact hab
    · exact mem_parts.2 (.inr ⟨child, hc, ih child hc hb⟩)

theorem mem_parts_of_child {e child part : Expr ε α} (hc : child ∈ e.children)
    (hp : part ∈ child.parts) : part ∈ e.parts :=
  mem_parts.2 (.inr ⟨child, hc, hp⟩)

theorem child_mem_parts {root e child : Expr ε α} (he : e ∈ root.parts) (hc : child ∈ e.children) :
    child ∈ root.parts :=
  mem_parts_trans (mem_parts_of_child hc child.self_mem_parts) he

/-! ### The order in which expressions are numbered -/

mutual

/-- An expression and all that it is made of, an expression after its parts. -/
def postorder : Expr ε α → List (Expr ε α)
  | hole label => [hole label]
  | literal tag kind lexeme => [literal tag kind lexeme]
  | name tag text => [name tag text]
  | paren tag inner => inner.postorder ++ [paren tag inner]
  | neg tag operand => operand.postorder ++ [neg tag operand]
  | binary tag op left right => left.postorder ++ right.postorder ++ [binary tag op left right]
  | call tag callee args => callee.postorder ++ postorderAll args ++ [call tag callee args]

/-- The parts of several expressions, each one after its parts. -/
def postorderAll : List (Expr ε α) → List (Expr ε α)
  | [] => []
  | e :: es => e.postorder ++ postorderAll es

end

@[simp] theorem postorderAll_eq (es : List (Expr ε α)) :
    postorderAll es = es.flatMap postorder := by
  induction es with
  | nil => rfl
  | cons e es ih => rw [postorderAll, ih, List.flatMap_cons]

theorem postorder_eq (e : Expr ε α) : e.postorder = e.children.flatMap postorder ++ [e] := by
  cases e <;> simp [postorder, children]

theorem flatMap_postorder_perm {es : List (Expr ε α)}
    (h : ∀ e ∈ es, e.postorder.Perm e.parts) :
    (es.flatMap postorder).Perm (es.flatMap parts) := by
  induction es with
  | nil => exact .refl _
  | cons e es ih =>
    rw [List.flatMap_cons, List.flatMap_cons]
    exact (h e List.mem_cons_self).append (ih fun e he => h e (List.mem_cons_of_mem _ he))

theorem postorder_perm (e : Expr ε α) : e.postorder.Perm e.parts := by
  induction e using inductChildren with
  | step e ih =>
    rw [postorder_eq, parts_eq]
    exact (List.perm_append_singleton _ _).trans (.cons e (flatMap_postorder_perm ih))

/-! ### Other tags -/

mutual

/-- The expression with other tags, and with holes that have no label. -/
def retag (f : α → β) : Expr ε α → Expr Unit β
  | hole _ => .hole ()
  | literal tag kind lexeme => .literal (f tag) kind lexeme
  | name tag text => .name (f tag) text
  | paren tag inner => .paren (f tag) (inner.retag f)
  | neg tag operand => .neg (f tag) (operand.retag f)
  | binary tag op left right => .binary (f tag) op (left.retag f) (right.retag f)
  | call tag callee args => .call (f tag) (callee.retag f) (retagAll f args)

/-- Expressions with other tags. -/
def retagAll (f : α → β) : List (Expr ε α) → List (Expr Unit β)
  | [] => []
  | e :: es => e.retag f :: retagAll f es

end

@[simp] theorem retagAll_eq (f : α → β) (es : List (Expr ε α)) :
    retagAll f es = es.map (retag f) := by
  induction es with
  | nil => rfl
  | cons e es ih => rw [retagAll, ih, List.map_cons]

@[simp] theorem retag_retag {γ : Type} (f : α → β) (g : β → γ) (e : Expr ε α) :
    (e.retag f).retag g = e.retag fun tag => g (f tag) := by
  induction e with
  | hole | literal | name => rfl
  | paren _ _ ih => rw [retag, retag, retag, ih]
  | neg _ _ ih => rw [retag, retag, retag, ih]
  | binary _ _ _ _ ihl ihr => rw [retag, retag, retag, ihl, ihr]
  | call _ _ _ ihc iha =>
    rw [retag, retag, retag, ihc]
    simpa using iha

theorem listText_retag {f : α → β} {es : List (Expr ε α)}
    (h : ∀ e ∈ es, (e.retag f).text = e.text) : ∀ written separator,
      listText written separator (es.map (retag f)) = listText written separator es := by
  induction es with
  | nil => exact fun _ _ => rfl
  | cons e es ih =>
    intro written separator
    rw [List.map_cons, listText, listText, h e (by simp), ih fun e he => h e (by simp [he])]

/-- Tags do not show in the text. -/
@[simp] theorem text_retag (f : α → β) (e : Expr ε α) : (e.retag f).text = e.text := by
  induction e with
  | hole | literal | name => rfl
  | paren _ _ ih => rw [retag, text, text, ih]
  | neg _ _ ih => rw [retag, text, text, ih]
  | binary _ _ _ _ ihl ihr => rw [retag, text, text, ihl, ihr]
  | call _ _ _ ihc iha => rw [retag, text, text, ihc, retagAll_eq, listText_retag iha]

@[simp] theorem commaText_retag (f : α → β) (es : List (Expr ε α)) :
    commaText (es.map (retag f)) = commaText es :=
  listText_retag (fun e _ => text_retag f e) _ _

/-- The expression without its tags. -/
abbrev bare (e : Expr ε α) : Expr Unit Unit := e.retag fun _ => ()

theorem text_eq_of_bare {e : Expr ε α} {γ δ : Type} {e' : Expr γ δ} (h : e.bare = e'.bare) :
    e.text = e'.text := by
  calc
    e.text = e.bare.text := (text_retag _ e).symm
    _ = e'.bare.text := by rw [h]
    _ = e'.text := text_retag _ e'

theorem parts_retag (f : α → β) (e : Expr ε α) : (e.retag f).parts = e.parts.map (retag f) := by
  induction e with
  | hole | literal | name => rfl
  | paren _ _ ih => rw [retag, parts, parts, ih, List.map_cons, retag]
  | neg _ _ ih => rw [retag, parts, parts, ih, List.map_cons, retag]
  | binary _ _ _ _ ihl ihr =>
    rw [retag, parts, parts, ihl, ihr, List.map_cons, List.map_append, retag]
  | call _ _ _ ihc iha =>
    simp only [retag, parts, ihc, retagAll_eq, partsAll_eq, List.flatMap_map, List.map_cons,
      List.map_append, List.map_flatMap]
    congr 2
    rw [List.flatMap_def, List.flatMap_def, List.map_congr_left iha]

theorem children_retag (f : α → β) (e : Expr ε α) :
    (e.retag f).children = e.children.map (retag f) := by
  cases e <;> simp [retag, children]

theorem tag?_retag (f : α → β) (e : Expr ε α) : (e.retag f).tag? = e.tag?.map f := by
  cases e <;> rfl

@[simp] theorem span_retag [Spanned α] [Spanned β] {f : α → β}
    (h : ∀ tag, Spanned.span (f tag) = Spanned.span tag) (e : Expr ε α) :
    (e.retag f).span = e.span := by
  simp [span, tag?_retag, Function.comp_def, h]

end Expr

/-! ### Statements and functions -/

/-- The written type without its place. -/
def TypeRef.bare {ν : Type} (t : TypeRef ν) : TypeRef ν := ⟨t.name, ⟨0, 0⟩⟩

/-- The parameter without its places. -/
def Param.bare {ν : Type} (p : Param ν) : Param ν := ⟨p.name, p.type.bare, p.variadic, ⟨0, 0⟩⟩

/-- The statement with other tags, and with holes that have no label. -/
def Stmt.retag (f : α → β) : Stmt ε α → Stmt Unit β
  | hole _ => .hole ()
  | var tag names type? values => .var (f tag) names type? (values.map (Expr.retag f))
  | assign tag targets values =>
    .assign (f tag) (targets.map (Expr.retag f)) (values.map (Expr.retag f))
  | ret tag results => .ret (f tag) (results.map (Expr.retag f))
  | expr tag e => .expr (f tag) (e.retag f)

/-- The statement without tags and places. -/
def Stmt.bare : Stmt ε α → Stmt Unit Unit
  | hole _ => .hole ()
  | var _ names type? values => .var () names (type?.map TypeRef.bare) (values.map Expr.bare)
  | assign _ targets values => .assign () (targets.map Expr.bare) (values.map Expr.bare)
  | ret _ results => .ret () (results.map Expr.bare)
  | expr _ e => .expr () e.bare

/-- The function with other tags. -/
def Function.retag (g : α → β) (f : Function ε α) : Function Unit β :=
  ⟨g f.tag, f.name, f.params, f.results, f.body.map (Stmt.retag g)⟩

/-- The function without tags and places. -/
def Function.bare (f : Function ε α) : Function Unit Unit :=
  ⟨(), f.name, f.params.map Param.bare, f.results.map TypeRef.bare, f.body.map Stmt.bare⟩

@[simp] theorem Stmt.bare_retag (f : α → β) (s : Stmt ε α) : (s.retag f).bare = s.bare := by
  cases s <;> simp [Stmt.retag, Stmt.bare]

@[simp] theorem Function.bare_retag (g : α → β) (f : Function ε α) :
    (f.retag g).bare = f.bare := by
  simp [Function.retag, Function.bare]

theorem Stmt.children_retag (f : α → β) (s : Stmt ε α) :
    (s.retag f).children = s.children.map (Expr.retag f) := by
  cases s <;> simp [Stmt.retag, Stmt.children]

@[simp] theorem Stmt.span_retag [Spanned α] [Spanned β] {f : α → β}
    (h : ∀ tag, Spanned.span (f tag) = Spanned.span tag) (s : Stmt ε α) :
    (s.retag f).span = s.span := by
  cases s <;> simp [Stmt.retag, span, tag?, h]

@[simp] theorem Stmt.text_bare (s : Stmt ε α) : s.bare.text = s.text := by
  cases s with
  | var _ _ type? values => cases type? <;> simp [Stmt.bare, Stmt.text, TypeRef.bare]
  | _ => simp [Stmt.bare, Stmt.text]

@[simp] theorem Function.header_bare (f : Function ε α) : f.bare.header = f.header := by
  have hp : (f.params.map Param.bare).map Param.text = f.params.map Param.text := by
    rw [List.map_map]
    rfl
  have hr : resultsText (f.results.map TypeRef.bare) = resultsText f.results := by
    rcases f.results with _ | ⟨t, _ | ⟨u, ts⟩⟩ <;>
      simp [resultsText, TypeRef.bare, Function.comp_def]
  simp only [Function.header, Function.bare, hp, hr]

end Recast
