import Recast.Proofs.Repair.Converge
import Recast.Proofs.Repair.InPlace
import Recast.Proofs.Repair.Whole

/-!
# Repairs only put conversions around expressions

Whatever repairs are performed on the store of a tree, and whatever is said about types, the store
stays a tree, and the old one is found in it again when each new call is contracted to its argument.
-/

namespace Recast

/-! ### Contraction -/

mutual

/-- The expression with each call that is numbered `base` or higher and has one argument replaced by
the argument. -/
def Expr.contract (base : Nat) : PlacedExpr → PlacedExpr
  | .hole id => .hole id
  | .literal tag kind lexeme => .literal tag kind lexeme
  | .name tag text => .name tag text
  | .paren tag inner => .paren tag (inner.contract base)
  | .neg tag operand => .neg tag (operand.contract base)
  | .binary tag op left right => .binary tag op (left.contract base) (right.contract base)
  | .call tag callee args =>
    match decide (base ≤ tag.id), Expr.contractAll base args with
    | true, [arg] => arg
    | _, args => .call tag (callee.contract base) args

/-- The expressions, each one contracted. -/
def Expr.contractAll (base : Nat) : List PlacedExpr → List PlacedExpr
  | [] => []
  | e :: es => e.contract base :: Expr.contractAll base es

end

/-- The statement with its expressions contracted. -/
def Stmt.contract (base : Nat) : PlacedStmt → PlacedStmt
  | .hole id => .hole id
  | .var tag names type? values => .var tag names type? (values.map (Expr.contract base))
  | .assign tag targets values =>
    .assign tag (targets.map (Expr.contract base)) (values.map (Expr.contract base))
  | .ret tag results => .ret tag (results.map (Expr.contract base))
  | .expr tag e => .expr tag (e.contract base)

/-- The program with its expressions contracted. -/
def Program.contract (base : Nat) (p : PlacedProgram) : PlacedProgram :=
  { p with
    functions := p.functions.map fun f => { f with body := f.body.map (Stmt.contract base) } }

section Contraction

variable {base : Nat}

@[simp] theorem Expr.contractAll_eq (es : List PlacedExpr) :
    contractAll base es = es.map (contract base) := by
  induction es with
  | nil => rfl
  | cons e es ih => rw [contractAll, ih, List.map_cons]

theorem Expr.contract_call_of_lt {tag : Placed} (h : tag.id < base) (callee : PlacedExpr)
    (args : List PlacedExpr) : (call tag callee args).contract base
      = .call tag (callee.contract base) (args.map (contract base)) := by
  rw [contract, contractAll_eq, decide_eq_false (Nat.not_le.2 h)]

/-- Nothing is contracted in an expression with old nodes only. -/
theorem Expr.contract_of_lt {e : PlacedExpr} (h : ∀ part ∈ e.parts, part.ref < base) :
    e.contract base = e := by
  have child {e c : PlacedExpr} (h : ∀ part ∈ e.parts, part.ref < base) (hc : c ∈ e.children) :
      ∀ part ∈ c.parts, part.ref < base := fun part hp =>
    h part (mem_parts_of_child hc hp)
  induction e using Expr.inductArgs with
  | hole | literal | name => rfl
  | paren tag inner ih => rw [contract, ih (child h (by simp [children]))]
  | neg tag operand ih => rw [contract, ih (child h (by simp [children]))]
  | binary tag op left right ihl ihr =>
    rw [contract, ihl (child h (by simp [children])), ihr (child h (by simp [children]))]
  | call tag callee args ihc iha =>
    have hargs : args.map (contract base) = args := by
      rw [List.map_congr_left fun arg ha => iha arg ha (child h (by simp [children, ha])),
        List.map_id']
    rw [contract_call_of_lt (h _ (self_mem_parts _)), hargs, ihc (child h (by simp [children]))]

/-- Nothing is contracted in a program with old nodes only. -/
theorem Program.contract_of_lt {p : PlacedProgram} (h : ∀ e ∈ p.parts, e.ref < base) :
    p.contract base = p := by
  have hexprs {s : PlacedStmt} (hs : s ∈ p.stmts) {es : List PlacedExpr} (hes : es ⊆ s.children) :
      es.map (Expr.contract base) = es := by
    rw [List.map_congr_left fun e he => Expr.contract_of_lt fun part hp => h part ?_,
      List.map_id']
    exact List.mem_flatMap.2 ⟨e, List.mem_flatMap.2 ⟨s, hs, hes he⟩, hp⟩
  have hstmt : ∀ s ∈ p.stmts, s.contract base = s := by
    intro s hs
    cases s with
    | hole => rfl
    | var tag names type? values => rw [Stmt.contract, hexprs hs (List.Subset.refl values)]
    | assign tag targets values =>
      rw [Stmt.contract, hexprs hs (List.subset_append_left _ _),
        hexprs hs (List.subset_append_right _ _)]
    | ret tag results => rw [Stmt.contract, hexprs hs (List.Subset.refl results)]
    | expr tag e =>
      have := hexprs hs (List.Subset.refl [e])
      rw [Stmt.contract, (List.cons.inj this).1]
  have hfunction : ∀ f ∈ p.functions, { f with body := f.body.map (Stmt.contract base) } = f := by
    intro f hf
    rw [List.map_congr_left fun s hs => hstmt s (List.mem_flatMap.2 ⟨f, hf, hs⟩), List.map_id']
  rw [contract, List.map_congr_left hfunction, List.map_id']

variable {τ : Type} [Spelled τ] {W : Insertions τ}

/-- Conversions with new numbers are contracted away. -/
theorem Expr.contract_wrap (fresh : ∀ id i, W id = some i → base ≤ i.call.id) (e : PlacedExpr) :
    (e.wrap W).contract base = e.contract base := by
  have place {e e' : PlacedExpr} (h : e'.contract base = e.contract base) :
      (W.place e.ref e').contract base = e.contract base := by
    rw [Insertions.place]
    cases hi : W e.ref with
    | none => exact h
    | some i =>
      show (i.around e').contract base = _
      rw [Insertion.around, contract, contractAll_eq, decide_eq_true (fresh _ i hi), ← h]
      rfl
  apply place
  induction e using Expr.inductArgs with
  | hole | literal | name => rfl
  | paren tag inner ih => rw [wrapBelow, contract, contract, place ih]
  | neg tag operand ih => rw [wrapBelow, contract, contract, place ih]
  | binary tag op left right ihl ihr =>
    rw [wrapBelow, contract, contract, place ihl, place ihr]
  | call tag callee args ihc iha =>
    have hargs : (args.map (wrap W)).map (contract base) = args.map (contract base) := by
      rw [List.map_map]
      exact List.map_congr_left fun arg ha => place (iha arg ha)
    rw [wrapBelow, contract, contract, place ihc, wrapAll_eq, contractAll_eq, contractAll_eq, hargs]

theorem Program.contract_wrap (fresh : ∀ id i, W id = some i → base ≤ i.call.id)
    (p : PlacedProgram) : (p.wrap W).contract base = p.contract base := by
  have hexprs (es : List PlacedExpr) :
      (es.map (Expr.wrap W)).map (Expr.contract base) = es.map (Expr.contract base) := by
    rw [List.map_map]
    exact List.map_congr_left fun e _ => Expr.contract_wrap fresh e
  have hstmt (s : PlacedStmt) : (s.wrap W).contract base = s.contract base := by
    cases s <;> simp only [Stmt.wrap, Stmt.contract, hexprs, Expr.contract_wrap fresh]
  simp [contract, wrap, Function.wrap, Function.comp_def, hstmt]

end Contraction

/-! ### One repair -/

/-- The store is a tree that has grown out of the program `p` by calls with numbers from `base`
on. -/
structure Store.GrownFrom (s : Store) (base : Nat) (p : PlacedProgram) : Prop where
  holding : s.Holding s.program
  base_le : base ≤ s.exprs.size
  contracts : s.program.contract base = p

section Step

variable {s t : Store} {base : Nat} {p : PlacedProgram} {rules : RuleTable} {q : TypeOracle}

/-- A store that is given a conversion has no other new nodes. -/
theorem Store.Holding.insert (h : s.Holding p) {slot : Slot} {v : PlacedExpr} {target : String}
    (hi : s.Inserts t p .empty slot v target) (hv : v ∈ p.parts) :
    t.Holding (p.wrap (Insertions.insert .empty v.ref (s.insertion v target))) where
  toRepresents := hi.represents
  covered id hid := by
    let W : Insertions String := Insertions.insert .empty v.ref (s.insertion v target)
    have hself : W v.ref = some (s.insertion v target) := Insertions.insert_self ..
    have hnodes {e x : PlacedExpr} (he : e ∈ p.parts) (hx : x ∈ W.nodes e) :
        x ∈ (p.wrap W).parts := by
      rw [Program.parts_wrap]
      exact List.mem_flatMap.2 ⟨e, he, hx⟩
    rw [hi.size] at hid
    rcases Nat.lt_trichotomy id s.exprs.size with hlt | rfl | hgt
    · obtain ⟨e, he, rfl⟩ := h.covered id hlt
      exact ⟨_, hnodes he (Insertions.mem_nodes.2 (.inl rfl)), Expr.ref_wrapBelow e⟩
    · exact ⟨_, hnodes hv (Insertions.mem_nodes.2 (.inr ⟨_, hself, .inr rfl⟩)), rfl⟩
    · obtain rfl : id = s.exprs.size + 1 := by omega
      exact ⟨_, hnodes hv (Insertions.mem_nodes.2 (.inr ⟨_, hself, .inl rfl⟩)), rfl⟩
  coveredStmts id hid := by
    have hset : (s.addConversion target v.ref).2.setSlot? slot (s.addConversion target v.ref).1
        = some t := hi.added
    have hstmts : t.stmts = s.stmts := (Store.stmts_setSlot? hset).trans rfl
    rw [hstmts] at hid
    obtain ⟨st, hst, rfl⟩ := h.coveredStmts id hid
    rw [Program.stmts_wrap]
    exact ⟨_, List.mem_map_of_mem hst, Stmt.ref_wrap _ st⟩

/-- A repair that changes a store puts a conversion around one expression of its tree. -/
theorem Store.Holding.perform? (h : s.Holding s.program) {repair : Repair}
    (ht : repair.perform? rules q s = some t) : ∃ v ∈ s.program.parts, ∃ target : String,
      t.Holding t.program ∧ t.exprs.size = s.exprs.size + 2 ∧
        t.program = s.program.wrap (Insertions.insert .empty v.ref (s.insertion v target)) := by
  obtain ⟨slot, target, current, hget, hset⟩ := Repair.exists_of_perform? ht
  obtain ⟨v, hv, rfl⟩ := h.exists_fills hget
  have hempty : s.Represents (s.program.wrap (.empty : Insertions String)) := by
    rw [Program.wrap_empty]
    exact h.toRepresents
  obtain ⟨t', hi⟩ := hempty.insert h.distinct hv rfl target
  obtain rfl : t' = t := Option.some.inj (hi.added.symm.trans hset)
  have hholding := h.insert hi hv.mem_parts
  have hprogram := hholding.program
  exact ⟨v, hv.mem_parts, target, by rwa [hprogram], hi.size, hprogram⟩

/-- A repair that changes a store puts a new call into its tree. -/
theorem Store.GrownFrom.perform? (h : s.GrownFrom base p) {repair : Repair}
    (ht : repair.perform? rules q s = some t) : t.GrownFrom base p := by
  obtain ⟨v, -, target, hholding, hsize, hprogram⟩ := h.holding.perform? ht
  have hfresh : ∀ id i, Insertions.insert .empty v.ref (s.insertion v target) id = some i →
      base ≤ i.call.id := by
    intro id i hW
    by_cases hid : id = v.ref
    · rw [hid] at hW
      obtain rfl := Option.some.inj ((Insertions.insert_self _ _).symm.trans hW)
      exact Nat.le_succ_of_le h.base_le
    · cases (Insertions.insert_other _ hid).symm.trans hW
  refine ⟨hholding, ?_, ?_⟩
  · rw [hsize]
    exact Nat.le_add_right_of_le h.base_le
  · rw [hprogram, Program.contract_wrap hfresh, h.contracts]

/-- A store of which nothing is told yet. -/
theorem Store.Holding.grownFrom (h : s.Holding s.program) :
    s.GrownFrom s.exprs.size s.program where
  holding := h
  base_le := Nat.le_refl _
  contracts := Program.contract_of_lt fun e he => (h.exprs e he).ref_lt

/-- What each repair that changes a store keeps, repairs in a row keep. -/
theorem performAll_keeps {P : Store → Prop} (repairs : List Repair)
    (step : ∀ {s t : Store} {repair : Repair}, P s → repair.perform? rules q s = some t → P t)
    (h : P s) : P (performAll rules q s repairs).1 := by
  have run : ∀ state : Store × RepairReport, P state.1 →
      P (repairs.foldl (performNext rules q) state).1 := by
    induction repairs with
    | nil => exact fun _ h => h
    | cons repair repairs ih =>
      intro state h
      refine ih _ ?_
      rw [performNext]
      cases ht : repair.perform? rules q state.1 with
      | none => exact h
      | some t => exact step h ht
  exact run (s, .none) h

end Step

/-! ### All repairs -/

/-- Repairs of any kind, whatever is said about types, only put calls around expressions of a tree.
The store stays a tree, and it has two new nodes for each repair that was applied. With the new
calls contracted to their arguments it is the tree that it was. Each repair is counted, and one that
reports no change leaves the store as it was, although it works in place. -/
theorem performAll_contract (tree : SourceProgram) (rules : RuleTable) (q : TypeOracle)
    (repairs : List Repair) :
    let st := Store.ofProgram tree
    let t := (performAll rules q st repairs).1
    let report := (performAll rules q st repairs).2
    performAllInPlace rules q st repairs = (t, report) ∧
      t.program.contract st.exprs.size = st.program ∧
      t.IsTree ∧
      t.exprs.size = st.exprs.size + 2 * report.applied ∧
      report.planned = repairs.length ∧
      report.applied + report.unchanged = repairs.length ∧
      ∀ before repair after, repairs = before ++ repair :: after →
        let s := (performAllInPlace rules q st before).1
        (repair.performInPlace rules q s).2 = false →
          (repair.performInPlace rules q s).1 = s ∧
            (performAllInPlace rules q st (before ++ [repair])).1 = s := by
  intro st t report
  have hs : st.Represents st.program := (stored_program tree).represents
  have hgrown : t.GrownFrom st.exprs.size st.program :=
    performAll_keeps (P := (·.GrownFrom _ _)) repairs (fun h => h.perform?)
      (hs.holding (stored_program tree).numbers).grownFrom
  obtain ⟨hplanned, hsum⟩ := performAll_counts rules q st repairs
  refine ⟨performAllInPlace_eq rules q st repairs, hgrown.contracts, hgrown.holding.isTree,
    (size_performAll rules q st repairs).1, hplanned, hsum, ?_⟩
  intro before repair after _ s hunchanged
  have hsame : (repair.performInPlace rules q s).1 = s := by
    rw [Repair.performInPlace_eq] at hunchanged ⊢
    cases ht : repair.perform? rules q s with
    | none => rfl
    | some t =>
      rw [ht] at hunchanged
      cases hunchanged
  refine ⟨hsame, ?_⟩
  rw [performAllInPlace, List.foldl_append]
  exact hsame

theorem performAll_contract_twice :
    ∃ tree, parse "func f(a int8) \x7b\n\tvar b int16 = a\n\x7d\n" = .ok tree ∧
      let st := Store.ofProgram tree
      let q : TypeOracle := ⟨fun _ _ => some "int8", fun _ => none, fun _ _ => false⟩
      let repairs : List Repair := [.convert (.varValue 0 0) "int16" "int8" none,
        .convert (.varValue 0 0) "int16" "int8" (some 0)]
      let s := (performAllInPlace .widening q st [.convert (.varValue 0 0) "int16" "int8" none]).1
      (performAll .widening q st repairs).1.program.contract st.exprs.size = st.program ∧
        (performAllInPlace .widening q st repairs).1 = s := by
  obtain ⟨tree, hp, -⟩ := exists_parse (fun _ => true)
    (by decide +kernel : (parse "func f(a int8) \x7b\n\tvar b int16 = a\n\x7d\n").toOption.any
      (fun _ => true) = true)
  refine ⟨tree, hp, ?_⟩
  intro st q repairs s
  obtain ⟨-, hcontract, -, -, -, -, hunchanged⟩ := performAll_contract tree .widening q repairs
  refine ⟨hcontract, (hunchanged [.convert (.varValue 0 0) "int16" "int8" none] _ [] rfl ?_).2⟩
  have hcondition : Repair.conditionHolds q s (.varValue 0 0) (some 0) = false := by
    rw [Repair.conditionHolds]
    cases s.slot? (.varValue 0 0) <;> rfl
  show (Repair.performInPlace .widening q s _).2 = false
  rw [Repair.performInPlace, Repair.edit?, hcondition]
  rfl

end Recast
