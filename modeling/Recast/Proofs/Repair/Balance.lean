import Mathlib.Data.Finset.Card
import Mathlib.Data.List.Induction
import Recast.Proofs.Repair.InPlace
import Recast.Proofs.Store.Parsed

/-!
# Which operand is converted

The order in which rules were added decides which of two operands is brought to the type of the
other one. A rule has the priority that it was given when it was added last, so `priority?` is read
off the history of a table, and from it the outcome of `Repair.balance`.
-/

namespace Recast

/-! ### Histories of a table -/

/-- One call that adds rules to a table. -/
inductive Registration where
  | add (source target : String)
  | rule (r : Rule)
  | rules (rs : List Rule)
deriving DecidableEq, Repr

/-- The rules of a call, in order. -/
def Registration.rulesOf : Registration → List Rule
  | add source target => [⟨source, target⟩]
  | rule r => [r]
  | rules rs => rs

namespace RuleTable

/-- The table after one more call. -/
def register (t : RuleTable) : Registration → RuleTable
  | .add source target => t.add source target
  | .rule r => t.addRule r
  | .rules rs => t.addRules rs

/-- The table after some calls, in order. -/
def registerAll (t : RuleTable) (history : List Registration) : RuleTable :=
  history.foldl register t

theorem register_eq (t : RuleTable) (call : Registration) :
    t.register call = t.addRules call.rulesOf := by
  cases call <;> rfl

/-- It makes no difference in which calls rules were added. -/
theorem registerAll_eq (t : RuleTable) (history : List Registration) :
    t.registerAll history = t.addRules (history.flatMap Registration.rulesOf) := by
  induction history generalizing t with
  | nil => rfl
  | cons call history ih =>
    rw [List.flatMap_cons, addRules, List.foldl_append]
    exact (ih (t.register call)).trans (by rw [register_eq]; rfl)

theorem addRules_concat (t : RuleTable) (rs : List Rule) (r : Rule) :
    t.addRules (rs ++ [r]) = (t.addRules rs).addRule r := List.foldl_append

/-- The priority that the next rule gets. -/
theorem next_addRules (rs : List Rule) :
    (empty.addRules rs).next = max (-(rs.length : Int)) lowest := by
  induction rs using List.reverseRecOn with
  | nil => rfl
  | append_singleton rs r ih =>
    rw [addRules_concat, addRule, add, ih]
    simp only [List.length_append, List.length_singleton, lowest]
    omega

theorem priority?_addRule (t : RuleTable) (r other : Rule) :
    (t.addRule r).priority? other.source other.target
      = if r = other then some t.next else t.priority? other.source other.target := by
  rw [addRule, add, priority?, Std.HashMap.getElem?_insert]
  by_cases h : r = other
  · simp [h]
  · have hne : ¬ ((r.source, r.target) == (other.source, other.target)) = true := by
      intro heq
      have := eq_of_beq heq
      exact h (by cases r; cases other; simp_all)
    rw [if_neg hne, if_neg h]
    rfl

theorem priority?_empty (source target : String) : empty.priority? source target = none := by
  rw [priority?, empty, Std.HashMap.getElem?_empty]

/-- A rule has the priority that it got when it was added last. -/
theorem priority?_addRules_last (before : List Rule) (r : Rule) {after : List Rule}
    (h : r ∉ after) : (empty.addRules (before ++ r :: after)).priority? r.source r.target
      = some (max (-(before.length : Int)) lowest) := by
  induction after using List.reverseRecOn with
  | nil => rw [addRules_concat, priority?_addRule, if_pos rfl, next_addRules]
  | append_singleton after last ih =>
    rw [List.mem_append, not_or, List.mem_singleton] at h
    rw [← List.cons_append, ← List.append_assoc, addRules_concat, priority?_addRule,
      if_neg (Ne.symm h.2)]
    exact ih h.1

theorem priority?_addRules_of_not_mem {rs : List Rule} {r : Rule} (h : r ∉ rs) :
    (empty.addRules rs).priority? r.source r.target = none := by
  induction rs using List.reverseRecOn with
  | nil => exact priority?_empty _ _
  | append_singleton rs last ih =>
    rw [List.mem_append, not_or, List.mem_singleton] at h
    rw [addRules_concat, priority?_addRule, if_neg (Ne.symm h.2)]
    exact ih h.1

/-- A rule has a priority if and only if it was added. -/
theorem isSome_priority?_addRules {rs : List Rule} {r : Rule} :
    ((empty.addRules rs).priority? r.source r.target).isSome ↔ r ∈ rs := by
  induction rs using List.reverseRecOn with
  | nil => simp [addRules, priority?_empty]
  | append_singleton rs last ih =>
    rw [addRules_concat, priority?_addRule, List.mem_append, List.mem_singleton]
    by_cases h : last = r
    · simp [h]
    · rw [if_neg h, ih, or_iff_left (Ne.symm h)]

theorem size_addRules (rs : List Rule) : (empty.addRules rs).size = rs.toFinset.card := by
  induction rs using List.reverseRecOn with
  | nil => rfl
  | append_singleton rs r ih =>
    have hmem : (r.source, r.target) ∈ (empty.addRules rs).priorities ↔ r ∈ rs.toFinset := by
      rw [List.mem_toFinset, ← isSome_priority?_addRules, priority?,
        ← Std.HashMap.isSome_getElem?_iff_mem]
    have hfinset : (rs ++ [r]).toFinset = insert r rs.toFinset := by
      rw [List.toFinset_append, Finset.union_comm]
      rfl
    rw [addRules_concat, size, addRule, add, Std.HashMap.size_insert, hfinset,
      Finset.card_insert_eq_ite, ← ih, size]
    simp only [hmem]

end RuleTable

/-! ### The choice of an operand -/

namespace Repair

variable (rules : RuleTable) (q : TypeOracle)

/-- There is a rule for the conversion, and values of the one type can be converted to the other. -/
def Possible (source target : String) : Prop :=
  (rules.priority? source target).isSome ∧ q.convertible source target

/-- The right operand is to be converted, to the type of the left one: that is possible, and what is
more, converting the left one is not or has a lower priority. -/
def RightYields (left right : String) : Prop :=
  Possible rules q right left ∧ (¬ Possible rules q left right ∨
    ∃ high low, rules.priority? right left = some high ∧ rules.priority? left right = some low ∧
      low < high)

end Repair

namespace Direction

variable {r l : Option Int}

theorem choose_eq_rightToLeft :
    choose r l = some .rightToLeft ↔
      r.isSome ∧ (l = none ∨ ∃ high low, r = some high ∧ l = some low ∧ low < high) := by
  cases r <;> cases l <;> simp [choose]

theorem choose_eq_leftToRight :
    choose r l = some .leftToRight ↔ l.isSome ∧ ¬ choose r l = some .rightToLeft := by
  cases r <;> cases l <;> simp [choose]

end Direction

namespace Repair

variable {rules : RuleTable} {q : TypeOracle} {source target left right : String}

theorem allowed?_of_convertible (h : q.convertible source target) :
    allowed? rules q source target = rules.priority? source target := by
  rw [allowed?, h]
  cases rules.priority? source target <;> rfl

theorem isSome_allowed? :
    (allowed? rules q source target).isSome ↔ Possible rules q source target := by
  rw [allowed?, Possible]
  cases rules.priority? source target <;> simp [Option.filter]

/-- The priorities tell which operand yields. -/
theorem choose_eq_rightToLeft_iff :
    Direction.choose (allowed? rules q right left) (allowed? rules q left right)
      = some .rightToLeft ↔ RightYields rules q left right := by
  rw [Direction.choose_eq_rightToLeft, isSome_allowed?, RightYields,
    ← Option.not_isSome_iff_eq_none, isSome_allowed?]
  refine and_congr_right fun hright => ?_
  by_cases hleft : Possible rules q left right
  · rw [allowed?_of_convertible hright.2, allowed?_of_convertible hleft.2]
  · simp only [hleft, not_false_eq_true, true_or]

instance (left right : String) : Decidable (RightYields rules q left right) :=
  decidable_of_iff _ choose_eq_rightToLeft_iff

instance (source target : String) : Decidable (Possible rules q source target) :=
  decidable_of_iff _ isSome_allowed?

theorem choose_eq_leftToRight_iff :
    Direction.choose (allowed? rules q right left) (allowed? rules q left right)
      = some .leftToRight ↔ ¬ RightYields rules q left right ∧ Possible rules q left right := by
  rw [Direction.choose_eq_leftToRight, choose_eq_rightToLeft_iff, isSome_allowed?, and_comm]

end Repair

/-! ### The operand that is converted -/

/-- One operand of a binary expression was put into a new conversion, and all else is as it was. -/
structure Store.ConvertsOperand (s t : Store) (id : ExprId) (side : Side) (target : String) :
    Prop where
  binary : ∃ op left right span place,
    s.exprs[id]? = some ⟨.binary op left right, span⟩ ∧
    t.exprs[id]? = some ⟨operandShape op left right (s.exprs.size + 1) side, span⟩ ∧
    t.HasShape (s.exprs.size + 1) place (.call s.exprs.size [operandOn left right side]) ∧
    t.HasShape s.exprs.size ⟨place.start, place.start⟩ (.name target)
  size : t.exprs.size = s.exprs.size + 2
  others : ∀ {other span shape}, other ≠ id → s.HasShape other span shape →
    t.HasShape other span shape
  stmts : t.stmts = s.stmts
  functions : t.functions = s.functions
  params : t.params = s.params
  stmtLists : t.stmtLists = s.stmtLists
  typeLists : t.typeLists = s.typeLists
  nameLists : t.nameLists = s.nameLists
  trivia : t.trivia = s.trivia
  exprLists : ∀ {slice ids}, s.exprLists.Keeps slice ids → t.exprLists.Keeps slice ids
  strings : ∀ {n text}, s.string? n = some text → t.string? n = some text

section Operands

variable {q : TypeOracle} {s t : Store} {id operand : ExprId} {op : BinaryOp} {left right : ExprId}
  {span place : Span} {side : Side} {target source : String}

/-- The store with a conversion of an operand put into the slot of the operand. -/
theorem Store.convertsOperand (hnode : s.exprs[id]? = some ⟨.binary op left right, span⟩)
    (hplace : s.exprs[operandOn left right side]?.map Node.span = some place) (target : String) :
    let c := (s.addConversion target (operandOn left right side)).2
    s.ConvertsOperand
      { c with
        exprs := c.exprs.setIfInBounds id
          (Node.mk (operandShape op left right (s.exprs.size + 1) side) span) }
      id side target := by
  intro c
  obtain ⟨-, hadds⟩ := addConversion_spec hplace target
  have hid : id < s.exprs.size := (Array.getElem?_eq_some_iff.1 hnode).1
  have hcall : c.HasShape (s.exprs.size + 1) place
      (.call s.exprs.size [operandOn left right side]) := by
    obtain ⟨slice, hn, hkeeps, -⟩ := hadds.call
    exact ⟨slice, hn, hkeeps⟩
  refine ⟨⟨op, left, right, span, place, hnode, ?_, ?_, ?_⟩, ?_, ?_, hadds.stmts,
    hadds.functions, rfl, rfl, rfl, rfl, hadds.trivia, hadds.extends_.exprLists,
    hadds.extends_.strings⟩
  · have hlt : id < c.exprs.size := Nat.lt_of_lt_of_le hid hadds.extends_.size
    simp [hlt]
  · exact hcall.of_exprs (Nat.ne_of_lt (Nat.lt_succ_of_lt hid))
  · exact hadds.callee.of_exprs (Nat.ne_of_lt hid)
  · simp only [Array.size_setIfInBounds]
    exact hadds.size
  · intro other span shape hne hshape
    exact (hadds.extends_.hasShape hshape).of_exprs hne.symm

/-- Only one operand is converted. -/
theorem Store.ConvertsOperand.side_unique {other : String} {side' : Side}
    (h : s.ConvertsOperand t id side target) (h' : s.ConvertsOperand t id side' other)
    (hnode : s.exprs[id]? = some ⟨.binary op left right, span⟩)
    (hright : right < s.exprs.size) : side = side' := by
  obtain ⟨_, _, _, _, _, hold, hnew, -⟩ := h.binary
  obtain ⟨_, _, _, _, _, hold', hnew', -⟩ := h'.binary
  cases hnode.symm.trans hold
  cases hnode.symm.trans hold'
  have heq := hnew.symm.trans hnew'
  cases side <;> cases side'
  case left.left | right.right => rfl
  all_goals
    simp only [operandShape, Option.some.injEq, Node.mk.injEq, ExprShape.binary.injEq, true_and,
      and_true] at heq
    grind

namespace Repair

theorem slot?_operand (hnode : s.exprs[id]? = some ⟨.binary op left right, span⟩) (side : Side) :
    s.slot? (.operand id side) = some (Store.operandOn left right side) := by
  rw [Store.slot?, hnode]
  cases side <;> rfl

/-- An operand that is the conversion already is left alone. -/
theorem wrap?_of_isConverted (side : Side)
    (hnode : s.exprs[id]? = some ⟨.binary op left right, span⟩)
    (h : isConverted q s (Store.operandOn left right side) target source) :
    wrap? q s (.operand id side) target source = none := by
  rw [wrap?_eq, slot?_operand hnode, Option.bind_some, if_pos h]

/-- Any other operand is converted. -/
theorem exists_wrap?_operand (side : Side)
    (hnode : s.exprs[id]? = some ⟨.binary op left right, span⟩)
    (hoperand : Store.operandOn left right side < s.exprs.size)
    (h : ¬ isConverted q s (Store.operandOn left right side) target source) :
    ∃ t, wrap? q s (.operand id side) target source = some t ∧
      s.ConvertsOperand t id side target := by
  have hplace : s.exprs[Store.operandOn left right side]?.map Node.span = some _ :=
    congrArg (Option.map Node.span) (Array.getElem?_eq_getElem hoperand)
  obtain ⟨hcall, hadds⟩ := Store.addConversion_spec hplace target
  rw [wrap?_eq, slot?_operand hnode, Option.bind_some, if_neg h]
  dsimp only
  rw [Store.setSlot?_operand (hadds.extends_.exprs hnode), hcall]
  exact ⟨_, rfl, Store.convertsOperand hnode hplace target⟩

theorem isConverted_iff {current : ExprId} : isConverted q s current target source ↔
    ∃ arg, s.conversion? current = some (target, arg) ∧ q.typeOf s arg = some source := by
  rw [isConverted]
  cases s.conversion? current with
  | none => simp
  | some c => grind

/-- Which operand of a binary expression a repair converts. -/
theorem perform?_balance {rules : RuleTable} {l r : String}
    (hnode : s.exprs[id]? = some ⟨.binary op left right, span⟩)
    (hl : q.typeOf s left = some l) (hr : q.typeOf s right = some r) :
    (Repair.balance id).perform? rules q s =
      if RightYields rules q l r then wrap? q s (.operand id .right) l r
      else if Possible rules q l r then wrap? q s (.operand id .left) r l
      else none := by
  rw [perform?, balance?, hnode]
  simp only [hl, hr]
  by_cases hyields : RightYields rules q l r
  · rw [if_pos hyields, choose_eq_rightToLeft_iff.2 hyields]
  · rw [if_neg hyields]
    by_cases hpossible : Possible rules q l r
    · rw [if_pos hpossible, choose_eq_leftToRight_iff.2 ⟨hyields, hpossible⟩]
    · rw [if_neg hpossible]
      cases hchoice : Direction.choose (allowed? rules q r l) (allowed? rules q l r) with
      | none => rfl
      | some direction =>
        cases direction with
        | rightToLeft => exact absurd (choose_eq_rightToLeft_iff.1 hchoice) hyields
        | leftToRight => exact absurd (choose_eq_leftToRight_iff.1 hchoice).2 hpossible

end Repair

end Operands

/-- The order in which rules were added decides what is done about a binary expression with operands
of two types. A pair of types that was added last as number `k`, counted from 0, has the priority
`-k`, but no lower one than `-2 ^ 31`, and the size of the table is the number of pairs. The right
operand is converted to the type of the left one if and only if a rule for that was added, the types
are convertible, and the other way round there is no such rule, the types are not convertible, or
the priority is lower. Otherwise the left operand is converted, to the type of the right one, if and
only if that is possible. An operand that is such a conversion already stays as it is. -/
theorem balance_of_history (history : List Registration) (q : TypeOracle) {s : Store} {id : ExprId}
    {op : BinaryOp} {left right : ExprId} {span : Span} {l r : String}
    (hnode : s.exprs[id]? = some ⟨.binary op left right, span⟩)
    (hleft : left < s.exprs.size) (hright : right < s.exprs.size)
    (hl : q.typeOf s left = some l) (hr : q.typeOf s right = some r) :
    let rules := RuleTable.empty.registerAll history
    let added := history.flatMap Registration.rulesOf
    let result := (Repair.balance id).perform? rules q s
    (∀ before rule after, added = before ++ rule :: after → rule ∉ after →
      rules.priority? rule.source rule.target = some (max (-(before.length : Int)) (-2147483648))) ∧
    (∀ rule, rule ∉ added → rules.priority? rule.source rule.target = none) ∧
    rules.size = added.toFinset.card ∧
    ((∃ t, result = some t ∧ s.ConvertsOperand t id .right l) ↔
      Repair.RightYields rules q l r ∧
        ¬ ∃ arg, s.conversion? right = some (l, arg) ∧ q.typeOf s arg = some r) ∧
    ((∃ t, result = some t ∧ s.ConvertsOperand t id .left r) ↔
      ¬ Repair.RightYields rules q l r ∧ Repair.Possible rules q l r ∧
        ¬ ∃ arg, s.conversion? left = some (r, arg) ∧ q.typeOf s arg = some l) ∧
    ∀ t, result = some t → s.ConvertsOperand t id .right l ∨ s.ConvertsOperand t id .left r := by
  intro rules added result
  have hrules : rules = RuleTable.empty.addRules added := RuleTable.registerAll_eq _ _
  have hresult : result = _ := Repair.perform?_balance hnode hl hr
  have honly {t : Store} (hr : s.ConvertsOperand t id .right l)
      (hl : s.ConvertsOperand t id .left r) : False := by
    cases hr.side_unique hl hnode hright
  simp only [← Repair.isConverted_iff]
  refine ⟨?_, ?_, ?_, ?_⟩
  · rintro before rule after hadded hlast
    rw [hrules, hadded]
    exact RuleTable.priority?_addRules_last before rule hlast
  · intro rule hrule
    rw [hrules]
    exact RuleTable.priority?_addRules_of_not_mem hrule
  · rw [hrules]
    exact RuleTable.size_addRules added
  by_cases hyields : Repair.RightYields rules q l r
  · rw [if_pos hyields] at hresult
    by_cases hdone : Repair.isConverted q s right l r
    · rw [hresult, Repair.wrap?_of_isConverted .right hnode hdone]
      simp [hyields, hdone]
    · obtain ⟨t, ht, hconverts⟩ := Repair.exists_wrap?_operand .right hnode hright hdone
      rw [hresult, ht]
      simp only [Option.some.injEq, exists_eq_left', forall_eq', hyields, hdone, hconverts]
      simpa using honly hconverts
  · rw [if_neg hyields] at hresult
    by_cases hpossible : Repair.Possible rules q l r
    · rw [if_pos hpossible] at hresult
      by_cases hdone : Repair.isConverted q s left r l
      · rw [hresult, Repair.wrap?_of_isConverted .left hnode hdone]
        simp [hyields, hdone]
      · obtain ⟨t, ht, hconverts⟩ := Repair.exists_wrap?_operand .left hnode hleft hdone
        rw [hresult, ht]
        simp only [Option.some.injEq, exists_eq_left', forall_eq', hyields, hpossible, hdone,
          hconverts]
        simpa using fun h => honly h hconverts
    · rw [if_neg hpossible] at hresult
      rw [hresult]
      simp [hyields, hpossible]

/-- The rule to the wider type was added first and once more at the end, so the other one wins. -/
theorem balance_of_history_again :
    ∃ tree, parse "func f(a int32, b int64) \x7b\n\tprintln(a + b)\n\x7d\n" = .ok tree ∧
      let s := Store.ofProgram tree
      let q : TypeOracle := ⟨fun _ id => [none, some "int32", some "int64"][id]?.join,
        fun _ => none, BasicType.convertibleNames⟩
      let rules := RuleTable.empty.registerAll
        [.add "int32" "int64", .rule ⟨"int64", "int32"⟩, .rules [⟨"int32", "int64"⟩]]
      rules.priority? "int64" "int32" = some (-1) ∧ rules.priority? "int32" "int64" = some (-2) ∧
        rules.size = 2 ∧
        ∃ t, (Repair.balance 3).perform? rules q s = some t ∧
          s.ConvertsOperand t 3 .right "int32" := by
  obtain ⟨tree, hp, hcheck⟩ := exists_parse
    (fun tree => decide ((Store.ofProgram tree).slot? (.operand 3 .left) = some 1 ∧
      (Store.ofProgram tree).slot? (.operand 3 .right) = some 2 ∧
      (Store.ofProgram tree).conversion? 2 = none))
    (by decide +kernel : (parse
      "func f(a int32, b int64) \x7b\n\tprintln(a + b)\n\x7d\n").toOption.any _ = true)
  refine ⟨tree, hp, ?_⟩
  intro s q rules
  obtain ⟨hleft, hright, hname⟩ := of_decide_eq_true hcheck
  obtain ⟨op, left, right, span, hnode, hone⟩ := Store.exists_binary_of_slot? hleft
  rw [Repair.slot?_operand hnode] at hright
  obtain rfl : left = 1 := hone
  obtain rfl : right = 2 := Option.some.inj hright
  have hsize : 3 < s.exprs.size := (Array.getElem?_eq_some_iff.1 hnode).1
  obtain ⟨hpriority, -, hcount, hright, -⟩ := balance_of_history
    [.add "int32" "int64", .rule ⟨"int64", "int32"⟩, .rules [⟨"int32", "int64"⟩]] q hnode
    (Nat.lt_trans (by decide) hsize) (Nat.lt_trans (by decide) hsize) rfl rfl
  have hnarrow : rules.priority? "int64" "int32" = some (-1) :=
    hpriority [⟨"int32", "int64"⟩] ⟨"int64", "int32"⟩ [⟨"int32", "int64"⟩] rfl (by decide)
  have hwide : rules.priority? "int32" "int64" = some (-2) :=
    hpriority [⟨"int32", "int64"⟩, ⟨"int64", "int32"⟩] ⟨"int32", "int64"⟩ [] rfl (by decide)
  have hyields : Repair.RightYields rules q "int32" "int64" :=
    ⟨⟨Option.isSome_of_eq_some hnarrow, by decide⟩, .inr ⟨_, _, hnarrow, hwide, by decide⟩⟩
  refine ⟨hnarrow, hwide, hcount, hright.2 ⟨hyields, ?_⟩⟩
  rintro ⟨arg, harg, -⟩
  rw [hname] at harg
  cases harg

end Recast
