import Recast.Proofs.Repair.Accepts
import Recast.Proofs.Repair.Exact
import Recast.Proofs.Repair.Reprint
import Recast.Proofs.Types.Forget

/-!
# What a fresh check says about a conversion

A pass looks types up in the check that was made before it, while a check of the fixed text has its
own types and ids. It finds each conversion that the pass made where a value of its type is taken.
Two things can get in the way: the type of the conversion may be the name of a variable at that
place, and a function may be declared again with other results.
-/

namespace Recast

/-! ### Fixing a text and reading it again -/

/-- A source text with its tree, the repairs that its check calls for, and what is read from the
text that they leave. -/
structure Fixing (rules : RuleTable) (source : String) where
  tree : SourceProgram
  parsed : parse source = .ok tree
  repairs : List Repair
  planned : planAll Classifier.standard.classify (Store.ofProgram tree).program.check.info.oracle
    (Store.ofProgram tree) (Store.ofProgram tree).program.check.diagnostics = .ok repairs
  again : SourceProgram
  reread : parse (performAll rules (Store.ofProgram tree).program.check.info.oracle
    (Store.ofProgram tree) repairs).1.program.render = .ok again

namespace Fixing

variable {rules : RuleTable} {source : String} (x : Fixing rules source)

/-- The types that the check before the repairs found. -/
def oracle : TypeOracle := (Store.ofProgram x.tree).program.check.info.oracle

/-- The store after some of the repairs. -/
def after (repairs : List Repair) : Store :=
  (performAll rules x.oracle (Store.ofProgram x.tree) repairs).1

/-- The fixed program, in the store in which it was fixed. -/
def fixed : PlacedProgram := (x.after x.repairs).program

/-- The fixed program as it is read from its text. -/
def fresh : PlacedProgram := (Store.ofProgram x.again).program

/-- What a check of the fixed text finds. -/
def info : TypeInfo := x.fresh.check.info

/-- The repair comes after the repairs `before` and changes something. -/
def Applies (before : List Repair) (repair : Repair) : Prop :=
  (∃ after, x.repairs = before ++ repair :: after) ∧
    (repair.perform? rules x.oracle (x.after before)).isSome

/-- The repair puts a new conversion to the type around the value in the slot, and in the program
that is read from the fixed text this is the call. -/
structure Makes (before : List Repair) (repair : Repair) (slot : Slot) (call : PlacedExpr)
    (type : BasicType) : Prop where
  made : ∃ value node, (x.after before).slot? slot = some value ∧
    (let conversion := (x.after before).addConversion type.name value
    repair.perform? rules x.oracle (x.after before) = conversion.2.setSlot? slot conversion.1 ∧
      node.ref = conversion.1) ∧ x.fixed.SamePlace x.fresh node call
  names : ∃ tag callee arg, call = .call tag (.name callee type.name) [arg]

theorem repairs_eq :
    x.repairs = (Store.ofProgram x.tree).program.remarks.filterMap Remark.repair? :=
  Except.ok.inj (x.planned.symm.trans (planAll_checked x.parsed))

theorem after_eq (rs : List Remark) : x.after (rs.filterMap Remark.repair?)
    = rs.foldl (Remark.apply rules x.oracle) (Store.ofProgram x.tree) :=
  performAll_remarks rules x.oracle _ rs

/-- A text that is read can be fixed, and the fixed text can be read. -/
theorem exists_fix {tree : SourceProgram} (h : parse source = .ok tree) (rules : RuleTable) :
    ∃ x : Fixing rules source, ∃ fixed, fix rules source = .ok fixed ∧
      fixed.source = x.fixed.render := by
  obtain ⟨t, report, W, hrepair, ht, hpass⟩ := exists_pass h rules
  have hprintable := hpass.printable ((stored_program tree).printableProgram h)
  obtain ⟨again, hagain, -⟩ := hprintable.exists_parse_render
  rw [← performAll_remarks] at ht
  subst ht
  exact ⟨⟨tree, h, _, planAll_checked h, again, hagain⟩, _, fix_eq_ok h hrepair, rfl⟩

/-- The fixed text is read as the fixed program. -/
theorem code_eq : x.fixed.functions.map Function.bare = x.fresh.functions.map Function.bare := by
  obtain ⟨t, report, W, -, ht, hpass⟩ := exists_pass x.parsed rules
  have hfixed : x.fixed = t.program := by
    rw [fixed, x.repairs_eq, x.after_eq, ht]
    rfl
  have hprintable := hpass.printable ((stored_program x.tree).printableProgram x.parsed)
  obtain ⟨again, hagain, hsame, -⟩ := hprintable.exists_parse_render
  rw [← hfixed] at hagain hsame
  have hreread : x.again = again := Except.ok.inj (x.reread.symm.trans hagain)
  rw [← hsame.functions, ← hreread]
  exact (stored_program x.again).sameText.functions.symm

theorem describes : x.fresh.check.Describes x.fresh :=
  (stored_program x.again).represents.check_describes

end Fixing

theorem Insertion.exists_call_of_bare {i : Insertion BasicType} {e e' : PlacedExpr}
    (h : (i.around e).bare = e'.bare) :
    ∃ tag callee arg, e' = .call tag (.name callee i.type.name) [arg] := by
  cases e' with
  | call tag callee args =>
    obtain ⟨-, hcallee, hargs⟩ := Expr.call.inj h
    rw [Expr.retagAll_eq, Expr.retagAll_eq] at hargs
    obtain ⟨arg, rfl, -⟩ := List.map_eq_singleton_iff.1 hargs.symm
    cases callee with
    | name callee text =>
      obtain ⟨-, rfl⟩ := Expr.name.inj hcallee
      exact ⟨tag, callee, arg, rfl⟩
    | _ => cases hcallee
  | _ => cases h

namespace Fixing

variable {rules : RuleTable} {source : String} (x : Fixing rules source)

/-- Each repair that changes something makes a conversion that is found in the program that is read
from the fixed text, where its type is wanted. It has its type, unless that is the name of a
variable. -/
theorem exists_made {before after : List Remark} {r : Remark} {repair : Repair}
    (hremarks : (Store.ofProgram x.tree).program.remarks = before ++ r :: after)
    (hr : r.repair? = some repair)
    (happlied : (repair.perform? rules x.oracle
      (x.after (before.filterMap Remark.repair?))).isSome) :
    ∃ slot v type call, r.Mends (Store.ofProgram x.tree).program.check.info
        (Store.ofProgram x.tree).program slot v type ∧
      x.Makes (before.filterMap Remark.repair?) repair slot call type ∧
      ∃ f before s after signature place, x.fresh.At f before s after signature ∧
        place.bare = slot.bare ∧
        s.Wants (x.fresh.scopeAt f signature before) f.signature.results place call type ∧
        (((x.fresh.scopeAt f signature before).locals type.name).isSome ∨
          call.typeIn (x.fresh.scopeAt f signature before) = some type) := by
  let st := Store.ofProgram x.tree
  let p := st.program
  have hs : st.Represents p := (stored_program x.tree).represents
  have hc : p.check.Describes p := hs.check_describes
  let u := x.after (before.filterMap Remark.repair?)
  have hu : before.foldl (Remark.apply rules p.check.info.oracle) st = u :=
    (x.after_eq before).symm
  have hperform : r.perform? rules p.check.info.oracle u = repair.perform? rules x.oracle u := by
    rw [Remark.perform?, hr]
    rfl
  have hsplit : p.remarks = before ++ r :: (after ++ []) := by
    rw [List.append_nil]
    exact hremarks
  obtain ⟨W, slot, v, type, hpass, hmends, hslot, hadded, hself, hother⟩ :=
    Pass.run_inserted hs hc hsplit (by rwa [hu, hperform])
  rw [hu] at hslot hadded hself
  let i := u.insertion v type
  have hfixed : x.fixed = p.wrap W := by
    rw [fixed, x.repairs_eq, x.after_eq, hremarks]
    exact hpass.represents.program
  have hW : W.MendsProgram p := hpass.mendsProgram hc hs.distinct fun r hr => hremarks ▸ hr
  obtain ⟨f, earlier, s, later, signature, hat, hin⟩ :=
    (show r.Mends p.check.info p slot v i.type from hmends).site hc hs.distinct
      (by rw [hremarks]; simp) hother
  have hstmt := hW f earlier s later signature hat
  have hgrows := hW.grows hat
  -- the program that is read has the site of the fixed program
  obtain ⟨f', earlier', s', later', hat', hf, hs', hscope, hzipf, hzips⟩ :=
    (hat.wrap W).exists_twin (hfixed ▸ x.code_eq)
  obtain ⟨place, call, hslot', hbare, hwants, root, root', hroot, hzip⟩ :=
    (hin.wants hgrows hstmt hself).exists_twin hs'
  have hplace : x.fixed.SamePlace x.fresh (i.around (v.wrapBelow W)) call := by
    rw [hfixed]
    exact Program.samePlace_of_mem (hfixed ▸ x.code_eq) hzipf hzips hroot hzip
  have hsignature : f'.signature = f.signature := (Function.signature_eq_of_bare hf).symm
  refine ⟨slot, v, type, call, hmends, ⟨⟨v.ref, _, hslot, ⟨?_, ?_⟩, hplace⟩,
    Insertion.exists_call_of_bare hbare⟩, f', earlier', s', later', signature, place, hat', hslot',
    ?_, ?_⟩
  · exact hperform.symm.trans hadded
  · exact (u.fst_addConversion type.name v.ref).symm
  · rw [← hscope, hsignature]
    exact hwants
  · rw [← hscope, ← Expr.typeIn_eq_of_bare hbare]
    exact hin.typed hgrows hstmt

/-- A name that does not fit where it stands is converted, if it can be. -/
theorem exists_made_name {fit : Fit} {tag : Placed} {text : String} {mode : Mode}
    {type target wanted : BasicType}
    (hremark : .unfit fit (.name tag text) mode type target
      ∈ (Store.ofProgram x.tree).program.remarks.map Remark.forget)
    (sized : type.isUntyped = false) (hwanted : fit.wanted? = some wanted)
    (hconvertible : type.convertibleTo wanted) :
    ∃ before repair call, x.Applies before repair ∧ x.Makes before repair fit.slot call wanted ∧
      ∃ f earlier s later signature, x.fresh.At f earlier s later signature ∧
        ∃ root ∈ s.values, call ∈ root.parts := by
  let p := (Store.ofProgram x.tree).program
  have hs : (Store.ofProgram x.tree).Represents p := (stored_program x.tree).represents
  have hc : p.check.Describes p := hs.check_describes
  obtain ⟨r, hr, hforget⟩ := List.mem_map.1 hremark
  obtain ⟨before, after, hremarks⟩ := List.append_of_mem hr
  cases r with
  | operands | other => cases hforget
  | unfit fit v mode type target =>
    obtain ⟨rfl, hv, rfl, rfl, rfl⟩ := Remark.unfit.inj hforget
    have hrepair : (Remark.unfit fit v mode type target).repair?
        = some (.convert fit.slot wanted.name type.name fit.goal?) := by
      rw [Remark.repair?, if_neg (by simp [sized]), hwanted, Option.bind_some,
        if_pos (.inr hconvertible)]
    have hmending : ((Remark.unfit fit v mode type target).mending? rules p.check.info).isSome := by
      have hnews : ¬ p.check.info.Repeats v type wanted := by
        intro hrepeats
        obtain ⟨_, _, _, rfl, -⟩ := hrepeats
        cases hv
      rw [Remark.mending?, Remark.candidate?, if_neg (by simp [sized]), hwanted, Option.bind_some,
        if_pos hconvertible, Option.filter_some_pos (by simpa using hnews)]
      rfl
    have happlied : ((Repair.convert fit.slot wanted.name type.name fit.goal?).perform? rules
        x.oracle (x.after (before.filterMap Remark.repair?))).isSome := by
      have hsome : (Option.bind _ (Repair.perform? rules x.oracle _)).isSome = true :=
        (Pass.isSome_perform? hs hc hremarks).trans hmending
      rw [hrepair, Option.bind_some] at hsome
      rw [x.after_eq]
      exact hsome
    obtain ⟨slot, v', made, call, hmends, hmakes, f, earlier, s, later, signature, place, hat, -,
      hwants, -⟩ := x.exists_made hremarks hrepair happlied
    cases hmends with
    | value unfit sought =>
      obtain rfl := Option.some.inj (sought.symm.trans hwanted)
      refine ⟨_, _, call, ⟨⟨after.filterMap Remark.repair?, ?_⟩, happlied⟩, hmakes, f, earlier, s,
        later, signature, hat, hwants.exists_root⟩
      rw [x.repairs_eq, hremarks, List.filterMap_append, List.filterMap_cons_some hrepair]

end Fixing

section Headers

variable {p : PlacedProgram} {f : PlacedFunction} {before : List PlacedStmt}
  {signature : Signature} {x : String}

theorem Scope.isSome_locals_declareAll {declared? : Option (Option BasicType)}
    (names : List String) : ∀ {S : Scope} {types : List (Option BasicType)},
      (S.locals x).isSome → ((S.declareAll declared? names types).locals x).isSome := by
  induction names with
  | nil => exact fun h => h
  | cons name names ih =>
    intro S types h
    refine ih ?_
    simp only [declare]
    split
    · rfl
    · exact h

theorem Stmt.isSome_locals_scope {S : Scope} (h : (S.locals x).isSome) (s : PlacedStmt) :
    ((s.scope S).locals x).isSome := by
  cases s with
  | var _ names => exact Scope.isSome_locals_declareAll names h
  | _ => exact h

/-- What is a variable at the start of a body is one all over the body. -/
theorem Program.isSome_locals_scopeAt
    (h : ((f.scope (signaturesOf p.functions) signature).locals x).isSome) :
    ((p.scopeAt f signature before).locals x).isSome := by
  unfold scopeAt
  generalize f.scope (signaturesOf p.functions) signature = S at h ⊢
  induction before generalizing S with
  | nil => exact h
  | cons s before ih => exact ih _ (Stmt.isSome_locals_scope h s)

/-- The function without its tags and its body. -/
def Function.shell {ε α : Type} (f : Function ε α) : Function Unit Unit :=
  { f.bare with body := [] }

theorem Function.signature_shell {ε α : Type} (f : Function ε α) :
    f.shell.signature = f.signature :=
  f.signature_bare

theorem Function.scope_shell {ε α : Type} (f : Function ε α)
    (signatures : String → Option Signature) (signature : Signature) :
    f.shell.scope signatures signature = f.scope signatures signature :=
  Scope.declareParams_bare _ _

theorem signaturesOf_shell {ε α : Type} (fs : List (Function ε α)) :
    signaturesOf (fs.map Function.shell) = signaturesOf fs := by
  funext name
  rw [signaturesOf, signaturesOf, ← List.map_reverse, List.find?_map, Option.map_map]
  congr 1
  funext f
  exact f.signature_shell

theorem map_shell_eq {ε α δ β : Type} {fs : List (Function ε α)} {gs : List (Function δ β)}
    (h : fs.map Function.bare = gs.map Function.bare) :
    fs.map Function.shell = gs.map Function.shell := by
  let close (f : Function Unit Unit) : Function Unit Unit := { f with body := [] }
  have hclosed := congrArg (List.map close) h
  rwa [List.map_map, List.map_map] at hclosed

end Headers

namespace Fixing

variable {rules : RuleTable} {source : String} (x : Fixing rules source)

/-- Fixing a text changes no declarations. -/
theorem map_shell {p : PlacedProgram}
    (hcode : x.tree.functions.map Function.bare = p.functions.map Function.bare) :
    x.fresh.functions.map Function.shell = p.functions.map Function.shell := by
  obtain ⟨t, report, W, -, ht, hpass⟩ := exists_pass x.parsed rules
  have hfixed : x.fixed = (Store.ofProgram x.tree).program.wrap W := by
    rw [fixed, x.repairs_eq, x.after_eq]
    rw [ht] at hpass
    exact hpass.represents.program
  have hwrap : x.fixed.functions.map Function.shell
      = (Store.ofProgram x.tree).program.functions.map Function.shell := by
    rw [hfixed, Program.wrap, List.map_map]
    rfl
  rw [← map_shell_eq x.code_eq, hwrap]
  exact map_shell_eq ((stored_program x.tree).sameText.functions.trans hcode)

theorem signatures_eq {p : PlacedProgram}
    (hcode : x.tree.functions.map Function.bare = p.functions.map Function.bare) :
    signaturesOf x.fresh.functions = signaturesOf p.functions := by
  rw [← signaturesOf_shell, x.map_shell hcode, signaturesOf_shell]

/-- What is said about the text, spans aside, is what is said about a numbered program with the same
code. -/
theorem map_forget_remarks {p : PlacedProgram} (hp : p.Numbered)
    (hcode : x.tree.functions.map Function.bare = p.functions.map Function.bare) :
    (Store.ofProgram x.tree).program.remarks.map Remark.forget = p.remarks.map Remark.forget := by
  have hs := stored_program x.tree
  have hforget := hs.numbers.numbered.forget_eq hp (hs.sameText.functions.trans hcode)
  rw [Program.remarks_forget, Program.remarks_forget, hforget]

end Fixing

/-- A function that has a parameter with the name of a type. -/
def capturing : PlacedProgram where
  functions := [⟨⟨0, ⟨0, 0⟩⟩, "f", [⟨"int64", ⟨"int32", ⟨0, 0⟩⟩, false, ⟨0, 0⟩⟩], [],
    [.var ⟨0, ⟨0, 0⟩⟩ ["x"] (some ⟨"int64", ⟨0, 0⟩⟩) [.name ⟨0, ⟨0, 0⟩⟩ "int64"]]⟩]
  trivia := ⟨[], []⟩

/-- A function that is declared again with another result. -/
def redeclaring : PlacedProgram where
  functions := [
    ⟨⟨0, ⟨0, 0⟩⟩, "f", [⟨"a", ⟨"int32", ⟨0, 0⟩⟩, false, ⟨0, 0⟩⟩], [⟨"int64", ⟨0, 0⟩⟩],
      [.ret ⟨0, ⟨0, 0⟩⟩ [.name ⟨0, ⟨0, 0⟩⟩ "a"]]⟩,
    ⟨⟨0, ⟨0, 0⟩⟩, "f", [⟨"a", ⟨"int32", ⟨0, 0⟩⟩, false, ⟨0, 0⟩⟩], [⟨"int8", ⟨0, 0⟩⟩],
      [.ret ⟨1, ⟨0, 0⟩⟩ [.literal ⟨1, ⟨0, 0⟩⟩ .int "1"]]⟩]
  trivia := ⟨[], []⟩

/-- Whether functions are those of `capturing`, at any positions. -/
def isCapturing : List (Function Empty Span) → Bool
  | [⟨_, "f", [⟨"int64", ⟨"int32", _⟩, false, _⟩], [],
      [.var _ ["x"] (some ⟨"int64", _⟩) [.name _ "int64"]]⟩] => true
  | _ => false

theorem map_bare_of_isCapturing {functions : List (Function Empty Span)}
    (h : isCapturing functions) :
    functions.map Function.bare = capturing.functions.map Function.bare := by
  unfold isCapturing at h
  split at h
  · rfl
  · cases h

/-- Whether functions are those of `redeclaring`, at any positions. -/
def isRedeclaring : List (Function Empty Span) → Bool
  | [⟨_, "f", [⟨"a", ⟨"int32", _⟩, false, _⟩], [⟨"int64", _⟩], [.ret _ [.name _ "a"]]⟩,
      ⟨_, "f", [⟨"a", ⟨"int32", _⟩, false, _⟩], [⟨"int8", _⟩], [.ret _ [.literal _ .int "1"]]⟩] =>
    true
  | _ => false

theorem map_bare_of_isRedeclaring {functions : List (Function Empty Span)}
    (h : isRedeclaring functions) :
    functions.map Function.bare = redeclaring.functions.map Function.bare := by
  unfold isRedeclaring at h
  split at h
  · rfl
  · cases h

/-- A text is fixed whatever the rules, from a tree that passes the checks the parse passes. -/
theorem Fixing.exists_of_check {text : String} {c : List (Function Empty Span) → Bool}
    (h : (parse text).toOption.any (fun tree => c tree.functions) = true)
    (rules : RuleTable) : ∃ x : Fixing rules text, c x.tree.functions = true := by
  obtain ⟨tree, hp, hcheck⟩ := exists_parse (fun tree => c tree.functions) h
  obtain ⟨x, -⟩ := Fixing.exists_fix hp rules
  obtain rfl : x.tree = tree := Except.ok.inj (x.parsed.symm.trans hp)
  exact ⟨x, hcheck⟩

theorem exists_fixing_capturing (rules : RuleTable) :
    ∃ x : Fixing rules "func f(int64 int32) \x7b\n\tvar x int64 = int64\n\x7d\n",
      x.tree.functions.map Function.bare = capturing.functions.map Function.bare := by
  refine (Fixing.exists_of_check (c := isCapturing) ?_ rules).imp fun x hx =>
    map_bare_of_isCapturing hx
  decide +kernel

theorem exists_fixing_redeclaring (rules : RuleTable) :
    ∃ x : Fixing rules
        "func f(a int32) int64 \x7b\n\treturn a\n\x7d\n\nfunc f(a int32) int8 \x7b\n\treturn 1\n\x7d\n",
      x.tree.functions.map Function.bare = redeclaring.functions.map Function.bare := by
  refine (Fixing.exists_of_check (c := isRedeclaring) ?_ rules).imp fun x hx =>
    map_bare_of_isRedeclaring hx
  decide +kernel

end Recast
