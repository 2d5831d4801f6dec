import Recast.Proofs.Store.Parsed
import Recast.Proofs.Types.Sites
import Recast.Proofs.Wording.Classify
import Recast.Proofs.Wording.Phrases

/-!
# The classifier's verdict on what the checker says

Every message about a program that was read from a text quotes texts of the language only. So the
standard classifier finds in it the clash that the checker saw, with the names of the two types, and
finds none where the checker saw something else.
-/

namespace Recast

/-- The clash that a remark reports, if a conversion can mend it. -/
def Remark.clash? : Remark → Option Clash
  | unfit fit _ _ type target =>
    if type.isUntyped then none else some (.of fit.destination.category target.name type.name)
  | operands _ _ _ _ l r => some (.operands l.name r.name)
  | other _ => none

/-- A remark whose message quotes texts of the language only, and whose complaint says what the
remark is. -/
structure Remark.Fair (r : Remark) : Prop where
  complaint : r.finding.complaint.Fair
  clash : r.finding.complaint.clash? = r.clash?

/-- What is said about a node is fair. -/
abbrev FairAll (rs : List Remark) : Prop := ∀ r ∈ rs, r.Fair

theorem Remark.Fair.other {f : Finding} (h : f.complaint.Fair) (hc : f.complaint.clash? = none) :
    FairAll [.other f] := List.forall_mem_singleton.2 ⟨h, hc⟩

theorem FairAll.nil : FairAll [] := fun _ hr => absurd hr List.not_mem_nil

theorem FairAll.append {rs qs : List Remark} (h : FairAll rs) (h' : FairAll qs) :
    FairAll (rs ++ qs) := List.forall_mem_append.2 ⟨h, h'⟩

theorem FairAll.flatMap {β : Type} {f : β → List Remark} {xs : List β}
    (h : ∀ x ∈ xs, FairAll (f x)) : FairAll (xs.flatMap f) := fun r hr => by
  obtain ⟨x, hx, hr⟩ := List.mem_flatMap.1 hr
  exact h x hx r hr

/-! ### Expressions -/

section Expressions

variable {S : Scope} {e : PlacedExpr}

/-- Only expressions of untyped kinds are called constants. -/
theorem Scope.isUntyped_of_modeOf {type : BasicType} (h : S.modeOf e type = .constant) :
    type.isUntyped := by
  unfold modeOf at h
  split at h
  · assumption
  · split at h <;> cases h

theorem Scope.quote_fair {m : Nat} (h : e.Printable m) (type : BasicType) :
    (S.quote e type).Fair :=
  ⟨h.phrase, isUntyped_of_modeOf⟩

theorem Scope.nameRemarks_fair {tag : Placed} {text : String} (h : IsName text) :
    FairAll (S.nameRemarks tag text) := by
  unfold nameRemarks
  split
  · exact .nil
  · split
    · exact .other h.phrase rfl
    · split <;> exact .other h.phrase rfl

theorem Scope.fitRemarks_fair {value : PlacedExpr} {target? : Option BasicType} {fit : Fit}
    (hv : value.Printable 0) (hd : fit.destination.Fair) :
    FairAll (S.fitRemarks value target? fit) := by
  intro r hr
  obtain ⟨type, target, -, -, -, rfl⟩ := mem_fitRemarks hr
  exact ⟨⟨quote_fair hv type, hd⟩, rfl⟩

theorem Scope.fitsRemarks_fair {fit : Nat → Option BasicType → Fit} {i : Nat}
    {values : List PlacedExpr} {targets : List (Option BasicType)}
    (hv : ∀ e ∈ values, e.Printable 0) (hd : ∀ i target?, (fit i target?).destination.Fair) :
    FairAll (S.fitsRemarks fit i values targets) := by
  intro r hr
  obtain ⟨k, value, target?, hk, -, hr⟩ := mem_fitsRemarks hr
  exact fitRemarks_fair (hv value (List.mem_of_getElem? hk)) (hd _ _) r hr

theorem Scope.operandRemarks_fair {tag : Placed} {op : BinaryOp} {left right : PlacedExpr}
    (h : (Expr.binary tag op left right).Printable 0) :
    FairAll (S.operandRemarks tag op left right) := by
  have hl : left.Printable 0 := h.child (by simp [Expr.children])
  have hr : right.Printable 0 := h.child (by simp [Expr.children])
  unfold operandRemarks
  split
  · split
    · split
      · exact .nil
      · exact .other ⟨phrase_symbol op, quote_fair hl _⟩ rfl
    · split
      · exact .other hl.phrase rfl
      · split
        · exact .other hr.phrase rfl
        · exact List.forall_mem_singleton.2 ⟨h.phrase, rfl⟩
  · exact .nil

theorem Scope.conversionRemarks_fair {tag : Placed} {target : BasicType} {args : List PlacedExpr}
    (h : ∀ e ∈ args, e.Printable 0) : FairAll (S.conversionRemarks tag target args) := by
  unfold conversionRemarks
  split
  · split
    · split
      · exact .nil
      · exact .other (quote_fair (h _ List.mem_cons_self) _) rfl
    · exact .nil
  · exact .other trivial rfl
  · exact .other trivial rfl

theorem Scope.callRemarks_fair {tag : Placed} {function : String} {signature : Signature}
    {args : List PlacedExpr} (hf : Phrase function.toList) (h : ∀ e ∈ args, e.Printable 0) :
    FairAll (S.callRemarks tag function signature args) := by
  refine FairAll.append ?_ (fitsRemarks_fair h fun _ _ => hf)
  unfold argumentCountRemarks
  split
  · exact .other hf rfl
  · split
    · exact .nil
    · exact List.forall_mem_map.2 fun extra _ => ⟨hf, rfl⟩

theorem Expr.ownRemarks_fair (h : e.Printable 0) : FairAll (e.ownRemarks S) := by
  have minus : Phrase "-".toList := .of_not_mem (by decide) (by decide) (by decide)
  cases e with
  | hole | literal | paren => exact .nil
  | name => exact Scope.nameRemarks_fair h
  | neg _ operand =>
    rw [ownRemarks, Scope.negationRemarks]
    split
    · split
      · exact .nil
      · exact .other ⟨minus, Scope.quote_fair h.2 _⟩ rfl
    · exact .nil
  | binary => exact Scope.operandRemarks_fair h
  | call _ callee args =>
    have hc := h.1.phrase
    have hargs := Expr.allPrintable_iff.1 h.2.2
    rw [ownRemarks]
    split
    · rename_i type? _
      refine .other ⟨hc, fun q hq => ?_⟩ rfl
      obtain ⟨type, -, rfl⟩ := Option.map_eq_some_iff.1 hq
      exact Scope.quote_fair h.1 type
    · exact Scope.conversionRemarks_fair hargs
    · exact Scope.callRemarks_fair hc hargs
    · exact .nil
    · exact .other hc rfl
    · exact .other ⟨hc, by simp⟩ rfl

theorem Expr.remarks_fair (h : e.Printable 0) : FairAll (e.remarks S) := by
  intro r hr
  obtain ⟨part, hp, hr⟩ := Expr.mem_remarks hr
  exact Expr.ownRemarks_fair (h.part hp) r hr

end Expressions

/-! ### Statements and functions -/

section Statements

variable {S : Scope} {results own : List (Option BasicType)}

theorem TypeRef.remarks_fair {t : TypeRef String} (h : IsName t.name) : FairAll t.remarks := by
  unfold remarks
  split
  · exact .nil
  · exact .other h.phrase rfl

theorem Scope.declareRemarks_fair {span : Span} {declared? : Option (Option BasicType)}
    {names : List String} (h : ∀ name ∈ names, IsName name) :
    ∀ {S : Scope} {types : List (Option BasicType)},
      FairAll (S.declareRemarks span declared? names types) := by
  induction names with
  | nil => exact .nil
  | cons name names ih =>
    intro S types
    refine FairAll.append ?_ (ih fun x hx => h x (List.mem_cons_of_mem _ hx))
    split
    · exact .other (h name List.mem_cons_self).phrase rfl
    · exact .nil

theorem Expr.targetRemarks_fair {e : PlacedExpr} {m : Nat} (h : e.Printable m) :
    FairAll (e.targetRemarks S) := by
  induction e using Expr.inductArgs generalizing m with
  | hole => exact h.elim
  | name => exact Scope.nameRemarks_fair h
  | paren _ _ ih => exact ih h
  | _ => exact .other h.phrase rfl

theorem Stmt.ownRemarks_fair {s : PlacedStmt} (h : s.Printable) :
    FairAll (s.ownRemarks S results own) := by
  cases s with
  | hole => exact .nil
  | var tag names type? values =>
    obtain ⟨⟨-, -, hn⟩, ht, -, -, hv⟩ := h
    refine (FairAll.flatMap fun t hm => TypeRef.remarks_fair ?_).append
      (FairAll.append ?_ (Scope.declareRemarks_fair hn))
    · exact ht t (Option.mem_toList.1 hm)
    · split
      · exact .other trivial rfl
      · exact .flatMap fun _ _ => Scope.fitsRemarks_fair hv fun _ _ => trivial
  | assign tag targets values =>
    obtain ⟨⟨-, -, ht⟩, -, -, hv⟩ := h
    refine (FairAll.flatMap fun e he => Expr.targetRemarks_fair (ht e he)).append ?_
    split
    · exact Scope.fitsRemarks_fair hv fun _ _ => trivial
    · exact .other trivial rfl
  | ret tag values =>
    rw [ownRemarks]
    split
    · exact Scope.fitsRemarks_fair h.printable fun _ _ => trivial
    · exact .other trivial rfl
  | expr tag e =>
    rw [ownRemarks]
    split
    · exact .nil
    · refine .other ⟨h.phrase, fun q hq => ?_⟩ rfl
      obtain ⟨type, -, rfl⟩ := Option.map_eq_some_iff.1 hq
      exact Scope.quote_fair h type

theorem Stmt.remarks_fair {s : PlacedStmt} (h : s.Printable) :
    FairAll (s.remarks S results own) := by
  intro r hr
  rcases Stmt.mem_remarks hr with hr | ⟨e, he, hr⟩
  · exact Stmt.ownRemarks_fair h r hr
  · exact Expr.remarks_fair (h.child (s.values_subset e he)) r hr

theorem Function.declarationRemarks_fair {f : PlacedFunction} (h : f.Printable)
    (earlier : List PlacedFunction) : FairAll (f.declarationRemarks earlier) := by
  refine FairAll.append (.append (.flatMap fun p hp => ?_) (.flatMap fun t ht => ?_)) ?_
  · exact TypeRef.remarks_fair (h.params.2 p hp).2
  · exact TypeRef.remarks_fair (h.results.2 t ht)
  · split
    · exact .other h.name.phrase rfl
    · exact .nil

end Statements

/-- All remarks about a program that can be printed are fair. -/
theorem Program.remarks_fair {p : PlacedProgram} (h : ∀ f ∈ p.functions, f.Printable) :
    FairAll p.remarks := by
  intro r hr
  rcases Program.mem_remarks hr with
    ⟨f, hf, earlier, hr⟩ | ⟨f, before, s, after, signature, hat, hr⟩
  · exact Function.declarationRemarks_fair (h f hf) earlier r hr
  · refine Stmt.remarks_fair ((h f hat.function).body.2 s ?_) r hr
    simp [hat.body]

/-- The checker makes the remarks of a program that was read from a text, and the standard classifier
tells from the message of each remark which clash it reports, if it reports one. -/
theorem classify_checked {source : String} {tree : SourceProgram}
    (h : parse source = .ok tree) :
    let p := (Store.ofProgram tree).program
    p.check.diagnostics = p.remarks.map (fun r => r.finding.diagnostic) ∧
      ∀ r ∈ p.remarks, Classifier.standard.classify r.finding.diagnostic.message = r.clash? := by
  have hs := stored_program tree
  refine ⟨?_, fun r hr => ?_⟩
  · rw [Checked.diagnostics, hs.represents.check_describes.findings, List.map_map]
    rfl
  · have hr := Program.remarks_fair (hs.printable h) r hr
    exact (Classifier.classify_message hr.complaint).trans hr.clash

/-- The standard classifier finds a clash in a message of the checker just when the message is about
a value of a typed kind that does not fit or about operands of two types. The clash has the category
of the place that the value does not fit, and names the two types as the message does. -/
theorem classify_finding {source : String} {tree : SourceProgram} (h : parse source = .ok tree) :
    ∀ f ∈ (Store.ofProgram tree).program.check.findings,
      Classifier.standard.classify f.diagnostic.message =
        match f.complaint with
        | .unfit value target destination =>
          if value.type.isUntyped then none
          else some (.of destination.category target.name value.type.name)
        | .mismatchedOperands _ left right => some (.operands left.name right.name)
        | _ => none := by
  intro f hf
  have hs := stored_program tree
  rw [hs.represents.check_describes.findings] at hf
  obtain ⟨r, hr, rfl⟩ := List.mem_map.1 hf
  refine (Classifier.classify_message (Program.remarks_fair (hs.printable h) r hr).complaint).trans ?_
  cases r.finding.complaint <;> rfl

theorem classify_finding_declaration :
    ∃ tree, parse "func f(a int8) \x7b\n\tvar b int16 = a\n\x7d\n" = .ok tree ∧
      ∀ f ∈ (Store.ofProgram tree).program.check.findings, ∀ value target,
        f.complaint = .unfit value target .declaration → value.type.isUntyped = false →
          Classifier.standard.classify f.diagnostic.message
            = some (.declaration target.name value.type.name) := by
  obtain ⟨tree, hp, -⟩ := exists_parse (fun _ => true)
    (by decide +kernel : (parse "func f(a int8) \x7b\n\tvar b int16 = a\n\x7d\n").toOption.any
      (fun _ => true) = true)
  refine ⟨tree, hp, fun f hf value target hc hu => ?_⟩
  rw [classify_finding hp f hf, hc]
  simp only [hu, Bool.false_eq_true, if_false]
  rfl

end Recast
