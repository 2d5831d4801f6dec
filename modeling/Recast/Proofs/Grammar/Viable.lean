import Recast.Proofs.Grammar.Predict

/-!
# Starts of files

Each symbol of the table stands for the words of some rule, and each step of reading a word is right
for them. So the words that are read to the end are the files (`stuck_eq_none_iff`). Where reading gets
stuck, what was read is the start of a file, and it is none with the next token (`viable_of_stuck`,
`not_viable_of_stuck`).
-/

namespace Recast

namespace Grammar

/-! ### Only files are read to the end -/

/-- The words that may stand for a symbol. What follows other parts of a rule is given by what it
makes of them. -/
def Symbol.Lang : Symbol → Word → Prop
  | word kind, w => w = [kind]
  | gap, w => Newlines w
  | operand, w => Expression w
  | tail, w => ∀ e, Expression e → Expression (e ++ w)
  | args, w => ∃ n, Arguments n w
  | moreArgs, w => Newlines w ∨ ∃ before after args n, w = before ++ .comma :: after ++ args ∧
      Newlines before ∧ Newlines after ∧ Arguments n args
  | moreExprs, w => ∀ n es, Expressions n es → ∃ m, Expressions m (es ++ w)
  | moreIdents, w => ∀ n names, Identifiers n names → ∃ m, Identifiers m (names ++ w)
  | declared, w => ∀ n names, Identifiers n names → Statement false (.var :: names ++ w)
  | values, w => Values w
  | returned, w => Statement false (.ret :: w)
  | targets, w => ∀ e, Expression e → Statement false (e ++ w)
  | moreTargets, w => ∀ n es, Expressions n es → Statement false (es ++ w)
  | body, w => ∃ n, Body false n w
  | moreBody, w => ∀ gap s, Terminators gap → Statement false s → ∃ n, Body false n (gap ++ s ++ w)
  | paramType, w => Parameter (.ident :: w)
  | params, w => Parameters w
  | moreParams, w => ∀ n ps, Separated NoGap Parameter n ps →
      ∃ m, Separated NoGap Parameter m (ps ++ w)
  | results, w => Results w
  | file, w => File false w

/-- The words that may stand for the symbols of a stack. -/
def Langs : Stack → Word → Prop
  | [], w => w = []
  | s :: K, w => ∃ u v, w = u ++ v ∧ s.Lang u ∧ Langs K v

theorem langs_append {K K' : Stack} {w : Word} :
    Langs (K ++ K') w ↔ ∃ u v, w = u ++ v ∧ Langs K u ∧ Langs K' v := by
  induction K generalizing w with
  | nil => exact ⟨fun h => ⟨[], w, rfl, rfl, h⟩, fun ⟨_, _, e, h, h'⟩ => by cases h; rwa [e]⟩
  | cons s K ih =>
    constructor
    · rintro ⟨u, v, rfl, hu, hv⟩
      obtain ⟨v, v', rfl, hv, hv'⟩ := ih.1 hv
      exact ⟨u ++ v, v', (List.append_assoc ..).symm, ⟨u, v, rfl, hu, hv⟩, hv'⟩
    · rintro ⟨_, v', rfl, ⟨u, v, rfl, hu, hv⟩, hv'⟩
      exact ⟨u, v ++ v', List.append_assoc .., hu, ih.2 ⟨v, v', rfl, hv, hv'⟩⟩

theorem langs_singleton {s : Symbol} {w : Word} : Langs [s] w ↔ s.Lang w :=
  ⟨fun ⟨u, v, e, hu, hv⟩ => by cases hv; rwa [e, List.append_nil],
    fun h => ⟨w, [], (List.append_nil w).symm, h, rfl⟩⟩

/-- The stack ends with a symbol. -/
theorem langs_concat {K : Stack} {s : Symbol} {w : Word} :
    Langs (K ++ [s]) w ↔ ∃ u v, w = u ++ v ∧ Langs K u ∧ s.Lang v := by
  simp only [langs_append, langs_singleton]

/-- The symbols of which there may be nothing are those of which there may be the empty word. -/
theorem Symbol.lang_nil {s : Symbol} (h : s.optional) : s.Lang [] := by
  have hnil : Newlines [] := nofun
  cases s with
  | gap => exact hnil
  | tail => exact fun e he => by rwa [List.append_nil]
  | args => exact ⟨0, .none⟩
  | moreArgs => exact .inl hnil
  | moreExprs | moreIdents | moreParams => exact fun n _ h => ⟨n, by rwa [List.append_nil]⟩
  | values => exact .none
  | returned => exact .done
  | targets => exact fun e he => by rw [List.append_nil]; exact .expression he
  | body => exact ⟨0, .none nofun⟩
  | moreBody => exact fun gap s hg hs => ⟨1, by rw [List.append_nil]; exact .last hg hs⟩
  | params => exact .none
  | results => exact .none
  | file => exact .none nofun
  | _ => cases h

/-- There is a word for every symbol. -/
theorem Symbol.exists_lang (s : Symbol) : ∃ w, s.Lang w := by
  have hident : Expression [.ident] := .unary (.operand (.primary .ident))
  by_cases h : s.optional
  · exact ⟨[], s.lang_nil h⟩
  · cases s with
    | word kind => exact ⟨[kind], rfl⟩
    | operand => exact ⟨[.ident], hident⟩
    | declared =>
      have htype : Identifier [.ident] := rfl
      exact ⟨[.ident], fun n names hns => by
        simpa using Statement.declaration hns (.inr htype) .none (.inr (.inl (by simp)))⟩
    | moreTargets => exact ⟨[.assign, .ident], fun n es hes => .assignment hes (.one hident)⟩
    | paramType => exact ⟨[.ident], .single⟩
    | _ => exact absurd rfl h

theorem exists_langs (K : Stack) : ∃ w, Langs K w := by
  induction K with
  | nil => exact ⟨[], rfl⟩
  | cons s K ih =>
    obtain ⟨v, hv⟩ := ih
    obtain ⟨u, hu⟩ := s.exists_lang
    exact ⟨u ++ v, u, v, rfl, hu, hv⟩

/-! ### The table is right -/

section Sound

variable {kind : TokenKind} {K : Stack} {w : Word}

theorem lang_afterOperand (h : afterOperand kind = some K) (hw : Langs K w) :
    Expression (kind :: w) := by
  have htail {u : Word} (hu : Primary u) {v : Word} (hv : Symbol.tail.Lang v) :
      Expression (u ++ v) := hv u (.unary (.operand (.primary hu)))
  unfold afterOperand at h
  split at h <;> cases h
  · exact htail .literal (langs_singleton.1 hw)
  · exact htail .ident (langs_singleton.1 hw)
  · obtain ⟨e, _, rfl, he, _, v, rfl, rfl, hv⟩ := hw
    simpa using htail (.paren he) (langs_singleton.1 hv)
  · exact (langs_singleton.1 hw : Expression w).neg

theorem expressions_snoc {n : Nat} {es between e : Word} (hes : Expressions n es)
    (hb : Newlines between) (he : Expression e) :
    Expressions (n + 1) (es ++ .comma :: between ++ e) := Separated.snoc hes hb he

/-- An expression and what follows the first one of a list are a list. -/
theorem expressions_of_langs (hw : Langs [.operand, .moreExprs] w) : ∃ n, Expressions n w := by
  obtain ⟨e, v, rfl, he, hv⟩ := hw
  exact langs_singleton.1 hv 1 e (.one he)

theorem lang_afterStatement (h : afterStatement kind = some K) (hw : Langs K w) :
    Statement false (kind :: w) := by
  unfold afterStatement at h
  split at h
  · cases h
    obtain ⟨_, _, rfl, rfl, ns, v, rfl, hns, hv⟩ := hw
    obtain ⟨n, hn⟩ := hns 1 [.ident] (.one rfl)
    exact langs_singleton.1 hv n _ hn
  · cases h
    exact langs_singleton.1 hw
  · obtain ⟨K', hK', rfl⟩ := Option.map_eq_some_iff.1 h
    obtain ⟨u, v, rfl, hu, hv⟩ := langs_concat.1 hw
    exact hv (kind :: u) (lang_afterOperand hK' hu)

theorem newlines_cons (hw : Newlines w) : Newlines (.newline :: w) := by
  rintro kind (_ | ⟨_, h⟩)
  · rfl
  · exact hw kind h

theorem terminators_cons (hk : Terminator kind) (hw : Terminators w) : Terminators (kind :: w) := by
  rintro kind' (_ | ⟨_, h⟩)
  · exact hk
  · exact hw kind' h

theorem Body.terminator {n : Nat} (hk : Terminator kind) (h : Body false n w) :
    Body false n (kind :: w) := by
  cases h with
  | none hg => exact .none (terminators_cons hk hg)
  | last hg hw => exact .last (terminators_cons hk hg) hw
  | cons hg hw hk' hr => exact .cons (terminators_cons hk hg) hw hk' hr

theorem File.terminator (hk : Terminator kind) (h : File false w) : File false (kind :: w) := by
  cases h with
  | none hg => exact .none (terminators_cons hk hg)
  | cons hg hw hr => exact .cons (terminators_cons hk hg) hw hr

/-- What follows a token that ends a statement. -/
theorem lang_moreBody (hk : Terminator kind) (hw : Symbol.body.Lang w) :
    Symbol.moreBody.Lang (kind :: w) := by
  obtain ⟨n, hn⟩ := hw
  exact fun gap s hg hs => ⟨n + 1, .cons hg hs hk hn⟩

theorem lang_tail (h : Symbol.tail.after kind = some K) (hw : Langs K w) :
    Symbol.tail.Lang (kind :: w) := by
  cases kind with
  | op op =>
    cases h
    obtain ⟨newlines, v, rfl, hn, hv⟩ := hw
    exact fun e he => by simpa using Expression.binary he hn (langs_singleton.1 hv)
  | leftParen =>
    cases h
    obtain ⟨newlines, _, rfl, hn, args, _, rfl, ⟨m, ha⟩, _, v, rfl, rfl, hv⟩ := hw
    exact fun e he => by simpa using langs_singleton.1 hv _ (he.call hn ha)
  | _ => cases h

theorem lang_moreArgs (h : Symbol.moreArgs.after kind = some K) (hw : Langs K w) :
    Symbol.moreArgs.Lang (kind :: w) := by
  cases kind with
  | newline =>
    cases h
    rcases langs_singleton.1 hw with hw | ⟨before, after, args, n, rfl, hb, ha, hargs⟩
    · exact .inl (newlines_cons hw)
    · exact .inr ⟨.newline :: before, after, args, n, rfl, newlines_cons hb, ha, hargs⟩
  | comma =>
    cases h
    obtain ⟨after, v, rfl, ha, hv⟩ := hw
    obtain ⟨n, hargs⟩ := langs_singleton.1 hv
    exact .inr ⟨[], after, v, n, rfl, nofun, ha, hargs⟩
  | _ => cases h

theorem lang_args (h : Symbol.args.after kind = some K) (hw : Langs K w) :
    Symbol.args.Lang (kind :: w) := by
  obtain ⟨K', hK', rfl⟩ := Option.map_eq_some_iff.1 h
  obtain ⟨u, v, rfl, hu, hv⟩ := langs_concat.1 hw
  have he := lang_afterOperand hK' hu
  rcases hv with hv | ⟨before, after, args, n, rfl, hb, ha, hargs⟩
  · exact ⟨1, .last he hv⟩
  · exact ⟨n + 1, by simpa using Arguments.cons he hb ha hargs⟩

theorem lang_declared (h : Symbol.declared.after kind = some K) (hw : Langs K w) :
    Symbol.declared.Lang (kind :: w) := by
  cases kind with
  | ident =>
    cases h
    intro n names hns
    have htype : Identifier [.ident] := rfl
    simpa using Statement.declaration hns (.inr htype) (langs_singleton.1 hw)
      (.inr (.inl (by simp)))
  | assign =>
    cases h
    obtain ⟨n, hw⟩ := expressions_of_langs hw
    intro m names hns
    have hstatement : Statement false (.var :: names ++ [] ++ .assign :: w) :=
      .declaration hns (.inl rfl) (.some hw) (.inr (.inr (by simp)))
    rwa [List.append_nil] at hstatement
  | _ => cases h

theorem lang_targets (h : Symbol.targets.after kind = some K) (hw : Langs K w) :
    Symbol.targets.Lang (kind :: w) := by
  cases kind with
  | comma =>
    cases h
    obtain ⟨between, _, rfl, hb, e', v, rfl, he', hv⟩ := hw
    intro e he
    simpa using langs_singleton.1 hv _ _ (expressions_snoc (.one he) hb he')
  | assign =>
    cases h
    obtain ⟨n, hw⟩ := expressions_of_langs hw
    exact fun e he => .assignment (.one he) hw
  | _ => cases h

theorem lang_moreTargets (h : Symbol.moreTargets.after kind = some K) (hw : Langs K w) :
    Symbol.moreTargets.Lang (kind :: w) := by
  cases kind with
  | comma =>
    cases h
    obtain ⟨between, _, rfl, hb, e, v, rfl, he, hv⟩ := hw
    intro n es hes
    simpa using langs_singleton.1 hv _ _ (expressions_snoc hes hb he)
  | assign =>
    cases h
    obtain ⟨n, hw⟩ := expressions_of_langs hw
    exact fun m es hes => .assignment hes hw
  | _ => cases h

theorem lang_body (h : Symbol.body.after kind = some K) (hw : Langs K w) :
    Symbol.body.Lang (kind :: w) := by
  have hstatement (h : (afterStatement kind).map (· ++ [Symbol.moreBody]) = some K) :
      Symbol.body.Lang (kind :: w) := by
    obtain ⟨K', hK', rfl⟩ := Option.map_eq_some_iff.1 h
    obtain ⟨u, v, rfl, hu, hv⟩ := langs_concat.1 hw
    exact hv [] (kind :: u) nofun (lang_afterStatement hK' hu)
  cases kind with
  | newline =>
    cases h
    obtain ⟨n, hn⟩ := langs_singleton.1 hw
    exact ⟨n, hn.terminator (.inl rfl)⟩
  | semicolon =>
    cases h
    obtain ⟨n, hn⟩ := langs_singleton.1 hw
    exact ⟨n, hn.terminator (.inr rfl)⟩
  | _ => exact hstatement h

theorem lang_file (h : Symbol.file.after kind = some K) (hw : Langs K w) :
    Symbol.file.Lang (kind :: w) := by
  cases kind with
  | newline =>
    cases h
    exact File.terminator (.inl rfl) (langs_singleton.1 hw)
  | semicolon =>
    cases h
    exact File.terminator (.inr rfl) (langs_singleton.1 hw)
  | func =>
    cases h
    obtain ⟨_, _, rfl, rfl, _, _, rfl, rfl, ps, _, rfl, hps, _, _, rfl, rfl, rs, _, rfl, hrs, _, _,
      rfl, rfl, body, _, rfl, ⟨n, hbody⟩, _, rest, rfl, rfl, hrest⟩ := hw
    have hempty : Terminators [] := nofun
    have hfile := File.cons hempty (.mk hps hrs hbody) (langs_singleton.1 hrest)
    simpa [Symbol.Lang] using hfile
  | _ => cases h

/-- What comes after the first token of a symbol makes a word of it. -/
theorem lang_after {s : Symbol} (h : s.after kind = some K) (hw : Langs K w) :
    s.Lang (kind :: w) := by
  cases s with
  | word kind' =>
    rw [Symbol.after_word] at h
    split at h <;> cases h
    cases hw
    subst kind
    rfl
  | operand => exact lang_afterOperand h hw
  | tail => exact lang_tail h hw
  | args => exact lang_args h hw
  | moreArgs => exact lang_moreArgs h hw
  | declared => exact lang_declared h hw
  | targets => exact lang_targets h hw
  | moreTargets => exact lang_moreTargets h hw
  | body => exact lang_body h hw
  | file => exact lang_file h hw
  | gap =>
    cases kind <;> cases h
    exact newlines_cons (langs_singleton.1 hw)
  | moreExprs =>
    cases kind <;> cases h
    obtain ⟨between, _, rfl, hb, e, v, rfl, he, hv⟩ := hw
    intro n es hes
    simpa using langs_singleton.1 hv _ _ (expressions_snoc hes hb he)
  | moreIdents =>
    cases kind <;> cases h
    obtain ⟨_, v, rfl, rfl, hv⟩ := hw
    intro n names hns
    simpa using langs_singleton.1 hv _ _ (Separated.snoc hns rfl rfl)
  | values =>
    cases kind <;> cases h
    obtain ⟨n, hw⟩ := expressions_of_langs hw
    exact .some hw
  | returned =>
    obtain ⟨K', hK', rfl⟩ := Option.map_eq_some_iff.1 h
    obtain ⟨u, v, rfl, hu, hv⟩ := langs_concat.1 hw
    obtain ⟨n, hn⟩ := hv 1 (kind :: u) (.one (lang_afterOperand hK' hu))
    exact .ret hn
  | moreBody =>
    cases kind <;> cases h
    · exact lang_moreBody (.inl rfl) (langs_singleton.1 hw)
    · exact lang_moreBody (.inr rfl) (langs_singleton.1 hw)
  | paramType =>
    cases kind <;> cases h
    · cases hw
      exact .single
    · cases langs_singleton.1 hw
      exact .variadic
  | params =>
    cases kind <;> cases h
    obtain ⟨u, v, rfl, hu, hv⟩ := hw
    obtain ⟨n, hn⟩ := langs_singleton.1 hv 1 _ (.one hu)
    exact .some hn
  | moreParams =>
    cases kind <;> cases h
    obtain ⟨_, _, rfl, rfl, u, v, rfl, hu, hv⟩ := hw
    intro n ps hps
    simpa using langs_singleton.1 hv _ _ (Separated.snoc hps rfl hu)
  | results =>
    cases kind <;> cases h
    · cases hw
      exact .one
    · obtain ⟨_, _, rfl, rfl, names, _, rfl, hns, hw⟩ := hw
      obtain ⟨n, hn⟩ := hns 1 [.ident] (.one rfl)
      cases langs_singleton.1 hw
      exact .many hn

/-- What comes after the next token makes a word of the stack. -/
theorem langs_step {K' : Stack} (h : step K kind = some K') (hw : Langs K' w) :
    Langs K (kind :: w) := by
  induction K with
  | nil => cases h
  | cons s K ih =>
    rw [step] at h
    split at h
    · rename_i β hs
      cases h
      obtain ⟨u, v, rfl, hu, hv⟩ := langs_append.1 hw
      exact ⟨kind :: u, v, rfl, lang_after hs hu, hv⟩
    · split at h
      · rename_i hs
        exact ⟨[], kind :: w, rfl, s.lang_nil hs, ih h⟩
      · cases h

theorem langs_nil (h : K.all Symbol.optional) : Langs K [] := by
  induction K with
  | nil => rfl
  | cons s K ih =>
    simp only [List.all_cons, Bool.and_eq_true] at h
    exact ⟨[], [], rfl, s.lang_nil h.1, ih h.2⟩

/-- Words that are read to the end stand for the stack. -/
theorem langs_of_stuck (h : stuck K w = none) : Langs K w := by
  induction w generalizing K with
  | nil =>
    refine langs_nil ?_
    by_contra hK
    simp [stuck, hK] at h
  | cons kind w ih =>
    rw [stuck] at h
    split at h
    · rename_i K' hK
      exact langs_step hK (ih h)
    · cases h

/-- The files are the words that are read to the end. -/
theorem stuck_eq_none_iff : stuck [.file] w = none ↔ File false w :=
  ⟨fun h => langs_singleton.1 (langs_of_stuck h), File.read⟩

end Sound

/-! ### Where reading gets stuck -/

section Stuck

variable {K : Stack} {u r : Word}

theorem length_stuck_le {w : Word} (h : stuck K w = some r) : r.length ≤ w.length := by
  induction w generalizing K with
  | nil =>
    rw [stuck] at h
    split at h <;> cases h
    exact Nat.le_refl 0
  | cons kind w ih =>
    rw [stuck] at h
    split at h
    · exact Nat.le_succ_of_le (ih h)
    · cases h
      exact Nat.le_refl _

/-- What was read is the start of a word of the stack. -/
theorem exists_langs_of_stuck (h : stuck K (u ++ r) = some r) : ∃ more, Langs K (u ++ more) := by
  induction u generalizing K with
  | nil => exact exists_langs K
  | cons kind u ih =>
    rw [List.cons_append, stuck] at h
    split at h
    · rename_i K' hK
      obtain ⟨more, hmore⟩ := ih h
      exact ⟨more, langs_step hK hmore⟩
    · have := congrArg List.length (Option.some.inj h)
      simp only [List.length_cons, List.length_append] at this
      omega

/-- With the token in front of which reading gets stuck it gets stuck there whatever follows. -/
theorem stuck_of_stuck {kind : TokenKind} (h : stuck K (u ++ kind :: r) = some (kind :: r))
    (r' : Word) : stuck K (u ++ kind :: r') = some (kind :: r') := by
  induction u generalizing K with
  | nil =>
    rw [List.nil_append, stuck] at h ⊢
    split at h
    · have := length_stuck_le h
      simp only [List.length_cons] at this
      omega
    · rfl
  | cons kind' u ih =>
    rw [List.cons_append, stuck] at h ⊢
    split at h
    · exact ih h
    · have := congrArg List.length (Option.some.inj h)
      simp only [List.length_cons, List.length_append] at this
      omega

/-- Where reading gets stuck, what was read is the start of a file. -/
theorem viable_of_stuck (h : stuck [.file] (u ++ r) = some r) : Viable false u := by
  obtain ⟨more, hmore⟩ := exists_langs_of_stuck h
  exact ⟨more, langs_singleton.1 hmore⟩

/-- Where reading gets stuck, what was read and the next token are not the start of a file. -/
theorem not_viable_of_stuck {kind : TokenKind}
    (h : stuck [.file] (u ++ kind :: r) = some (kind :: r)) : ¬ Viable false (u ++ [kind]) := by
  rintro ⟨more, hmore⟩
  rw [List.append_assoc, List.singleton_append] at hmore
  have := hmore.read.symm.trans (stuck_of_stuck h more)
  cases this

end Stuck

end Grammar

end Recast
