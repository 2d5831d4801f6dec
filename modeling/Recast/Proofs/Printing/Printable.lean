import Recast.Proofs.Lexing.Scan

/-!
# Trees that read back

A tree is printable when its text can be read: its names and literals are spelled as such, its lists
are not too long, and its operators bind as its shape says. The parser makes printable trees only.
-/

namespace Recast

variable {ε α β : Type}

open Lexer (Spells)

/-- The text is the spelling of a name. -/
def IsName (text : String) : Prop := Spells (.token .ident) text.toList

mutual

/-- The expression can be printed where operators have to bind at least as tightly as `m`. -/
def Expr.Printable (m : Nat) : Expr ε α → Prop
  | .hole _ => False
  | .literal _ kind lexeme => Spells (.token (.literal kind)) lexeme.toList
  | .name _ text => IsName text
  | .paren _ inner => inner.Printable 0
  | .neg _ operand => m ≤ 6 ∧ operand.Printable 6
  | .binary _ op left right =>
    m ≤ op.precedence ∧ left.Printable op.precedence ∧ right.Printable (op.precedence + 1)
  | .call _ callee args =>
    callee.Printable 7 ∧ args.length ≤ maxItems ∧ Expr.AllPrintable args

/-- The expressions can be printed as arguments. -/
def Expr.AllPrintable : List (Expr ε α) → Prop
  | [] => True
  | e :: es => e.Printable 0 ∧ Expr.AllPrintable es

end

namespace Expr

@[simp] theorem allPrintable_iff {es : List (Expr ε α)} :
    AllPrintable es ↔ ∀ e ∈ es, e.Printable 0 := by
  induction es with
  | nil => simp [AllPrintable]
  | cons e es ih => rw [AllPrintable, ih, List.forall_mem_cons]

theorem Printable.mono {m n : Nat} {e : Expr ε α} (h : e.Printable n) (hm : m ≤ n) :
    e.Printable m := by
  cases e with
  | hole => exact h
  | literal | name | paren | call => simpa only [Printable] using h
  | neg => exact ⟨Nat.le_trans hm h.1, h.2⟩
  | binary => exact ⟨Nat.le_trans hm h.1, h.2⟩

/-- Parts of a printable expression are printable. -/
theorem Printable.child {m : Nat} {e child : Expr ε α} (h : e.Printable m)
    (hc : child ∈ e.children) : child.Printable 0 := by
  cases e with
  | hole | literal | name => cases hc
  | paren =>
    obtain rfl := List.mem_singleton.1 hc
    exact h
  | neg =>
    obtain rfl := List.mem_singleton.1 hc
    exact h.2.mono (Nat.zero_le _)
  | binary =>
    rcases List.mem_cons.1 hc with rfl | hc
    · exact h.2.1.mono (Nat.zero_le _)
    · obtain rfl := List.mem_singleton.1 hc
      exact h.2.2.mono (Nat.zero_le _)
  | call =>
    rcases List.mem_cons.1 hc with rfl | hc
    · exact h.1.mono (Nat.zero_le _)
    · exact allPrintable_iff.1 h.2.2 _ hc

theorem Printable.part {m : Nat} {e part : Expr ε α} (h : e.Printable m) (hp : part ∈ e.parts) :
    part.Printable 0 :=
  forall_parts (fun _ h _ hc => h.child hc) (h.mono (Nat.zero_le _)) hp

@[simp] theorem printable_retag {f : α → β} {m : Nat} {e : Expr ε α} :
    (e.retag f).Printable m ↔ e.Printable m := by
  induction e generalizing m with
  | hole | literal | name => rfl
  | paren _ _ ih => exact ih
  | neg _ _ ih => simp [retag, Printable, ih]
  | binary _ _ _ _ ihl ihr => simp [retag, Printable, ihl, ihr]
  | call _ _ args ihc iha =>
    have hargs : (∀ e ∈ args, (e.retag f).Printable 0) ↔ ∀ e ∈ args, e.Printable 0 :=
      forall₂_congr fun e he => iha e he
    simp [retag, Printable, ihc, hargs]

end Expr

/-- A list of expressions that can be printed. -/
structure PrintableList (es : List (Expr ε α)) : Prop where
  length : es.length ≤ maxItems
  printable : ∀ e ∈ es, e.Printable 0

/-- The statement can be printed. -/
def Stmt.Printable : Stmt ε α → Prop
  | hole _ => False
  | var _ names type? values =>
    (names ≠ [] ∧ names.length ≤ maxItems ∧ ∀ name ∈ names, IsName name)
      ∧ (∀ type ∈ type?, IsName type.name) ∧ (type? = none → values ≠ []) ∧ PrintableList values
  | assign _ targets values =>
    (targets ≠ [] ∧ PrintableList targets) ∧ values ≠ [] ∧ PrintableList values
  | ret _ results => PrintableList results
  | expr _ e => e.Printable 0

/-- The function can be printed. -/
structure Function.Printable (f : Function ε α) : Prop where
  name : IsName f.name
  params : f.params.length ≤ maxItems ∧ ∀ p ∈ f.params, IsName p.name ∧ IsName p.type.name
  results : f.results.length ≤ maxItems ∧ ∀ t ∈ f.results, IsName t.name
  body : f.body.length ≤ maxItems ∧ ∀ s ∈ f.body, s.Printable

theorem Stmt.Printable.child {s : Stmt ε α} (h : s.Printable) {e : Expr ε α}
    (he : e ∈ s.children) : e.Printable 0 := by
  cases s with
  | hole => cases he
  | var => exact h.2.2.2.printable e he
  | assign =>
    rcases List.mem_append.1 he with he | he
    · exact h.1.2.printable e he
    · exact h.2.2.printable e he
  | ret => exact h.printable e he
  | expr =>
    obtain rfl := List.mem_singleton.1 he
    exact h

theorem printableList_retag {f : α → β} {es : List (Expr ε α)} :
    PrintableList (es.map (Expr.retag f)) ↔ PrintableList es := by
  constructor
  · rintro ⟨hl, hp⟩
    exact ⟨by simpa using hl, by simpa using hp⟩
  · rintro ⟨hl, hp⟩
    exact ⟨by simpa using hl, by simpa using hp⟩

theorem Stmt.printable_bare {s : Stmt ε α} : s.bare.Printable ↔ s.Printable := by
  cases s with
  | hole => rfl
  | var _ names type? values =>
    cases type? <;> simp [Stmt.bare, Stmt.Printable, printableList_retag, TypeRef.bare]
  | assign => simp [Stmt.bare, Stmt.Printable, printableList_retag]
  | ret => simp [Stmt.bare, Stmt.Printable, printableList_retag]
  | expr => simp [Stmt.bare, Stmt.Printable]

theorem Function.printable_bare {f : Function ε α} : f.bare.Printable ↔ f.Printable := by
  constructor
  · rintro ⟨hn, hp, hr, hb⟩
    exact ⟨hn, by simpa [Function.bare, Param.bare, TypeRef.bare] using hp,
      by simpa [Function.bare, TypeRef.bare] using hr,
      by simpa [Function.bare, Stmt.printable_bare] using hb⟩
  · rintro ⟨hn, hp, hr, hb⟩
    exact ⟨hn, by simpa [Function.bare, Param.bare, TypeRef.bare] using hp,
      by simpa [Function.bare, TypeRef.bare] using hr,
      by simpa [Function.bare, Stmt.printable_bare] using hb⟩

/-! ### What the parser makes is printable -/

namespace Parser

/-- All tokens are spelled as their kinds demand. -/
def AllSpelled (ts : List Token) : Prop := ∀ t ∈ ts, t.Spelled

theorem AllSpelled.append {ts us : List Token} :
    AllSpelled (ts ++ us) ↔ AllSpelled ts ∧ AllSpelled us := List.forall_mem_append

theorem AllSpelled.cons {t : Token} {ts : List Token} :
    AllSpelled (t :: ts) ↔ t.Spelled ∧ AllSpelled ts := List.forall_mem_cons

theorem Reads.printable {m : Nat} {ts : List Token} {e : SourceExpr} (h : Reads m ts e) :
    AllSpelled ts → e.Printable m := by
  refine @Reads.rec (fun m ts e _ => AllSpelled ts → e.Printable m)
    (fun ts es _ => AllSpelled ts → ∀ e ∈ es, e.Printable 0) ?literal ?name ?paren
    ?call ?neg ?binary ?none ?last ?cons _ _ _ h
  case literal => exact fun hs => (hs _ List.mem_cons_self).1
  case name => exact fun hs => (hs _ List.mem_cons_self).1
  case paren =>
    exact fun _ ih hs => ih (AllSpelled.cons.1 (AllSpelled.append.1 hs).1).2
  case call =>
    rintro m x y start stop cs newlines as callee args - - - hl ihc iha hs
    obtain ⟨hs, -⟩ := AllSpelled.append.1 hs
    obtain ⟨hs, has⟩ := AllSpelled.append.1 hs
    exact ⟨ihc (AllSpelled.append.1 hs).1, hl, Expr.allPrintable_iff.2 (iha has)⟩
  case neg => exact fun hm _ ih hs => ⟨hm, ih (AllSpelled.cons.1 hs).2⟩
  case binary =>
    rintro m op x span ls newlines rs left right hm - - - ihl ihr hs
    obtain ⟨hs, hrs⟩ := AllSpelled.append.1 hs
    exact ⟨hm, ihl (AllSpelled.append.1 hs).1, ihr hrs⟩
  case none => exact fun _ => by simp
  case last => exact fun _ _ ih hs => by simpa using ih (AllSpelled.append.1 hs).1
  case cons =>
    rintro ts before after as x s e es - - - - ih iha hs
    obtain ⟨hs, has⟩ := AllSpelled.append.1 hs
    obtain ⟨hs, -⟩ := AllSpelled.append.1 hs
    exact List.forall_mem_cons.2 ⟨ih (AllSpelled.append.1 hs).1, iha has⟩

theorem CommaList.forall {β : Type} {gap : List Token → Prop} {item : List Token → β → Prop}
    {ts : List Token} {xs : List β} (h : CommaList gap item ts xs) (hs : AllSpelled ts)
    {P : β → Prop} (hitem : ∀ ts x, item ts x → AllSpelled ts → P x) : ∀ x ∈ xs, P x := by
  induction h with
  | one hx => exact List.forall_mem_singleton.2 (hitem _ _ hx hs)
  | cons hx _ _ ih =>
    obtain ⟨hs, hus⟩ := AllSpelled.append.1 hs
    exact List.forall_mem_cons.2 ⟨hitem _ _ hx (AllSpelled.append.1 hs).1, ih hus⟩

theorem ReadsExprs.printable {ts : List Token} {es : List SourceExpr} (h : ReadsExprs ts es)
    (hs : AllSpelled ts) : PrintableList es :=
  ⟨h.2, h.1.forall hs fun _ _ hr => hr.printable⟩

theorem isName_of_readsName {ts : List Token} {t : Token} (h : ReadsName ts t)
    (hs : AllSpelled ts) : IsName t.text := by
  obtain ⟨rfl, hk⟩ := h
  have := (hs t List.mem_cons_self).1
  rwa [hk] at this

theorem ReadsStmt.printable {ts : List Token} {s : SourceStmt} (h : ReadsStmt ts s)
    (hs : AllSpelled ts) : s.Printable := by
  cases h with
  | @declared x text start span ns names hn hl =>
    obtain ⟨hs, ht⟩ := AllSpelled.append.1 hs
    have hnames := hn.forall (AllSpelled.cons.1 hs).2 fun _ _ => isName_of_readsName
    have htext : IsName text := (ht _ List.mem_cons_self).1
    exact ⟨⟨by simpa using hn.ne_nil, by simpa using hl, by simpa using hnames⟩, by simpa using htext,
      nofun, by simp, nofun⟩
  | initialized hn hl ht hv =>
    obtain ⟨hs, hvs⟩ := AllSpelled.append.1 hs
    obtain ⟨hs, hts⟩ := AllSpelled.append.1 hs
    have hnames := hn.forall (AllSpelled.cons.1 hs).2 fun _ _ => isName_of_readsName
    refine ⟨⟨by simpa using hn.ne_nil, by simpa using hl, by simpa using hnames⟩, ?_,
      fun _ => hv.1.ne_nil, hv.printable (AllSpelled.cons.1 hvs).2⟩
    cases ht with
    | none => simp
    | @some text span =>
      have htext : IsName text := (hts _ List.mem_cons_self).1
      simpa using htext
  | done => exact ⟨by simp, nofun⟩
  | ret hr => exact hr.printable (AllSpelled.cons.1 hs).2
  | assign ht hv =>
    obtain ⟨hts, hs⟩ := AllSpelled.append.1 hs
    exact ⟨⟨ht.1.ne_nil, ht.printable hts⟩, hv.1.ne_nil, hv.printable (AllSpelled.cons.1 hs).2⟩
  | expr hr => exact hr.printable hs

theorem ReadsBlock.printable {ts : List Token} {body : List SourceStmt} {stop : Span}
    (h : ReadsBlock ts body stop) : AllSpelled ts → ∀ s ∈ body, s.Printable := by
  induction h with
  | close => exact fun _ => nofun
  | stmt _ hs _ _ ih =>
    intro hsp
    obtain ⟨hsp, hus⟩ := AllSpelled.append.1 hsp
    exact List.forall_mem_cons.2 ⟨hs.printable (AllSpelled.append.1 hsp).2, ih hus⟩

theorem ReadsParam.isName {ts : List Token} {p : Param String} (h : ReadsParam ts p)
    (hs : AllSpelled ts) : IsName p.name ∧ IsName p.type.name := by
  cases h with
  | single =>
    obtain ⟨hname, hs⟩ := AllSpelled.cons.1 hs
    exact ⟨hname.1, (AllSpelled.cons.1 hs).1.1⟩
  | variadic =>
    obtain ⟨hname, hs⟩ := AllSpelled.cons.1 hs
    exact ⟨hname.1, (AllSpelled.cons.1 (AllSpelled.cons.1 hs).2).1.1⟩

theorem ReadsType.isName {ts : List Token} {t : TypeRef String} (h : ReadsType ts t)
    (hs : AllSpelled ts) : IsName t.name := by
  cases h
  exact (hs _ List.mem_cons_self).1

theorem ReadsFunction.printable {ts : List Token} {f : SourceFunction} (h : ReadsFunction ts f)
    (hs : AllSpelled ts) : f.Printable := by
  cases h with
  | mk hp hpl hr hrl hb hbl =>
    obtain ⟨hs, hbs⟩ := AllSpelled.append.1 hs
    obtain ⟨hs, hrs⟩ := AllSpelled.append.1 hs
    obtain ⟨-, hs⟩ := AllSpelled.cons.1 hs
    obtain ⟨hname, hs⟩ := AllSpelled.cons.1 hs
    obtain ⟨-, hps⟩ := AllSpelled.cons.1 hs
    refine ⟨hname.1, ⟨hpl, ?_⟩, ⟨hrl, ?_⟩, hbl, hb.printable (AllSpelled.cons.1 hbs).2⟩
    · cases hp with
      | none => exact nofun
      | some hp => exact hp.forall hps fun _ _ => ReadsParam.isName
    · cases hr with
      | none => exact nofun
      | one =>
        exact List.forall_mem_singleton.2 (AllSpelled.cons.1 (AllSpelled.cons.1 hrs).2).1.1
      | many ht =>
        exact ht.forall (AllSpelled.append.1 (AllSpelled.cons.1 (AllSpelled.cons.1 hrs).2).2).1
          fun _ _ => ReadsType.isName

theorem ReadsFunctions.printable {ts : List Token} {fs : List SourceFunction}
    (h : ReadsFunctions ts fs) : AllSpelled ts → ∀ f ∈ fs, f.Printable := by
  induction h with
  | done => exact fun _ => nofun
  | function _ hf _ ih =>
    intro hs
    obtain ⟨hs, hus⟩ := AllSpelled.append.1 hs
    exact List.forall_mem_cons.2 ⟨hf.printable (AllSpelled.append.1 hs).2, ih hus⟩

end Parser

/-- The functions of a source text are printable. -/
theorem printable_of_parse {source : String} {tree : SourceProgram}
    (h : parse source = .ok tree) : ∀ f ∈ tree.functions, f.Printable := by
  obtain ⟨lexed, hl, hp⟩ := parse_eq_ok.1 h
  exact (Lexed.parse_eq_ok.1 hp).1.printable (ordered_of_lex hl).2

end Recast
