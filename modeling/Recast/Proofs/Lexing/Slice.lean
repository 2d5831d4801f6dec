import Recast.Proofs.Lexing.Scan

/-!
# Lexing a slice of a text

The slice that runs from the start of one lexeme to the end of another is cut into the very lexemes
that the whole text has there: whether a lexeme goes on is decided by its own characters and the next
ones, and a text that ends sooner makes none longer. Only their places differ, by the start of the
slice.
-/

namespace Recast

/-- The span that lies a number of bytes further on. -/
def Span.shift (n : Nat) (s : Span) : Span := ⟨s.start + n, s.stop + n⟩

/-- The text is what a source text has in the span. -/
def Span.Selects (s : Span) (source text : String) : Prop :=
  ∃ before after, source = before ++ text ++ after ∧
    before.utf8ByteSize = s.start ∧ s.stop = s.start + text.utf8ByteSize

theorem append_inj_of_bytes {as bs cs ds : List Char} (h : as ++ bs = cs ++ ds)
    (hbytes : bytes as = bytes cs) : as = cs ∧ bs = ds := by
  have nil_of_bytes {us vs : List Char} (h : bytes (us ++ vs) = bytes us) : vs = [] := by
    rw [bytes_append] at h
    cases vs with
    | nil => rfl
    | cons c vs =>
      have := bytes_pos (List.cons_ne_nil c vs)
      omega
  rcases List.append_eq_append_iff.1 h with ⟨es, rfl, rfl⟩ | ⟨es, rfl, rfl⟩
  · simp [nil_of_bytes hbytes.symm]
  · simp [nil_of_bytes hbytes]

/-- A source text has one text only in a span. -/
theorem Span.Selects.unique {s : Span} {source text text' : String} (h : s.Selects source text)
    (h' : s.Selects source text') : text = text' := by
  obtain ⟨before, after, rfl, hstart, hstop⟩ := h
  obtain ⟨before', after', heq, hstart', hstop'⟩ := h'
  have bytes_toList (t : String) : bytes t.toList = t.utf8ByteSize := by
    rw [bytes, String.ofList_toList]
  have hsplit := congrArg String.toList heq
  simp only [String.toList_append, List.append_assoc] at hsplit
  obtain ⟨-, hrest⟩ := append_inj_of_bytes hsplit (by rw [bytes_toList, bytes_toList]; omega)
  obtain ⟨htext, -⟩ := append_inj_of_bytes hrest (by rw [bytes_toList, bytes_toList]; omega)
  exact String.toList_inj.1 htext

/-- The lexeme that lies a number of bytes further on. -/
def Lexeme.shift (n : Nat) (l : Lexeme) : Lexeme := { l with span := l.span.shift n }

/-- The token at another place. -/
def Token.relocate (f : Span → Span) (t : Token) : Token := { t with span := f t.span }

theorem Lexeme.token?_shift (n : Nat) (l : Lexeme) :
    (l.shift n).token? = l.token?.map (Token.relocate (Span.shift n)) := by
  obtain ⟨kind, text, span⟩ := l
  cases kind <;> rfl

theorem Lexeme.span_of_token? {l : Lexeme} {t : Token} (h : l.token? = some t) :
    l.span = t.span := by
  obtain ⟨kind, text, span⟩ := l
  cases kind <;> cases h
  rfl

namespace Lexer

variable {pos n : Nat} {cs : List Char} {found before mid after : List Lexeme}
  {first last l : Lexeme}

/-- A text that stands further to the left is cut in the same way. -/
theorem Scans.shift_back (h : Scans (pos + n) cs found) :
    ∃ found', found = found'.map (Lexeme.shift n) ∧ Scans pos cs found' := by
  generalize hq : pos + n = q at h
  induction h generalizing pos with
  | nil => exact ⟨[], rfl, .nil⟩
  | @separator _ c _ _ hs _ ih =>
    obtain ⟨found', rfl, h'⟩ := @ih (pos + c.utf8Size) (by omega)
    exact ⟨found', rfl, .separator hs h'⟩
  | @lexeme _ k c cs kind _ hm _ ih =>
    obtain ⟨found', rfl, h'⟩ := @ih (pos + bytes (c :: cs.take k)) (by omega)
    refine ⟨_ :: found', ?_, .lexeme hm h'⟩
    rw [List.map_cons, ← hq, Nat.add_right_comm]
    rfl

/-- What stands before a lexeme can be dropped. -/
theorem Scans.drop (h : Scans pos cs (before ++ l :: after)) : ∃ pre rest, cs = pre ++ rest ∧
    l.span.start = pos + bytes pre ∧ Scans l.span.start rest (l :: after) := by
  generalize hfound : before ++ l :: after = found at h
  induction h generalizing before with
  | nil => simp at hfound
  | @separator _ c _ _ hs _ ih =>
    obtain ⟨pre, rest, rfl, hstart, h'⟩ := ih hfound
    exact ⟨c :: pre, rest, rfl, by rw [hstart, bytes_cons, Nat.add_assoc], h'⟩
  | @lexeme pos k c cs kind found hm h ih =>
    cases before with
    | nil =>
      obtain ⟨rfl, rfl⟩ := List.cons.inj hfound
      exact ⟨[], c :: cs, rfl, by simp, .lexeme hm h⟩
    | cons _ before =>
      obtain ⟨-, hfound⟩ := List.cons.inj hfound
      obtain ⟨pre, rest, hcs, hstart, h'⟩ := ih hfound
      refine ⟨c :: cs.take k ++ pre, rest, ?_, ?_, h'⟩
      · rw [List.cons_append, List.cons_append, List.append_assoc, ← hcs, List.take_append_drop]
      · rw [hstart, bytes_append, Nat.add_assoc]

/-- What stands after a lexeme can be dropped: the lexemes before are no longer without it. -/
theorem Scans.take (h : Scans pos cs (before ++ l :: after)) : ∃ text rest, cs = text ++ rest ∧
    l.span.stop = pos + bytes text ∧ Scans pos text (before ++ [l]) := by
  generalize hfound : before ++ l :: after = found at h
  induction h generalizing before with
  | nil => simp at hfound
  | @separator _ c _ _ hs _ ih =>
    obtain ⟨text, rest, rfl, hstop, h'⟩ := ih hfound
    exact ⟨c :: text, rest, rfl, by rw [hstop, bytes_cons, Nat.add_assoc], .separator hs h'⟩
  | @lexeme pos k c cs kind found hm _ ih =>
    obtain ⟨hle, htake⟩ := munch_take hm
    cases before with
    | nil =>
      obtain ⟨rfl, rfl⟩ := List.cons.inj hfound
      refine ⟨c :: cs.take k, cs.drop k, by simp, rfl, ?_⟩
      have hscans := @Scans.lexeme pos k c _ kind [] (htake k (Nat.le_refl k))
        (by rw [List.drop_take, Nat.sub_self]; exact .nil)
      rwa [List.take_take, Nat.min_self] at hscans
    | cons _ before =>
      obtain ⟨rfl, hafter⟩ := List.cons.inj hfound
      obtain ⟨text, rest, hcs, hstop, h'⟩ := ih hafter
      have hlen : (cs.take k).length = k := by rw [List.length_take, Nat.min_eq_left hle]
      have hcut : cs.take k ++ text = cs.take (k + text.length) := by
        rw [List.take_add, hcs, List.take_left]
      refine ⟨c :: (cs.take k ++ text), rest, ?_, ?_, ?_⟩
      · rw [List.cons_append, List.append_assoc, ← hcs, List.take_append_drop]
      · rw [hstop, ← List.cons_append, bytes_append, Nat.add_assoc]
      · have hm' : munch c (cs.take k ++ text) = some (kind, k) := by
          rw [hcut]
          exact htake _ (Nat.le_add_right _ _)
        have hfirst : (cs.take k ++ text).take k = cs.take k := by
          rw [List.take_append_of_le_length (by omega), List.take_take, Nat.min_self]
        have hrest : (cs.take k ++ text).drop k = text := by
          rw [List.drop_append_of_le_length (by omega), List.drop_take, Nat.sub_self]
          rfl
        have hscans := @Scans.lexeme pos k c _ kind _ hm' (by rw [hfirst, hrest]; exact h')
        rwa [hfirst] at hscans

/-- The lexemes from one to another are those of the text that runs from the one to the other. -/
theorem Scans.slice (h : Scans pos cs (before ++ mid ++ after)) (hf : mid.head? = some first)
    (hl : mid.getLast? = some last) : ∃ pre text rest, cs = pre ++ text ++ rest ∧
      first.span.start = pos + bytes pre ∧ last.span.stop = first.span.start + bytes text ∧
        Scans first.span.start text mid := by
  obtain ⟨tail, rfl⟩ := List.head?_eq_some_iff.1 hf
  obtain ⟨init, hinit⟩ := List.getLast?_eq_some_iff.1 hl
  rw [List.append_assoc, List.cons_append] at h
  obtain ⟨pre, text, rfl, hstart, h'⟩ := h.drop
  rw [← List.cons_append, hinit, List.append_assoc, List.singleton_append] at h'
  obtain ⟨text, rest, rfl, hstop, h''⟩ := h'.take
  exact ⟨pre, text, rest, (List.append_assoc ..).symm, hstart, hstop, hinit ▸ h''⟩

end Lexer

/-- A stretch of what a list maps to comes from a stretch of the list, with the same ends. -/
theorem exists_filterMap_eq {β γ : Type} {f : β → Option γ} {xs : List β} {us vs ws : List γ}
    {first last : γ} (h : xs.filterMap f = us ++ vs ++ ws) (hf : vs.head? = some first)
    (hl : vs.getLast? = some last) : ∃ as bs cs x y, xs = as ++ bs ++ cs ∧ bs.filterMap f = vs ∧
      (bs.head? = some x ∧ f x = some first) ∧ bs.getLast? = some y ∧ f y = some last := by
  obtain ⟨tail, htail⟩ := List.head?_eq_some_iff.1 hf
  obtain ⟨init, hinit⟩ := List.getLast?_eq_some_iff.1 hl
  rw [hinit, ← List.append_assoc, List.append_assoc, List.singleton_append] at h
  obtain ⟨upTo, _, rfl, hup, h'⟩ := List.filterMap_eq_append_iff.1 h
  obtain ⟨none₁, y, cs, rfl, hnone₁, hy, -⟩ := List.filterMap_eq_cons_iff.1 h'
  have hthrough : (upTo ++ none₁ ++ [y]).filterMap f = us ++ first :: tail := by
    rw [← htail, hinit, List.filterMap_append, List.filterMap_append, hup,
      List.filterMap_eq_nil_iff.2 hnone₁]
    simp [hy]
  obtain ⟨as, _, hsplit, -, h''⟩ := List.filterMap_eq_append_iff.1 hthrough
  obtain ⟨none₂, x, bs, rfl, hnone₂, hx, hbs⟩ := List.filterMap_eq_cons_iff.1 h''
  have hlast : (x :: bs).getLast? = some y := by
    have := congrArg List.getLast? hsplit
    rw [← List.append_assoc, List.getLast?_append, List.getLast?_append] at this
    simpa using this.symm
  refine ⟨as ++ none₂, x :: bs, cs, x, y, ?_, ?_, ⟨rfl, hx⟩, hlast, hy⟩
  · calc upTo ++ (none₁ ++ y :: cs) = upTo ++ none₁ ++ [y] ++ cs := by simp
      _ = as ++ none₂ ++ (x :: bs) ++ cs := by rw [hsplit, List.append_assoc as none₂]
  · rw [List.filterMap_cons_some hx, hbs, htail]

/-- The tokens that a span covers are those of the text in the span, but for their places. -/
theorem lex_slice {source : String} {lexed : Lexed} (h : lex source = .ok lexed) {s : Span}
    {ts : List Token} (hts : ts <:+: lexed.tokens) (hc : Parser.Covers ts s) :
    ∃ text sliced, s.Selects source text ∧ lex text = .ok sliced ∧
      ts = sliced.tokens.map (Token.relocate (Span.shift s.start)) := by
  obtain ⟨found, hs, rfl⟩ := lex_eq_ok.1 h
  obtain ⟨us, ws, htokens⟩ := hts
  rw [Lexed.tokens_ofLexemes] at htokens
  obtain ⟨t, ht, hstart⟩ := Option.map_eq_some_iff.1 hc.start
  obtain ⟨u, hu, hstop⟩ := Option.map_eq_some_iff.1 hc.stop
  obtain ⟨before, mid, after, x, y, rfl, hmid, ⟨hx, hxt⟩, hy, hyu⟩ :=
    exists_filterMap_eq htokens.symm ht hu
  rw [← Lexeme.span_of_token? hxt] at hstart
  rw [← Lexeme.span_of_token? hyu] at hstop
  obtain ⟨pre, text, rest, hsource, hpre, htext, hscans⟩ := hs.slice hx hy
  rw [hstart] at hpre htext hscans
  obtain ⟨found', rfl, hscans'⟩ := @Lexer.Scans.shift_back 0 s.start _ _ (by rwa [Nat.zero_add])
  refine ⟨String.ofList text, _, ⟨String.ofList pre, String.ofList rest, ?_, ?_, ?_⟩,
    lex_eq_ok.2 ⟨found', by rwa [String.toList_ofList], rfl⟩, ?_⟩
  · rw [← String.ofList_append, ← String.ofList_append, ← hsource, String.ofList_toList]
  · rw [Nat.zero_add] at hpre
    exact hpre.symm
  · exact hstop.symm.trans htext
  · rw [Lexed.tokens_ofLexemes, ← hmid, List.map_filterMap, List.filterMap_map]
    congr 1
    exact funext fun l => l.token?_shift s.start

/-! ### The texts of tokens and comments -/

/-- Each lexeme stands in the text where its span says. -/
theorem Lexer.Scans.exists_split {pos : Nat} {cs : List Char} {found : List Lexeme}
    (h : Scans pos cs found) : ∀ l ∈ found, ∃ before after, cs = before ++ l.text.toList ++ after ∧
      l.span.start = pos + bytes before ∧ l.span.stop = l.span.start + bytes l.text.toList := by
  induction h with
  | nil => exact fun l hl => nomatch hl
  | @separator pos c cs found hs _ ih =>
    intro l hl
    obtain ⟨before, after, rfl, hstart, hstop⟩ := ih l hl
    exact ⟨c :: before, after, rfl, by rw [hstart, bytes_cons, Nat.add_assoc], hstop⟩
  | @lexeme pos n c cs kind found hm _ ih =>
    refine List.forall_mem_cons.2 ⟨⟨[], cs.drop n, ?_, rfl, ?_⟩, fun l hl => ?_⟩
    · rw [String.toList_ofList, List.nil_append, List.cons_append, List.take_append_drop]
    · rw [String.toList_ofList]
    · obtain ⟨before, after, hcs, hstart, hstop⟩ := ih l hl
      refine ⟨c :: cs.take n ++ before, after, ?_, ?_, hstop⟩
      · rw [List.append_assoc, List.append_assoc, ← List.append_assoc before, ← hcs,
          List.cons_append, List.take_append_drop]
      · rw [hstart, bytes_append, Nat.add_assoc]

theorem Lexer.Scans.selects {source : String} {found : List Lexeme}
    (h : Scans 0 source.toList found) {l : Lexeme} (hl : l ∈ found) :
    l.span.Selects source l.text := by
  obtain ⟨before, after, hsource, hstart, hstop⟩ := h.exists_split l hl
  rw [bytes, String.ofList_toList] at hstop
  refine ⟨String.ofList before, String.ofList after, ?_, ?_, hstop⟩
  · rw [← String.toList_inj, hsource]
    simp
  · rw [hstart, Nat.zero_add]
    rfl

/-- A comment that was sorted out is one of the lexemes. -/
theorem Lexed.exists_lexeme_of_comment {ls : List Lexeme} {stop : Nat} {c : Comment String}
    (h : c ∈ (ofLexemes ls stop).trivia.comments) : ∃ l ∈ ls, l.text = c.text ∧ l.span = c.span := by
  have sorted : ∀ (ls : List Lexeme) (s : Sorting), c ∈ (ls.foldl Sorting.add s).comments →
      c ∈ s.comments ∨ ∃ l ∈ ls, l.text = c.text ∧ l.span = c.span := by
    intro ls
    induction ls with
    | nil => exact fun _ h => .inl h
    | cons l ls ih =>
      intro s h
      rcases ih _ h with h | ⟨l', hl', htext⟩
      · obtain ⟨kind, text, span⟩ := l
        cases kind with
        | comment =>
          rcases List.mem_cons.1 h with rfl | h
          · exact .inr ⟨_, List.mem_cons_self, rfl, rfl⟩
          · exact .inl h
        | token kind => cases kind <;> exact .inl h
      · exact .inr ⟨l', List.mem_cons_of_mem _ hl', htext⟩
  rcases sorted ls ⟨[], [], [], false⟩ (List.mem_reverse.1 h) with h | h
  · cases h
  · exact h

/-- Tokens and comments stand in the source text where their spans say. -/
structure Lexed.ReadFrom (lexed : Lexed) (source : String) : Prop where
  tokens : ∀ t ∈ lexed.tokens, t.span.Selects source t.text
  comments : ∀ c ∈ lexed.trivia.comments, c.span.Selects source c.text

theorem readFrom_of_lex {source : String} {lexed : Lexed} (h : lex source = .ok lexed) :
    lexed.ReadFrom source := by
  obtain ⟨found, hs, rfl⟩ := lex_eq_ok.1 h
  refine ⟨fun t ht => ?_, fun c hc => ?_⟩
  · rw [Lexed.tokens_ofLexemes] at ht
    obtain ⟨⟨kind, text, span⟩, hl, htoken⟩ := List.mem_filterMap.1 ht
    have hselects := hs.selects hl
    cases kind with
    | comment => cases htoken
    | token kind =>
      cases htoken
      exact hselects
  · obtain ⟨l, hl, htext, hspan⟩ := Lexed.exists_lexeme_of_comment hc
    exact htext ▸ hspan ▸ hs.selects hl

/-- A scan stops at a character of the text. -/
theorem Lexer.exists_split_of_scan {at_ : Nat} {c : Char} {cs : List Char} :
    ∀ {found : List Lexeme} {pos skip : Nat}, scan found pos skip cs = .error (.unexpectedChar at_ c) →
      ∃ before after, cs = before ++ c :: after ∧ at_ = pos + bytes before := by
  induction cs with
  | nil =>
    intro found pos skip h
    rw [scan] at h
    cases h
  | cons d cs ih =>
    intro found pos skip h
    have later {found : List Lexeme} {skip : Nat}
        (h : scan found (pos + d.utf8Size) skip cs = .error (.unexpectedChar at_ c)) :
        ∃ before after, d :: cs = before ++ c :: after ∧ at_ = pos + bytes before := by
      obtain ⟨before, after, rfl, hat⟩ := ih h
      exact ⟨d :: before, after, rfl, by rw [hat, bytes_cons, Nat.add_assoc]⟩
    cases skip with
    | succ skip =>
      rw [scan] at h
      exact later h
    | zero =>
      rw [scan] at h
      split at h
      · exact later h
      · split at h
        · cases h
          exact ⟨[], cs, rfl, rfl⟩
        · exact later h

/-- What cannot be read stands in the source text where the error says. -/
theorem selects_of_lex_error {source : String} {pos : Nat} {c : Char}
    (h : lex source = .error (.unexpectedChar pos c)) :
    Span.Selects ⟨pos, pos + c.utf8Size⟩ source (String.ofList [c]) := by
  have hscan : Lexer.scan [] 0 0 source.toList = .error (.unexpectedChar pos c) := by
    rw [lex, lexemes] at h
    cases hs : Lexer.scan [] 0 0 source.toList with
    | error e =>
      rw [hs] at h
      exact congrArg _ (Except.error.inj h)
    | ok found =>
      rw [hs] at h
      cases h
  obtain ⟨before, after, hsource, hpos⟩ := Lexer.exists_split_of_scan hscan
  refine ⟨String.ofList before, String.ofList after, ?_, ?_, ?_⟩
  · rw [← String.toList_inj, hsource]
    simp
  · rw [hpos, Nat.zero_add]
    rfl
  · show pos + c.utf8Size = pos + bytes [c]
    simp

end Recast
