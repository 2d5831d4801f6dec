import Mathlib.Data.List.Induction
import Recast.Proofs.Lexing.Lossless

/-!
# Trivia, line by line

The comments and blank lines of a source text can be read off its lines. A blank line is one with
nothing but separators before its newline. A comment runs from the first two slashes on a line to the
end of the line, and it trails if something else than separators stands before it.
-/

namespace Recast

open Lexer (Scans isSeparator)

/-! ### Lines -/

/-- A line of a text: from the start of the text or the character after a newline up to the next
newline or the end of the text. -/
structure LineOf (cs before line after : List Char) : Prop where
  text : cs = before ++ line ++ after
  starts : ∀ c ∈ before.getLast?, c = '\n'
  whole : '\n' ∉ line
  ends : ∀ c ∈ after.head?, c = '\n'

/-- Each position of a text is on a line. -/
theorem exists_line (cs : List Char) :
    ∃ before line, cs = before ++ line ∧ (∀ c ∈ before.getLast?, c = '\n') ∧ '\n' ∉ line := by
  induction cs using List.reverseRecOn with
  | nil => exact ⟨[], [], rfl, nofun, List.not_mem_nil⟩
  | append_singleton cs c ih =>
    by_cases hc : c = '\n'
    · exact ⟨cs ++ [c], [], (List.append_nil _).symm, by simp [hc], List.not_mem_nil⟩
    · obtain ⟨before, line, rfl, hstarts, hwhole⟩ := ih
      refine ⟨before, line ++ [c], List.append_assoc .., hstarts, ?_⟩
      simpa [hwhole] using Ne.symm hc

/-- Two slashes. -/
def slashes : List Char := ['/', '/']

/-- A text with two slashes in it has first ones. -/
theorem exists_first_slashes {cs : List Char} (h : slashes <:+: cs) : ∃ front rest,
    cs = front ++ '/' :: '/' :: rest ∧ ¬ slashes <:+: front ++ ['/'] := by
  induction cs with
  | nil => simp [slashes] at h
  | cons c cs ih =>
    by_cases hp : slashes <+: c :: cs
    · obtain ⟨rest, hrest⟩ := hp
      exact ⟨[], rest, hrest.symm, fun h => by simpa [slashes] using h.length_le⟩
    · obtain ⟨front, rest, rfl, hfirst⟩ := ih ((List.infix_cons_iff.1 h).resolve_left hp)
      refine ⟨c :: front, rest, rfl, fun hin => ?_⟩
      rcases List.infix_cons_iff.1 hin with hin | hin
      · refine hp (hin.trans ?_)
        exact ⟨'/' :: rest, by simp⟩
      · exact hfirst hin

namespace Lexer

variable {c d : Char} {cs : List Char} {kind : LexemeKind} {n : Nat}

/-! ### Lexemes and the ends of lines -/

/-- Characters that occur in tokens behind the first character. -/
def isTailChar (c : Char) : Bool := isWordChar c || isNumberChar c || c == '='

theorem isTailChar_of_munch {kind : TokenKind} (h : munch c cs = some (.token kind, n)) :
    ∀ d ∈ cs.take n, isTailChar d := by
  cases munches_of_munch h with
  | word => exact fun d hd => by simp [isTailChar, take_stretch _ _ d hd]
  | number => exact fun d hd => by simp [isTailChar, (numeric_number cs).2 d hd]
  | mark listed starts =>
    have htail : ∀ m ∈ marks, m.2.1.all isTailChar := by decide
    rw [← List.prefix_iff_eq_take.1 starts]
    exact List.all_eq_true.1 (htail _ listed)

theorem munch_newline_iff : munch c cs = some (.token .newline, n) ↔ c = '\n' ∧ n = 0 := by
  constructor
  · intro h
    generalize hk : LexemeKind.token .newline = kind at h
    cases munches_of_munch h with
    | word =>
      have hword := wordKind_mem (String.ofList (c :: cs.take (stretch isWordChar cs)))
      rw [← LexemeKind.token.inj hk] at hword
      simp at hword
    | number | comment => cases hk
    | mark listed =>
      have hnewline : ∀ m ∈ marks, .newline = m.2.2.2 → m.1 = '\n' ∧ m.2.1.length = 0 := by decide
      exact hnewline _ listed (LexemeKind.token.inj hk)
  · rintro ⟨rfl, rfl⟩
    rfl

/-- A lexeme stays on its line, and a newline is a lexeme of its own. -/
theorem newline_not_mem_of_munch (h : munch c cs = some (kind, n)) : '\n' ∉ cs.take n := by
  intro hmem
  cases kind with
  | token kind => exact absurd (isTailChar_of_munch h _ hmem) (by decide)
  | comment =>
    obtain ⟨-, -, rfl⟩ := munch_comment h
    exact absurd (take_stretch _ _ _ hmem) (by decide)

/-- A slash starts a token of its own. -/
theorem slash_not_mem_of_munch {kind : TokenKind} (h : munch c cs = some (.token kind, n)) :
    '/' ∉ cs.take n := fun hmem => absurd (isTailChar_of_munch h _ hmem) (by decide)

/-- Only separators are passed over. -/
theorem not_isSeparator_of_munch (h : munch c cs = some (kind, n)) : isSeparator c = false := by
  rw [Bool.eq_false_iff]
  intro hs
  rw [munch_separator hs] at h
  cases h

/-! ### Cutting a text in two -/

/-- A text is cut into lexemes part by part if no lexeme of the first part goes on in the second. -/
theorem Scans.cut {pos : Nat} {xs ys : List Char} {ls : List Lexeme} (h : Scans pos (xs ++ ys) ls)
    (hfits : ∀ front c rest kind n, xs = front ++ c :: rest →
      munch c (rest ++ ys) = some (kind, n) → n ≤ rest.length) :
    ∃ us vs, ls = us ++ vs ∧ Scans pos xs us ∧ Scans (pos + bytes xs) ys vs := by
  generalize hcs : xs ++ ys = cs at h
  induction h generalizing xs with
  | nil =>
    obtain ⟨rfl, rfl⟩ := List.append_eq_nil_iff.1 hcs
    exact ⟨[], [], rfl, .nil, .nil⟩
  | @separator pos c cs found hs h ih =>
    cases xs with
    | nil =>
      rw [List.nil_append] at hcs
      exact ⟨[], _, rfl, .nil, by rw [hcs]; exact .separator hs h⟩
    | cons d xs =>
      rw [List.cons_append] at hcs
      obtain ⟨rfl, htail⟩ := List.cons.inj hcs
      have hfits' : ∀ front c rest kind n, xs = front ++ c :: rest →
          munch c (rest ++ ys) = some (kind, n) → n ≤ rest.length := fun front c rest kind n hxs =>
        hfits (d :: front) c rest kind n (congrArg _ hxs)
      obtain ⟨us, vs, rfl, hus, hvs⟩ := ih hfits' htail
      exact ⟨us, vs, rfl, .separator hs hus, by rwa [bytes_cons, ← Nat.add_assoc]⟩
  | @lexeme pos n c cs kind found hm h ih =>
    cases xs with
    | nil =>
      rw [List.nil_append] at hcs
      exact ⟨[], _, rfl, .nil, by rw [hcs]; exact .lexeme hm h⟩
    | cons d xs =>
      rw [List.cons_append] at hcs
      obtain ⟨rfl, rfl⟩ := List.cons.inj hcs
      have hn := hfits [] d xs kind n rfl hm
      have hm' : munch d xs = some (kind, n) := by
        have := (munch_take hm).2 xs.length hn
        rwa [List.take_left] at this
      have hfits' : ∀ front c rest kind k, xs.drop n = front ++ c :: rest →
          munch c (rest ++ ys) = some (kind, k) → k ≤ rest.length := fun front c rest kind k hxs =>
        hfits (d :: xs.take n ++ front) c rest kind k (by
          rw [List.append_assoc, ← hxs, List.cons_append, List.take_append_drop])
      obtain ⟨us, vs, rfl, hus, hvs⟩ := ih hfits' (List.drop_append_of_le_length hn).symm
      rw [List.take_append_of_le_length hn] at hus hvs ⊢
      refine ⟨_ :: us, vs, rfl, .lexeme hm' hus, ?_⟩
      have hbytes : bytes (d :: xs) = bytes (d :: xs.take n) + bytes (xs.drop n) := by
        rw [← bytes_append, List.cons_append, List.take_append_drop]
      rwa [hbytes, ← Nat.add_assoc]

/-- A text can be cut before and behind each newline. -/
theorem Scans.cut_line {pos : Nat} {xs ys : List Char} {ls : List Lexeme}
    (h : Scans pos (xs ++ ys) ls)
    (hline : (∀ c ∈ xs.getLast?, c = '\n') ∨ ∀ c ∈ ys.head?, c = '\n') :
    ∃ us vs, ls = us ++ vs ∧ Scans pos xs us ∧ Scans (pos + bytes xs) ys vs := by
  refine h.cut fun front c rest kind n hxs hm => Nat.le_of_not_lt fun hlt => ?_
  obtain ⟨hle, -⟩ := munch_take hm
  refine newline_not_mem_of_munch hm ?_
  rw [List.take_append, List.take_of_length_le hlt.le, List.mem_append]
  rcases hline with hlast | hhead
  · cases hrest : rest.getLast? with
    | none =>
      obtain rfl := List.getLast?_eq_none_iff.1 hrest
      obtain rfl := hlast c (by simp [hxs])
      have : n = 0 := by
        have h0 : munch '\n' ([] ++ ys) = some (.token .newline, 0) := rfl
        rw [h0] at hm
        cases hm
        rfl
      omega
    | some d =>
      obtain rfl := hlast d (by simp [hxs, List.getLast?_append, List.getLast?_cons, hrest])
      exact .inl (List.mem_of_getLast? hrest)
  · cases ys with
    | nil =>
      rw [List.append_nil] at hle
      omega
    | cons d ys =>
      obtain rfl := hhead d rfl
      obtain ⟨k, hk⟩ : ∃ k, n - rest.length = k + 1 := ⟨n - rest.length - 1, by omega⟩
      exact .inr (by rw [hk]; exact List.mem_cons_self)

/-- A text can be cut before the first two slashes on its first line. -/
theorem Scans.cut_slashes {pos : Nat} {front rest : List Char} {ls : List Lexeme}
    (h : Scans pos (front ++ '/' :: '/' :: rest) ls) (hfirst : ¬ slashes <:+: front ++ ['/']) :
    ∃ us vs, ls = us ++ vs ∧ Scans pos front us ∧
      Scans (pos + bytes front) ('/' :: '/' :: rest) vs := by
  refine h.cut fun before c tail kind n hfront hm => Nat.le_of_not_lt fun hlt => ?_
  cases kind with
  | token kind =>
    refine slash_not_mem_of_munch hm ?_
    obtain ⟨k, hk⟩ : ∃ k, n - tail.length = k + 1 := ⟨n - tail.length - 1, by omega⟩
    rw [List.take_append, List.mem_append]
    exact .inr (by rw [hk]; exact List.mem_cons_self)
  | comment =>
    obtain ⟨rfl, hhead, -⟩ := munch_comment hm
    refine hfirst ⟨before, tail.tail ++ if tail = [] then [] else ['/'], ?_⟩
    cases tail with
    | nil => simp [hfront, slashes]
    | cons d tail =>
      obtain rfl := Option.some.inj hhead
      simp [hfront, slashes]

end Lexer

/-! ### What stands before on the line -/

/-- Whether something other than separators stands on the current line, after another character. -/
def contentStep (content : Bool) (c : Char) : Bool :=
  c != '\n' && (content || !Lexer.isSeparator c)

/-- Whether the last line of a text has something other than separators on it, if `content` says so of
what stands before the text. -/
def hasContent (content : Bool) (cs : List Char) : Bool := cs.foldl contentStep content

theorem hasContent_append (content : Bool) (cs ds : List Char) :
    hasContent content (cs ++ ds) = hasContent (hasContent content cs) ds := List.foldl_append

theorem hasContent_of_whole {cs : List Char} (h : '\n' ∉ cs) : ∀ content : Bool,
    hasContent content cs = (content || cs.any fun c => !Lexer.isSeparator c) := by
  induction cs with
  | nil => exact fun content => (Bool.or_false content).symm
  | cons c cs ih =>
    intro content
    rw [List.mem_cons, not_or] at h
    have hstep : contentStep content c = (content || !Lexer.isSeparator c) := by
      simp [contentStep, Ne.symm h.1]
    rw [hasContent, List.foldl_cons, ← hasContent, ih h.2, hstep, List.any_cons, Bool.or_assoc]

theorem hasContent_line {before line : List Char} (hstarts : ∀ c ∈ before.getLast?, c = '\n')
    (hwhole : '\n' ∉ line) :
    hasContent false (before ++ line) = line.any fun c => !Lexer.isSeparator c := by
  have hbefore : hasContent false before = false := by
    rcases List.eq_nil_or_concat before with rfl | ⟨init, last, rfl⟩
    · rfl
    · obtain rfl := hstarts last (by simp)
      rw [List.concat_eq_append, hasContent_append]
      rfl
  rw [hasContent_append, hbefore, hasContent_of_whole hwhole, Bool.false_or]

namespace Lexed

/-- Whether something stands on the current line behind some lexemes. -/
def contentAfter (content : Bool) (ls : List Lexeme) : Bool :=
  ls.foldl (fun _ l => l.kind != .token .newline) content

theorem bne_newline {kind : TokenKind} (h : kind ≠ .newline) :
    (LexemeKind.token kind != .token .newline) = true := by
  simp [h]

theorem exists_split_cons {β : Type} {x y : β} {xs : List β} {P : List β → Prop} :
    (∃ us vs, x :: xs = us ++ y :: vs ∧ P us) ↔
      x = y ∧ P [] ∨ ∃ us vs, xs = us ++ y :: vs ∧ P (x :: us) := by
  constructor
  · rintro ⟨_ | ⟨z, us⟩, vs, h, hp⟩
    · exact .inl ⟨(List.cons.inj h).1, hp⟩
    · obtain ⟨rfl, rfl⟩ := List.cons.inj h
      exact .inr ⟨us, vs, rfl, hp⟩
  · rintro (⟨rfl, hp⟩ | ⟨us, vs, rfl, hp⟩)
    · exact ⟨[], xs, rfl, hp⟩
    · exact ⟨x :: us, vs, rfl, hp⟩

/-- A comment trails if something stands before it on its line. -/
theorem mem_commentsOf_iff {c : Comment String} {ls : List Lexeme} : ∀ {content : Bool},
    c ∈ commentsOf content ls ↔
      ∃ us vs, ls = us ++ c.lexeme :: vs ∧ c.trailing = contentAfter content us := by
  induction ls with
  | nil => simp [commentsOf]
  | cons l ls ih =>
    intro content
    rw [exists_split_cons]
    obtain ⟨kind | _, text, span⟩ := l
    · have hstep : commentsOf content (⟨.token kind, text, span⟩ :: ls)
          = commentsOf (LexemeKind.token kind != .token .newline) ls := by
        by_cases hk : kind = .newline
        · rw [commentsOf, if_pos hk, hk]
          rfl
        · rw [commentsOf, if_neg hk, bne_newline hk]
      rw [hstep, ih]
      refine ⟨.inr, fun h => h.resolve_left fun heq => ?_⟩
      cases heq.1
    · rw [commentsOf, List.mem_cons, ih]
      refine or_congr_left ⟨?_, ?_⟩
      · rintro rfl
        exact ⟨rfl, rfl⟩
      · rintro ⟨heq, htrailing⟩
        obtain ⟨text', span', trailing⟩ := c
        cases heq
        exact congrArg _ htrailing

/-- A newline ends a blank line if nothing stands before it on its line. -/
theorem mem_blankLinesOf_iff {pos : Nat} {ls : List Lexeme} : ∀ {content : Bool},
    pos ∈ blankLinesOf content ls ↔ ∃ l : Lexeme, (l.kind = .token .newline ∧ l.span.start = pos) ∧
      ∃ us vs, ls = us ++ l :: vs ∧ contentAfter content us = false := by
  induction ls with
  | nil => simp [blankLinesOf]
  | cons l ls ih =>
    intro content
    have hsplit : (∃ x : Lexeme, (x.kind = .token .newline ∧ x.span.start = pos) ∧
        ∃ us vs, l :: ls = us ++ x :: vs ∧ contentAfter content us = false) ↔
          (l.kind = .token .newline ∧ l.span.start = pos) ∧ content = false ∨
            pos ∈ blankLinesOf (l.kind != .token .newline) ls := by
      simp only [exists_split_cons, and_or_left, exists_or, ih]
      refine or_congr_left ⟨?_, fun h => ⟨l, h.1, rfl, h.2⟩⟩
      rintro ⟨x, hx, rfl, hcontent⟩
      exact ⟨hx, hcontent⟩
    rw [hsplit]
    obtain ⟨kind | _, text, span⟩ := l
    · by_cases hk : kind = .newline
      · subst hk
        cases content <;> simp [blankLinesOf, eq_comm]
      · simp [blankLinesOf, hk, bne_newline hk]
    · simp [blankLinesOf, show (LexemeKind.comment != .token .newline) = true from rfl]

end Lexed

/-- A lexeme that is no newline is something on its line. -/
theorem hasContent_of_munch {c : Char} {cs : List Char} {kind : LexemeKind} {n : Nat}
    (h : Lexer.munch c cs = some (kind, n)) (content : Bool) :
    hasContent content (c :: cs.take n) = (kind != .token .newline) := by
  by_cases hc : c = '\n'
  · subst hc
    cases h
    rfl
  · have hkind : (kind != .token .newline) = true := by
      refine bne_iff_ne.2 ?_
      rintro rfl
      exact hc (Lexer.munch_newline_iff.1 h).1
    have hwhole : '\n' ∉ c :: cs.take n := by
      rw [List.mem_cons, not_or]
      exact ⟨Ne.symm hc, Lexer.newline_not_mem_of_munch h⟩
    rw [hasContent_of_whole hwhole, hkind, List.any_cons, Lexer.not_isSeparator_of_munch h]
    simp

/-- Where a lexeme stands in a text, and what stands on its line before it. -/
theorem Lexer.Scans.position {pos : Nat} {cs : List Char} {us vs : List Lexeme} {l : Lexeme}
    (h : Scans pos cs (us ++ l :: vs)) : ∃ pre c tail n, cs = pre ++ c :: tail ∧
      munch c tail = some (l.kind, n) ∧ l.span.start = pos + bytes pre ∧
        l.text = String.ofList (c :: tail.take n) ∧
          ∀ content, Lexed.contentAfter content us = hasContent content pre := by
  generalize hfound : us ++ l :: vs = found at h
  induction h generalizing us with
  | nil => simp at hfound
  | @separator pos c cs found hs _ ih =>
    obtain ⟨pre, d, tail, n, rfl, hm, hstart, htext, hcontent⟩ := ih hfound
    refine ⟨c :: pre, d, tail, n, rfl, hm, by rw [hstart, bytes_cons, Nat.add_assoc], htext,
      fun content => ?_⟩
    have hstep : contentStep content c = content := by
      simp only [isSeparator, Bool.or_eq_true, beq_iff_eq] at hs
      rcases hs with (rfl | rfl) | rfl <;> simp [contentStep, isSeparator]
    rw [hcontent, hasContent, hasContent, List.foldl_cons, hstep]
  | @lexeme pos k c cs kind found hm h ih =>
    cases us with
    | nil =>
      obtain ⟨rfl, rfl⟩ := List.cons.inj hfound
      exact ⟨[], c, cs, k, rfl, hm, rfl, rfl, fun _ => rfl⟩
    | cons u us =>
      obtain ⟨rfl, hrest⟩ := List.cons.inj hfound
      obtain ⟨pre, d, tail, n, hcs, hm', hstart, htext, hcontent⟩ := ih hrest
      refine ⟨c :: cs.take k ++ pre, d, tail, n, ?_, hm', ?_, htext, fun content => ?_⟩
      · rw [List.append_assoc, ← hcs, List.cons_append, List.take_append_drop]
      · rw [hstart, bytes_append, Nat.add_assoc]
      · rw [hasContent_append, ← hcontent, hasContent_of_munch hm]
        rfl

/-- What stands before a lexeme on its line can be read off the text before the lexeme. -/
theorem Lexer.Scans.contentAfter_eq {pos : Nat} {pre rest : List Char} {us vs : List Lexeme}
    {l : Lexeme} (h : Scans pos (pre ++ rest) (us ++ l :: vs))
    (hstart : l.span.start = pos + bytes pre) (content : Bool) :
    Lexed.contentAfter content us = hasContent content pre := by
  obtain ⟨pre', c, tail, n, hcs, -, hstart', -, hcontent⟩ := h.position
  obtain ⟨rfl, -⟩ := append_inj_of_bytes hcs (by omega)
  exact hcontent content

section Trivia

variable {cs : List Char} {ls : List Lexeme}

/-! ### Blank lines -/

/-- The position is that of a newline with nothing but separators before it on its line. -/
def EndsBlankLine (cs : List Char) (pos : Nat) : Prop :=
  ∃ before line after, LineOf cs before line ('\n' :: after) ∧ (∀ c ∈ line, isSeparator c) ∧
    pos = bytes (before ++ line)

theorem mem_blankLinesOf_scans (h : Scans 0 cs ls) {pos : Nat} :
    pos ∈ Lexed.blankLinesOf false ls ↔ EndsBlankLine cs pos := by
  rw [Lexed.mem_blankLinesOf_iff]
  constructor
  · rintro ⟨l, ⟨hkind, rfl⟩, us, vs, rfl, hblank⟩
    obtain ⟨pre, c, tail, n, rfl, hm, hstart, -, hcontent⟩ := h.position
    rw [hkind] at hm
    obtain ⟨rfl, rfl⟩ := Lexer.munch_newline_iff.1 hm
    obtain ⟨before, line, rfl, hstarts, hwhole⟩ := exists_line pre
    rw [hcontent, hasContent_line hstarts hwhole] at hblank
    refine ⟨before, line, tail, ⟨rfl, hstarts, hwhole, by simp⟩, ?_, by rw [hstart, Nat.zero_add]⟩
    simpa using hblank
  · rintro ⟨before, line, after, ⟨rfl, hstarts, hwhole, hends⟩, hline, rfl⟩
    obtain ⟨us, vs, rfl, -, hvs⟩ := h.cut_line (.inr hends)
    cases hvs with
    | separator hs => cases hs
    | @lexeme _ n _ _ kind vs hm _ =>
      cases hm
      refine ⟨_, ⟨rfl, Nat.zero_add _⟩, us, vs, rfl, ?_⟩
      rw [h.contentAfter_eq rfl, hasContent_line hstarts hwhole]
      simpa using hline

/-! ### Comments -/

/-- A comment of a text runs from the first two slashes on a line to the end of the line. It trails if
something other than separators stands before it on the line. -/
def IsCommentOf (cs : List Char) (c : Comment String) : Prop :=
  ∃ before front rest after, LineOf cs before (front ++ '/' :: '/' :: rest) after ∧
    ¬ slashes <:+: front ++ ['/'] ∧
      c = ⟨String.ofList ('/' :: '/' :: rest),
        ⟨bytes (before ++ front), bytes (before ++ front) + bytes ('/' :: '/' :: rest)⟩,
        front.any fun c => !isSeparator c⟩

/-- A comment that starts with two slashes goes on to the end of its line. -/
theorem munch_slashes {rest after : List Char} (hwhole : '\n' ∉ rest)
    (hends : ∀ c ∈ after.head?, c = '\n') :
    Lexer.munch '/' ('/' :: rest ++ after) = some (.comment, rest.length + 1) := by
  have hstretch : Lexer.stretch (· != '\n') ('/' :: rest ++ after) = rest.length + 1 := by
    have hall : ∀ c ∈ '/' :: rest, (c != '\n') = true := by
      simp only [List.forall_mem_cons, bne_iff_ne]
      exact ⟨by decide, fun c hc heq => hwhole (heq ▸ hc)⟩
    have hstop : after.takeWhile (· != '\n') = [] := by
      cases after with
      | nil => rfl
      | cons c after =>
        obtain rfl := hends c rfl
        rfl
    rw [Lexer.stretch, List.takeWhile_append_of_pos hall, hstop, List.append_nil, List.length_cons]
  rw [← hstretch]
  rfl

theorem mem_commentsOf_of_isCommentOf (h : Scans 0 cs ls) {c : Comment String}
    (hc : IsCommentOf cs c) : c ∈ Lexed.commentsOf false ls := by
  obtain ⟨before, front, rest, after, ⟨rfl, hstarts, hwhole, hends⟩, hfirst, rfl⟩ := hc
  rw [List.mem_append, not_or, List.mem_cons, List.mem_cons, not_or, not_or] at hwhole
  obtain ⟨hfront, -, -, hrest⟩ := hwhole
  have hall : Scans 0 (before ++ (front ++ '/' :: '/' :: (rest ++ after))) ls := by simpa using h
  obtain ⟨us₀, vs, rfl, -, hvs⟩ := hall.cut_line (.inl hstarts)
  obtain ⟨us₁, vs, rfl, -, hvs⟩ := hvs.cut_slashes hfirst
  cases hvs with
  | separator hs => cases hs
  | @lexeme _ n _ _ kind vs hm _ =>
    have hm' := munch_slashes hrest hends
    rw [List.cons_append, hm] at hm'
    cases hm'
    have htake : ('/' :: (rest ++ after)).take (rest.length + 1) = '/' :: rest := by simp
    rw [htake] at hall ⊢
    refine Lexed.mem_commentsOf_iff.2 ⟨us₀ ++ us₁, vs, ?_, ?_⟩
    · rw [List.append_assoc, Comment.lexeme, Nat.zero_add, bytes_append]
    · rw [← List.append_assoc, ← List.append_assoc] at hall
      rw [hall.contentAfter_eq (by rw [bytes_append, Nat.add_assoc]), hasContent_line hstarts hfront]

/-- A comment starts with two slashes and ends where its line does. -/
theorem exists_of_munch_comment {c : Char} {cs : List Char} {n : Nat}
    (h : Lexer.munch c cs = some (.comment, n)) : ∃ rest after, c = '/' ∧ cs = '/' :: rest ++ after ∧
      '\n' ∉ rest ∧ (∀ d ∈ after.head?, d = '\n') ∧ n = rest.length + 1 := by
  obtain ⟨rfl, hhead, rfl⟩ := Lexer.munch_comment h
  obtain ⟨tail, rfl⟩ := List.head?_eq_some_iff.1 hhead
  refine ⟨tail.takeWhile (· != '\n'), tail.dropWhile (· != '\n'), rfl, by simp, fun hmem => ?_,
    fun d hd => ?_, by simp [Lexer.stretch]⟩
  · exact absurd (List.all_eq_true.1 List.all_takeWhile _ hmem) (by decide)
  · have := List.head?_dropWhile_not (· != '\n') tail
    rw [Option.mem_def.1 hd] at this
    simpa using this

/-- Comments stand one after the other. -/
theorem apart_commentsOf (h : Scans 0 cs ls) :
    (Lexed.commentsOf false ls).Pairwise fun c d => c.span.stop ≤ d.span.start := by
  have hspans : (ls.map Lexeme.span).Pairwise fun s t => s.stop ≤ t.start :=
    List.pairwise_map.2 h.aligned.apart
  exact List.pairwise_map.1 (hspans.sublist (Lexed.span_commentsOf_sublist ls false))

theorem isCommentOf_of_mem_commentsOf (h : Scans 0 cs ls) {c : Comment String}
    (hc : c ∈ Lexed.commentsOf false ls) : IsCommentOf cs c := by
  have hmem := Lexed.lexeme_mem_of_mem_commentsOf hc
  have hstop : c.span.stop = c.span.start + bytes c.text.toList := (h.aligned.spelled _ hmem).2
  have hstart : ∃ before front rest after, c.span.start = bytes (before ++ front) ∧
      c.text = String.ofList ('/' :: '/' :: rest) ∧
        LineOf cs before (front ++ '/' :: '/' :: rest) after := by
    obtain ⟨us, vs, rfl⟩ := List.append_of_mem hmem
    obtain ⟨pre, d, tail, n, rfl, hm, hstart, htext, -⟩ := h.position
    obtain ⟨rest, after, rfl, rfl, hrest, hends, rfl⟩ := exists_of_munch_comment hm
    obtain ⟨before, front, rfl, hstarts, hfront⟩ := exists_line pre
    refine ⟨before, front, rest, after, hstart.trans (Nat.zero_add _), ?_, by simp, hstarts, ?_, hends⟩
    · simpa [Comment.lexeme] using htext
    · simp [hfront, hrest]
  obtain ⟨before, front, rest, after, hstart, htext, hline⟩ := hstart
  rw [htext, String.toList_ofList] at hstop
  -- The comment from the first two slashes on the line ends with the line as well.
  have hslashes : slashes <:+: front ++ '/' :: '/' :: rest := ⟨front, rest, by simp [slashes]⟩
  obtain ⟨front', rest', heq, hfirst⟩ := exists_first_slashes hslashes
  rw [heq] at hline
  have hcomment : IsCommentOf cs _ := ⟨before, front', rest', after, hline, hfirst, rfl⟩
  have hbytes := congrArg bytes heq
  simp only [bytes_append] at hbytes hstart
  rw [eq_of_overlap (apart_commentsOf h) hc (mem_commentsOf_of_isCommentOf h hcomment)]
  · exact hcomment
  · simp only [bytes_append]
    have := bytes_pos (List.cons_ne_nil '/' ('/' :: rest))
    omega
  · simp only [bytes_append]
    have := bytes_pos (List.cons_ne_nil '/' ('/' :: rest'))
    omega

theorem mem_commentsOf_scans (h : Scans 0 cs ls) {c : Comment String} :
    c ∈ Lexed.commentsOf false ls ↔ IsCommentOf cs c :=
  ⟨isCommentOf_of_mem_commentsOf h, mem_commentsOf_of_isCommentOf h⟩

/-- Two slashes start a comment unless they stand inside of a lexeme. -/
theorem exists_comment_iff (h : Scans 0 cs ls) {before after : List Char}
    (hcs : cs = before ++ '/' :: '/' :: after) :
    (∃ c ∈ Lexed.commentsOf false ls, c.span.start = bytes before) ↔
      ∀ l ∈ ls, ¬ (l.span.start < bytes before ∧ bytes before < l.span.stop) := by
  have ha := h.aligned
  constructor
  · rintro ⟨c, hc, hstart⟩ l hl ⟨hlo, hhi⟩
    have hmem := Lexed.lexeme_mem_of_mem_commentsOf hc
    have hpos : c.span.start < c.span.stop := (ha.bounds _ hmem).2.1
    obtain rfl := eq_of_overlap ha.apart hl hmem (hlo.trans (hstart ▸ hpos)) (hstart.trans_lt hhi)
    exact hlo.ne hstart
  · intro hnone
    have hcovered : ∃ l ∈ ls, l.span.contains (bytes before) = true := by
      by_contra hfree
      have hlt : bytes before < 0 + bytes cs := by
        have := bytes_pos (List.cons_ne_nil '/' ('/' :: after))
        rw [hcs, bytes_append]
        omega
      obtain ⟨before', c, after', heq, hbytes, hc⟩ := h.isSeparator_of_uncovered (bytes before)
        (Nat.zero_le _) hlt fun l hl hcontains => hfree ⟨l, hl, hcontains⟩
      rw [Nat.zero_add] at hbytes
      obtain ⟨-, htail⟩ := append_inj_of_bytes (hcs.symm.trans heq) hbytes
      cases htail
      cases hc
    obtain ⟨l, hl, hcontains⟩ := hcovered
    rw [Span.contains_iff] at hcontains
    have hstart : l.span.start = bytes before := by
      have := hnone l hl
      omega
    obtain ⟨us, vs, rfl⟩ := List.append_of_mem hl
    obtain ⟨pre, d, tail, n, heq, hm, hpre, -⟩ := h.position
    obtain ⟨rfl, htail⟩ := append_inj_of_bytes (heq.symm.trans hcs) (by omega)
    cases htail
    have hslashes : Lexer.munch '/' ('/' :: after)
        = some (.comment, Lexer.stretch (· != '\n') ('/' :: after)) := rfl
    rw [hslashes, Option.some.injEq, Prod.mk.injEq] at hm
    obtain ⟨kind, text, span⟩ := l
    obtain rfl : _ = kind := hm.1
    exact ⟨⟨text, span, Lexed.contentAfter false us⟩,
      Lexed.mem_commentsOf_iff.2 ⟨us, vs, rfl, rfl⟩, hstart⟩

/-- A newline stands between two comments. -/
theorem exists_newline_between (h : Scans 0 cs ls) : (Lexed.commentsOf false ls).Pairwise fun c d =>
    ∃ before after, cs = before ++ '\n' :: after ∧
      c.span.stop ≤ bytes before ∧ bytes before < d.span.start := by
  have ha := h.aligned
  refine (apart_commentsOf h).imp_of_mem fun {c d} hc hd hle => ?_
  have hd' := (ha.bounds _ (Lexed.lexeme_mem_of_mem_commentsOf hd)).2
  have hlt : d.span.start < bytes cs := by
    rw [Nat.zero_add] at hd'
    exact hd'.1.trans_le hd'.2
  obtain ⟨before, front, rest, after, hline, -, rfl⟩ := isCommentOf_of_mem_commentsOf h hc
  obtain ⟨before', front', rest', after', hline', -, rfl⟩ := isCommentOf_of_mem_commentsOf h hd
  dsimp only at hle hlt ⊢
  rw [← bytes_append, List.append_assoc] at hle ⊢
  cases after with
  | nil =>
    rw [hline.text, List.append_nil] at hlt
    omega
  | cons x after =>
    obtain rfl := hline.ends x rfl
    refine ⟨_, after, hline.text, Nat.le_refl _, hle.lt_of_ne fun heq => ?_⟩
    have htext := hline'.text
    rw [← List.append_assoc before', List.append_assoc (before' ++ front')] at htext
    obtain ⟨-, htail⟩ := append_inj_of_bytes (hline.text.symm.trans htext) heq
    cases htail

end Trivia

/-! ### The trivia of a text -/

theorem Lexed.blankLinesOf_sublist (ls : List Lexeme) : ∀ content : Bool,
    (blankLinesOf content ls).Sublist (ls.map fun l => l.span.start) := by
  induction ls with
  | nil => exact fun _ => .slnil
  | cons l ls ih =>
    intro content
    obtain ⟨kind | _, text, span⟩ := l
    · rw [blankLinesOf]
      split
      · cases content
        · exact (ih false).cons_cons span.start
        · exact (ih false).cons span.start
      · exact (ih true).cons span.start
    · exact (ih true).cons span.start

/-- The trivia are those of the source text: the newlines of all blank lines, and the comments of all
lines, both in order. Two slashes start a comment just when they do not stand inside of a token or a
comment, and there are no two comments on one line. -/
structure Lexed.RecordsTrivia (lexed : Lexed) (source : String) : Prop where
  blankLines : ∀ pos, pos ∈ lexed.trivia.blankLines ↔ EndsBlankLine source.toList pos
  blankLines_sorted : lexed.trivia.blankLines.Pairwise (· < ·)
  comments : ∀ c, c ∈ lexed.trivia.comments ↔ IsCommentOf source.toList c
  starts : ∀ before after, source.toList = before ++ '/' :: '/' :: after →
    ((∃ c ∈ lexed.trivia.comments, c.span.start = bytes before) ↔
      ∀ s ∈ lexed.spans, ¬ (s.start < bytes before ∧ bytes before < s.stop))
  lines : lexed.trivia.comments.Pairwise fun c d => ∃ before after,
    source.toList = before ++ '\n' :: after ∧
      c.span.stop ≤ bytes before ∧ bytes before < d.span.start

/-- Lexing records the trivia of the source text. -/
theorem lex_trivia {source : String} {lexed : Lexed} (h : lex source = .ok lexed) :
    lexed.RecordsTrivia source := by
  obtain ⟨found, hs, rfl⟩ := lex_eq_ok.1 h
  have htrivia := Lexed.trivia_ofLexemes found source.utf8ByteSize
  have hspans := Lexed.spans_ofLexemes hs.aligned source.utf8ByteSize
  have hstarts : (found.map fun l => l.span.start).Pairwise (· < ·) :=
    List.pairwise_map.2 (hs.aligned.apart.imp_of_mem fun {a b} ha _ hab =>
      (hs.aligned.bounds a ha).2.1.trans_le hab)
  refine ⟨fun pos => ?_, ?_, fun c => ?_, fun before after hsource => ?_, ?_⟩ <;> rw [htrivia]
  · exact mem_blankLinesOf_scans hs
  · exact hstarts.sublist (Lexed.blankLinesOf_sublist found false)
  · exact mem_commentsOf_scans hs
  · rw [hspans, List.forall_mem_map]
    exact exists_comment_iff hs hsource
  · exact exists_newline_between hs

/-- A blank first line, a carriage return on a blank line, a comment with slashes in it, and one at the
end of the text. -/
theorem lex_trivia_carriage_return : ∃ lexed,
    lex "\n \r\n// a // b\n\t;x/ //" = .ok lexed ∧
      lexed.RecordsTrivia "\n \r\n// a // b\n\t;x/ //" ∧
        lexed.trivia = ⟨[⟨"// a // b", ⟨4, 13⟩, false⟩, ⟨"//", ⟨19, 21⟩, true⟩], [0, 3]⟩ := by
  obtain ⟨lexed, h, hchecked⟩ : ∃ lexed, lex "\n \r\n// a // b\n\t;x/ //" = .ok lexed ∧
      (lexed.trivia == ⟨[⟨"// a // b", ⟨4, 13⟩, false⟩, ⟨"//", ⟨19, 21⟩, true⟩], [0, 3]⟩) = true :=
    exists_lex _ (by decide +kernel)
  exact ⟨lexed, h, lex_trivia h, beq_iff_eq.1 hchecked⟩

end Recast
