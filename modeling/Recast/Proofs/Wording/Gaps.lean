/-!
# Gaps of texts

A gap of a text is a space with the characters before and after it. Where a text is known to have a
gap with certain neighbours in one place only, there is one way to cut it there (`cut_unique`). In
texts of the language a space always stands beside an operator or after a comma (`Phrase`), so the
words of a message cannot be mistaken for words of an expression that it quotes.
-/

namespace Recast

/-- The characters before and after each space that has both, in order. -/
def gaps : List Char → List (Char × Char)
  | x :: s :: y :: cs => if s = ' ' then (x, y) :: gaps (s :: y :: cs) else gaps (s :: y :: cs)
  | _ => []

theorem mem_gaps {x y : Char} {cs : List Char} :
    (x, y) ∈ gaps cs ↔ ∃ before after, cs = before ++ x :: ' ' :: y :: after := by
  constructor
  · fun_induction gaps cs with
    | case1 x' y' cs ih =>
      intro h
      rcases List.mem_cons.1 h with h | h
      · cases h
        exact ⟨[], cs, rfl⟩
      · obtain ⟨before, after, e⟩ := ih h
        exact ⟨x' :: before, after, by rw [e]; rfl⟩
    | case2 x' s y' cs hs ih =>
      intro h
      obtain ⟨before, after, e⟩ := ih h
      exact ⟨x' :: before, after, by rw [e]; rfl⟩
    | case3 => simp
  · rintro ⟨before, after, rfl⟩
    have later {c s : Char} {rest : List Char} (h : (x, y) ∈ gaps (s :: rest)) :
        (x, y) ∈ gaps (c :: s :: rest) := by
      cases rest with
      | nil => simp [gaps] at h
      | cons d rest =>
        rw [gaps]
        split
        · exact List.mem_cons_of_mem _ h
        · exact h
    induction before with
    | nil => simp [gaps]
    | cons c before ih =>
      cases before with
      | nil => exact later ih
      | cons d before => exact later ih

/-- A text that neither starts nor ends with a space. -/
structure Tight (cs : List Char) : Prop where
  head : cs.head? ≠ some ' '
  last : cs.getLast? ≠ some ' '

instance (cs : List Char) : Decidable (Tight cs) :=
  decidable_of_iff (cs.head? ≠ some ' ' ∧ cs.getLast? ≠ some ' ')
    ⟨fun h => ⟨h.1, h.2⟩, fun h => ⟨h.1, h.2⟩⟩

theorem Tight.append {a b : List Char} (ha : Tight a) (hb : Tight b) : Tight (a ++ b) where
  head := by
    rw [List.head?_append]
    cases h : a.head? with
    | none => simpa using hb.head
    | some c => simpa [h] using ha.head
  last := by
    rw [List.getLast?_append]
    cases h : b.getLast? with
    | none => simpa using ha.last
    | some c => simpa [h] using hb.last

/-- Two tight texts that are not empty, with a space between them. -/
theorem Tight.space {a b : List Char} (ha : Tight a) (hb : Tight b) (ne : a ≠ []) (ne' : b ≠ []) :
    Tight (a ++ ' ' :: b) where
  head := by
    cases a with
    | nil => exact absurd rfl ne
    | cons c a => simpa using ha.head
  last := by
    obtain ⟨d, b, rfl⟩ := List.exists_cons_of_ne_nil ne'
    rw [List.getLast?_append]
    simpa [List.getLast?_cons_cons] using hb.last

/-- No gap of the text has the property. -/
def Avoids (P : Char → Char → Prop) (cs : List Char) : Prop := ∀ g ∈ gaps cs, ¬ P g.1 g.2

instance (P : Char → Char → Prop) [∀ x y, Decidable (P x y)] (cs : List Char) :
    Decidable (Avoids P cs) :=
  inferInstanceAs (Decidable (∀ g ∈ gaps cs, ¬ P g.1 g.2))

theorem gaps_eq_nil_of_not_mem {cs : List Char} (h : ' ' ∉ cs) : gaps cs = [] := by
  refine List.eq_nil_iff_forall_not_mem.2 fun ⟨x, y⟩ hg => ?_
  obtain ⟨before, after, rfl⟩ := mem_gaps.1 hg
  simp at h

/-- A gap of two texts in a row lies in one of them or where they meet. -/
theorem mem_gaps_append_cases {a b : List Char} {x y : Char} (h : (x, y) ∈ gaps (a ++ b)) :
    (x, y) ∈ gaps a ∨ (x, y) ∈ gaps b ∨ (a.getLast? = some x ∧ ∃ after, b = ' ' :: y :: after) ∨
      a.getLast? = some ' ' := by
  obtain ⟨before, after, he⟩ := mem_gaps.1 h
  rcases List.append_eq_append_iff.1 he with ⟨c, rfl, rfl⟩ | ⟨c, rfl, e⟩
  · exact .inr (.inl (mem_gaps.2 ⟨c, after, rfl⟩))
  -- The part `c` of the gap and what follows it belongs to the first text.
  · rcases c with _ | ⟨c₁, _ | ⟨c₂, _ | ⟨c₃, c⟩⟩⟩
    · exact .inr (.inl (mem_gaps.2 ⟨[], after, e.symm⟩))
    · simp only [List.cons_append, List.nil_append, List.cons.injEq] at e
      exact .inr (.inr (.inl ⟨by simp [e.1], after, e.2.symm⟩))
    · simp only [List.cons_append, List.nil_append, List.cons.injEq] at e
      exact .inr (.inr (.inr (by simp [← e.2.1])))
    · simp only [List.cons_append, List.cons.injEq] at e
      obtain ⟨rfl, rfl, rfl, -⟩ := e
      exact .inl (mem_gaps.2 ⟨before, c, rfl⟩)

theorem mem_gaps_append {a b : List Char} (ha : a.getLast? ≠ some ' ') (hb : b.head? ≠ some ' ')
    {x y : Char} (h : (x, y) ∈ gaps (a ++ b)) : (x, y) ∈ gaps a ∨ (x, y) ∈ gaps b := by
  rcases mem_gaps_append_cases h with h | h | ⟨-, after, rfl⟩ | hlast
  · exact .inl h
  · exact .inr h
  · exact absurd rfl hb
  · exact absurd hlast ha

theorem mem_gaps_space {a b : List Char} (ha : a.getLast? ≠ some ' ') (hb : b.head? ≠ some ' ')
    {x y : Char} (h : (x, y) ∈ gaps (a ++ ' ' :: b)) :
    (x, y) ∈ gaps a ∨ (a.getLast? = some x ∧ b.head? = some y) ∨ (x, y) ∈ gaps b := by
  rcases mem_gaps_append_cases h with h | h | ⟨hx, after, hy⟩ | hlast
  · exact .inl h
  · obtain ⟨_ | ⟨c, before⟩, after, he⟩ := mem_gaps.1 h
    · obtain ⟨-, rfl⟩ := List.cons.inj he
      exact absurd rfl hb
    · exact .inr (.inr (mem_gaps.2 ⟨before, after, (List.cons.inj he).2⟩))
  · exact .inr (.inl ⟨hx, by rw [(List.cons.inj hy).2]; rfl⟩)
  · exact absurd hlast ha

namespace Avoids

variable {P : Char → Char → Prop} {a b : List Char}

theorem append (ha : Avoids P a) (hb : Avoids P b) (ta : Tight a) (tb : Tight b) :
    Avoids P (a ++ b) := by
  rintro ⟨x, y⟩ h
  rcases mem_gaps_append ta.last tb.head h with h | h
  · exact ha _ h
  · exact hb _ h

theorem space (ha : Avoids P a) (hb : Avoids P b) (ta : Tight a) (tb : Tight b)
    (between : ∀ x y, a.getLast? = some x → b.head? = some y → ¬ P x y) :
    Avoids P (a ++ ' ' :: b) := by
  rintro ⟨x, y⟩ h
  rcases mem_gaps_space ta.last tb.head h with h | ⟨hx, hy⟩ | h
  · exact ha _ h
  · exact between x y hx hy
  · exact hb _ h

end Avoids

/-- A text is cut in one way at a gap of which there is only one. -/
theorem cut_unique {P : Char → Char → Prop} {a b a' b' : List Char} {x y : Char}
    (h : a ++ ' ' :: b = a' ++ ' ' :: b') (hx : a.getLast? = some x) (hy : b.head? = some y)
    (hP : P x y) (ny : y ≠ ' ') (nb : b'.head? ≠ some ' ') (ha : Avoids P a') (hb : Avoids P b') :
    a = a' ∧ b = b' := by
  obtain ⟨a, rfl⟩ := List.getLast?_eq_some_iff.1 hx
  obtain ⟨b, rfl⟩ := List.head?_eq_some_iff.1 hy
  rcases List.append_eq_append_iff.1 h with ⟨c, rfl, e⟩ | ⟨c, e', e⟩
  · rcases c with _ | ⟨c₁, _ | ⟨c₂, c⟩⟩
    · simpa using e
    · simp at e
      exact absurd e.2.1 ny
    · simp at e
      obtain ⟨rfl, rfl, -⟩ := e
      exact absurd hP (ha (x, y) (mem_gaps.2 ⟨a, c, by simp⟩))
  · rcases List.eq_nil_or_concat c with rfl | ⟨c, d, rfl⟩
    · simp at e' e
      simp [e', e]
    · rw [List.concat_eq_append, ← List.append_assoc] at e'
      obtain ⟨rfl, hd⟩ := List.append_inj' e' rfl
      obtain rfl : x = d := by simpa using hd
      rcases c with _ | ⟨c₁, c⟩
      · simp at e
        simp [e.2] at nb
      · simp at e
        exact absurd hP (hb (x, y) (mem_gaps.2 ⟨c, b, by simp [e.2]⟩))

/-! ### Pieces -/

/-- A piece that a longer text is made of: it is not empty, its ends are no spaces, and it has no
gaps of some sort. -/
structure Piece (P : Char → Char → Prop) (cs : List Char) : Prop extends Tight cs where
  ne : cs ≠ []
  avoids : Avoids P cs

instance (P : Char → Char → Prop) [∀ x y, Decidable (P x y)] (cs : List Char) :
    Decidable (Piece P cs) :=
  decidable_of_iff (Tight cs ∧ cs ≠ [] ∧ Avoids P cs)
    ⟨fun h => ⟨h.1, h.2.1, h.2.2⟩, fun h => ⟨h.1, h.2, h.3⟩⟩

theorem Piece.mono {P Q : Char → Char → Prop} {cs : List Char} (h : Piece P cs)
    (hQ : ∀ x y, Q x y → P x y) : Piece Q cs where
  toTight := h.toTight
  ne := h.ne
  avoids g hg hq := h.avoids g hg (hQ _ _ hq)

/-- Pieces with a space between each and the next. -/
def spaced : List (List Char) → List Char
  | [] => []
  | [piece] => piece
  | piece :: next :: pieces => piece ++ ' ' :: spaced (next :: pieces)

/-- Pieces without gaps of some sort, which have none between them either. -/
def Pieces (P : Char → Char → Prop) : List (List Char) → Prop
  | [] => True
  | [piece] => Piece P piece
  | piece :: next :: pieces =>
    Piece P piece ∧ (∀ x ∈ piece.getLast?, ∀ y ∈ next.head?, ¬ P x y) ∧ Pieces P (next :: pieces)

theorem Piece.append {P : Char → Char → Prop} {a b : List Char} (ha : Piece P a)
    (hb : Piece P b) : Piece P (a ++ b) where
  toTight := ha.toTight.append hb.toTight
  ne := by simp [ha.ne]
  avoids := ha.avoids.append hb.avoids ha.toTight hb.toTight

theorem Piece.space {P : Char → Char → Prop} {a b : List Char} (ha : Piece P a) (hb : Piece P b)
    (between : ∀ x y, a.getLast? = some x → b.head? = some y → ¬ P x y) :
    Piece P (a ++ ' ' :: b) where
  toTight := ha.toTight.space hb.toTight ha.ne hb.ne
  ne := by simp
  avoids := ha.avoids.space hb.avoids ha.toTight hb.toTight between

/-- Pieces with commas between. -/
theorem Piece.commas {P : Char → Char → Prop} (comma : Piece P [',']) (hc : ∀ y, ¬ P ',' y) :
    ∀ items : List (List Char), items ≠ [] → (∀ item ∈ items, Piece P item) →
      Piece P ([',', ' '].intercalate items)
  | [], ne, _ => absurd rfl ne
  | [item], _, h => by simpa using h item
  | item :: next :: items, _, h => by
    have ih := Piece.commas comma hc (next :: items) (by simp)
      fun item hi => h item (by simp [hi])
    have := ((h item (by simp)).append comma).space ih (by
      rintro x y hx -
      obtain rfl : ',' = x := by simpa using hx
      exact hc y)
    simpa [List.intercalate_cons_cons] using this

instance (P : Char → Char → Prop) [∀ x y, Decidable (P x y)] (piece : List Char) :
    Decidable (Pieces P [piece]) :=
  inferInstanceAs (Decidable (Piece P piece))

theorem head?_spaced {pieces : List (List Char)} {piece : List Char} (ne : piece ≠ []) :
    (spaced (piece :: pieces)).head? = piece.head? := by
  obtain ⟨c, piece, rfl⟩ := List.exists_cons_of_ne_nil ne
  cases pieces <;> rfl

/-- Pieces make a piece. -/
theorem Pieces.spaced {P : Char → Char → Prop} : ∀ {pieces : List (List Char)}, pieces ≠ [] →
    Pieces P pieces → Piece P (spaced pieces)
  | [], ne, _ => absurd rfl ne
  | [_], _, h => h
  | piece :: next :: pieces, _, ⟨h, between, rest⟩ => by
    have ih := Pieces.spaced (by simp) rest
    have ne : next ≠ [] := by
      cases pieces with
      | nil => exact rest.ne
      | cons _ _ => exact rest.1.ne
    exact h.space ih fun x y hx hy => between x hx y (by rwa [head?_spaced ne] at hy)

/-! ### Phrases -/

/-- Operator characters and the comma. -/
def isMark (c : Char) : Bool := "+-*/%=<>!,".toList.contains c

/-- A text as expressions have it: on one line, without spaces at its ends, and with a mark on one
side of each space. -/
structure Phrase (cs : List Char) : Prop extends Tight cs where
  ne : cs ≠ []
  oneLine : '\n' ∉ cs
  marked : ∀ g ∈ gaps cs, isMark g.1 ∨ isMark g.2

namespace Phrase

variable {a b : List Char}

theorem append (ha : Phrase a) (hb : Phrase b) : Phrase (a ++ b) where
  toTight := ha.toTight.append hb.toTight
  ne := by simp [ha.ne]
  oneLine := by simp [ha.oneLine, hb.oneLine]
  marked := by
    rintro ⟨x, y⟩ h
    rcases mem_gaps_append ha.last hb.head h with h | h
    · exact ha.marked _ h
    · exact hb.marked _ h

theorem space (ha : Phrase a) (hb : Phrase b)
    (between : (∀ x, a.getLast? = some x → isMark x) ∨ ∀ y, b.head? = some y → isMark y) :
    Phrase (a ++ ' ' :: b) where
  toTight := ha.toTight.space hb.toTight ha.ne hb.ne
  ne := by simp
  oneLine := by simp [ha.oneLine, hb.oneLine]
  marked := by
    rintro ⟨x, y⟩ h
    rcases mem_gaps_space ha.last hb.head h with h | ⟨hx, hy⟩ | h
    · exact ha.marked _ h
    · exact between.imp (· x hx) (· y hy)
    · exact hb.marked _ h

/-- A text without spaces is a phrase if it is on one line. -/
theorem of_not_mem (ne : a ≠ []) (h : ' ' ∉ a) (line : '\n' ∉ a) : Phrase a where
  head e := h (List.mem_of_mem_head? e)
  last e := h (List.mem_of_getLast? e)
  ne := ne
  oneLine := line
  marked := by simp [gaps_eq_nil_of_not_mem h]

/-- A phrase has no gaps but marked ones. -/
theorem piece (h : Phrase a) {P : Char → Char → Prop}
    (hP : ∀ x y, P x y → isMark x = false ∧ isMark y = false) : Piece P a where
  toTight := h.toTight
  ne := h.ne
  avoids := by
    intro g hg hp
    have := hP _ _ hp
    rcases h.marked g hg with hm | hm <;> simp_all

end Phrase

end Recast
