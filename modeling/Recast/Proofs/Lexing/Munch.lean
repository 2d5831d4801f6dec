import Recast.Lexer

/-!
# Longest lexemes

The lexeme at the head of a text is the longest one of the lexeme's own text, and it stays the
longest one when the text goes on with a character that belongs to no lexeme but itself. Words and
numbers have no blanks in them.
-/

namespace Recast

namespace Lexer

/-- Characters that end every lexeme before them. -/
def isBreak (c : Char) : Bool := " \n(){},".toList.contains c

/-- The text is over or goes on with a character that ends the lexeme before it. -/
def Breaks (rest : List Char) : Prop := ∀ c, rest.head? = some c → isBreak c

theorem Breaks.nil : Breaks [] := by simp [Breaks]

theorem Breaks.cons {c : Char} (h : isBreak c) {rest : List Char} : Breaks (c :: rest) := by
  simpa [Breaks] using h

/-- A property of characters that no character has that ends lexemes. -/
def Inner (p : Char → Bool) : Prop := ∀ c, isBreak c → p c = false

theorem isBreak_iff {c : Char} :
    isBreak c ↔ c = ' ' ∨ c = '\n' ∨ c = '(' ∨ c = ')' ∨ c = '{' ∨ c = '}' ∨ c = ',' := by
  simp [isBreak]

theorem inner_isDigitChar : Inner isDigitChar := by
  intro c h
  rcases isBreak_iff.1 h with rfl | rfl | rfl | rfl | rfl | rfl | rfl <;> rfl

theorem inner_isDigit : Inner Char.isDigit := by
  intro c h
  rcases isBreak_iff.1 h with rfl | rfl | rfl | rfl | rfl | rfl | rfl <;> rfl

theorem inner_isWordChar : Inner isWordChar := by
  intro c h
  rcases isBreak_iff.1 h with rfl | rfl | rfl | rfl | rfl | rfl | rfl <;> rfl

theorem isWordChar_of_isWordStart {c : Char} (h : isWordStart c) : isWordChar c := by
  simp only [isWordStart, isWordChar, Char.isAlphanum, Bool.or_eq_true] at h ⊢
  rcases h with h | h <;> simp [h]

/-! ### Stretches -/

theorem stretch_le (p : Char → Bool) (cs : List Char) : stretch p cs ≤ cs.length :=
  (List.takeWhile_prefix p).length_le

theorem stretch_take (p : Char → Bool) (cs : List Char) (n : Nat) :
    stretch p (cs.take n) = min n (stretch p cs) := by
  rw [stretch, stretch, ← List.take_takeWhile, List.length_take]

theorem stretch_append {p : Char → Bool} (hp : Inner p) (cs : List Char) {rest : List Char}
    (hr : Breaks rest) : stretch p (cs ++ rest) = stretch p cs := by
  rw [stretch, stretch, List.takeWhile_append]
  split
  · rename_i hall
    have : rest.takeWhile p = [] := by
      cases rest with
      | nil => rfl
      | cons c rest => rw [List.takeWhile_cons_of_neg (by simp [hp c (hr c rfl)])]
    rw [this, List.append_nil, hall]
  · rfl

theorem take_stretch (p : Char → Bool) (cs : List Char) :
    ∀ c ∈ cs.take (stretch p cs), p c := by
  have h : cs.take (stretch p cs) = cs.takeWhile p :=
    (List.prefix_iff_eq_take.1 (List.takeWhile_prefix p)).symm
  rw [h]
  exact fun c hc => List.all_eq_true.1 List.all_takeWhile c hc

/-! ### Numbers -/

/-- How many characters the sign at the head of an exponent takes. -/
def signLength : List Char → Nat
  | '+' :: _ | '-' :: _ => 1
  | _ => 0

theorem signLength_cons (c : Char) (cs : List Char) :
    signLength (c :: cs) = if c = '+' ∨ c = '-' then 1 else 0 := by
  unfold signLength
  split <;> simp_all

theorem exponent?_cons (e : Char) (cs : List Char) : exponent? (e :: cs) =
    if e == 'e' || e == 'E' then
      match stretch Char.isDigit (cs.drop (signLength cs)) with
      | 0 => none
      | digits => some (1 + signLength cs + digits)
    else none := rfl

theorem exponent?_eq_some {cs : List Char} {n : Nat} : exponent? cs = some n ↔
    ∃ e rest, cs = e :: rest ∧ (e = 'e' ∨ e = 'E') ∧
      0 < stretch Char.isDigit (rest.drop (signLength rest)) ∧
        n = 1 + signLength rest + stretch Char.isDigit (rest.drop (signLength rest)) := by
  cases cs with
  | nil => simp [exponent?]
  | cons e rest =>
    rw [exponent?_cons]
    constructor
    · intro h
      split at h
      · rename_i he
        split at h
        · cases h
        · rename_i hd
          cases h
          exact ⟨e, rest, rfl, by simpa using he, Nat.pos_of_ne_zero hd, rfl⟩
      · cases h
    · rintro ⟨e', rest', he, hor, hpos, rfl⟩
      cases he
      rw [if_pos (by simpa using hor)]
      split
      · omega
      · rfl

theorem signLength_le (cs : List Char) : signLength cs ≤ 1 := by
  unfold signLength
  split <;> simp

theorem signLength_take (cs : List Char) {n : Nat} (h : 0 < n) :
    signLength (cs.take n) = signLength cs := by
  obtain ⟨n, rfl⟩ := Nat.exists_eq_add_of_lt h
  cases cs with
  | nil => rfl
  | cons c cs => rw [Nat.zero_add, List.take_succ_cons, signLength_cons, signLength_cons]

/-- An exponent is found again, and none where there is none, in a text that is cut off after it. -/
theorem exponent?_take {cs : List Char} {k : Nat} (hk : (exponent? cs).getD 0 ≤ k) :
    exponent? (cs.take k) = exponent? cs := by
  cases h : exponent? cs with
  | some n =>
    rw [h, Option.getD_some] at hk
    obtain ⟨e, rest, rfl, he, hpos, rfl⟩ := exponent?_eq_some.1 h
    obtain ⟨k, rfl⟩ : ∃ k', k = k' + 1 := ⟨k - 1, by omega⟩
    refine exponent?_eq_some.2 ⟨e, rest.take k, by rw [List.take_succ_cons], he, ?_⟩
    rw [signLength_take _ (by omega), List.drop_take, stretch_take]
    omega
  | none =>
    refine Option.eq_none_iff_forall_ne_some.2 fun n hn => ?_
    obtain ⟨e, rest', heq, he, hpos, -⟩ := exponent?_eq_some.1 hn
    rcases cs with _ | ⟨e', rest⟩
    · simp at heq
    obtain ⟨k, rfl⟩ : ∃ k', k = k' + 1 := by
      cases k with
      | zero => simp at heq
      | succ k => exact ⟨k, rfl⟩
    rw [List.take_succ_cons] at heq
    obtain ⟨rfl, rfl⟩ := List.cons.inj heq
    have hk' : 0 < k := by
      refine Nat.pos_of_ne_zero fun h0 => ?_
      simp [h0, stretch] at hpos
    rw [signLength_take _ hk', List.drop_take, stretch_take] at hpos
    have := exponent?_eq_some.2 ⟨e', rest, rfl, he, by omega, rfl⟩
    rw [h] at this
    cases this

theorem exponent?_append (cs : List Char) {rest : List Char} (hr : Breaks rest) :
    exponent? (cs ++ rest) = exponent? cs := by
  have hsign : ∀ cs : List Char, signLength (cs ++ rest) = signLength cs := by
    intro cs
    cases cs with
    | nil =>
      cases rest with
      | nil => rfl
      | cons c rest =>
        rcases isBreak_iff.1 (hr c rfl) with rfl | rfl | rfl | rfl | rfl | rfl | rfl <;> rfl
    | cons c cs => rw [List.cons_append, signLength_cons, signLength_cons]
  cases cs with
  | nil =>
    cases rest with
    | nil => rfl
    | cons c rest =>
      rcases isBreak_iff.1 (hr c rfl) with rfl | rfl | rfl | rfl | rfl | rfl | rfl <;> rfl
  | cons e cs =>
    have hdrop : (cs ++ rest).drop (signLength cs) = cs.drop (signLength cs) ++ rest := by
      refine List.drop_append_of_le_length ?_
      cases cs with
      | nil => simp [signLength]
      | cons c cs => exact Nat.le_trans (signLength_le _) (by simp)
    rw [List.cons_append, exponent?_cons, exponent?_cons, hsign, hdrop,
      stretch_append inner_isDigit _ hr]

/-- Whether a fraction follows: a point and a digit. -/
def hasFraction : List Char → Bool
  | '.' :: d :: _ => d.isDigit
  | _ => false

/-- Number of characters that a fraction and an exponent take after the whole digits. -/
def fractionLength (cs : List Char) : Nat :=
  2 + stretch isDigitChar (cs.drop 2)
    + (exponent? ((cs.drop 2).drop (stretch isDigitChar (cs.drop 2)))).getD 0

/-- The kind of a number by what follows its whole digits, and how many characters of that belong to
it. -/
def numberTail (cs : List Char) : LiteralKind × Nat :=
  if hasFraction cs then (.float, fractionLength cs)
  else (exponent? cs).elim (.int, 0) fun n => (.float, n)

theorem number_eq (cs : List Char) : number cs =
    ((numberTail (cs.drop (stretch isDigitChar cs))).1,
      stretch isDigitChar cs + (numberTail (cs.drop (stretch isDigitChar cs))).2) := by
  rw [number]
  dsimp only
  split
  · rename_i d rest heq
    rw [heq]
    by_cases hd : d.isDigit
    · simp [numberTail, hasFraction, hd, fractionLength, Nat.add_assoc]
    · simp [numberTail, hasFraction, hd, exponent?]
  · rename_i rest hne
    have : hasFraction (cs.drop (stretch isDigitChar cs)) = false := by
      unfold hasFraction
      split
      · rename_i d rest heq
        exact absurd heq (hne d rest)
      · rfl
    simp only [numberTail, this, Bool.false_eq_true, if_false]
    cases exponent? (cs.drop (stretch isDigitChar cs)) <;> rfl

theorem hasFraction_eq_true {cs : List Char} :
    hasFraction cs ↔ ∃ d rest, cs = '.' :: d :: rest ∧ d.isDigit := by
  unfold hasFraction
  split
  · simp
  · rename_i hne
    simp only [Bool.false_eq_true, false_iff]
    rintro ⟨d, rest, rfl, -⟩
    exact hne d rest rfl

theorem hasFraction_append (cs : List Char) {rest : List Char} (hr : Breaks rest) :
    hasFraction (cs ++ rest) = hasFraction cs := by
  rw [Bool.eq_iff_iff, hasFraction_eq_true, hasFraction_eq_true]
  constructor
  · rintro ⟨d, tail, h, hd⟩
    rcases cs with _ | ⟨x, _ | ⟨y, cs⟩⟩
    · have := hr '.' (by rw [← List.nil_append rest, h]; rfl)
      simp [isBreak] at this
    · have := hr d (by cases h; rfl)
      rw [inner_isDigit d this] at hd
      cases hd
    · cases h
      exact ⟨_, _, rfl, hd⟩
  · rintro ⟨d, tail, rfl, hd⟩
    exact ⟨d, tail ++ rest, rfl, hd⟩

theorem fractionLength_append {cs : List Char} (h : hasFraction cs) {rest : List Char}
    (hr : Breaks rest) : fractionLength (cs ++ rest) = fractionLength cs := by
  obtain ⟨d, tail, rfl, -⟩ := hasFraction_eq_true.1 h
  simp only [fractionLength, List.cons_append, List.drop_succ_cons, List.drop_zero,
    stretch_append inner_isDigitChar _ hr]
  rw [List.drop_append_of_le_length (stretch_le _ _), exponent?_append _ hr]

/-- A number goes on no further than its own text. -/
theorem number_append (cs : List Char) {rest : List Char} (hr : Breaks rest) :
    number (cs ++ rest) = number cs := by
  have htail : ∀ tail, numberTail (tail ++ rest) = numberTail tail := by
    intro tail
    rw [numberTail, numberTail, exponent?_append _ hr, hasFraction_append _ hr]
    by_cases h : hasFraction tail
    · rw [if_pos h, if_pos h, fractionLength_append h hr]
    · rw [if_neg h, if_neg h]
  rw [number_eq, number_eq, stretch_append inner_isDigitChar cs hr,
    List.drop_append_of_le_length (stretch_le _ _), htail]

theorem fractionLength_cons (x y : Char) (tail : List Char) :
    fractionLength (x :: y :: tail) = stretch isDigitChar tail
      + (exponent? (tail.drop (stretch isDigitChar tail))).getD 0 + 1 + 1 := by
  simp only [fractionLength, List.drop_succ_cons, List.drop_zero]
  omega

theorem hasFraction_of_take {cs : List Char} {k : Nat} (h : hasFraction (cs.take k)) :
    hasFraction cs := by
  obtain ⟨d, rest, heq, hd⟩ := hasFraction_eq_true.1 h
  rcases cs with _ | ⟨x, _ | ⟨y, cs⟩⟩ <;> rcases k with _ | _ | k <;> simp at heq
  obtain ⟨rfl, rfl, -⟩ := heq
  exact hasFraction_eq_true.2 ⟨_, _, rfl, hd⟩

theorem fractionLength_take {cs : List Char} {k : Nat} (h : hasFraction cs)
    (hk : fractionLength cs ≤ k) :
    hasFraction (cs.take k) ∧ fractionLength (cs.take k) = fractionLength cs := by
  obtain ⟨d, tail, rfl, hd⟩ := hasFraction_eq_true.1 h
  rw [fractionLength_cons] at hk
  obtain ⟨k, rfl⟩ : ∃ k', k = k' + 1 + 1 := ⟨k - 2, by omega⟩
  rw [List.take_succ_cons, List.take_succ_cons]
  refine ⟨hasFraction_eq_true.2 ⟨d, _, rfl, hd⟩, ?_⟩
  rw [fractionLength_cons, fractionLength_cons, stretch_take, Nat.min_eq_right (by omega),
    List.drop_take, exponent?_take (by omega)]

theorem numberTail_take {cs : List Char} {k : Nat} (hk : (numberTail cs).2 ≤ k) :
    numberTail (cs.take k) = numberTail cs := by
  by_cases h : hasFraction cs
  · simp only [numberTail, h, if_true] at hk
    obtain ⟨h', hlen⟩ := fractionLength_take h hk
    simp only [numberTail, h, h', if_true, hlen]
  · have h' : ¬ hasFraction (cs.take k) := fun h' => h (hasFraction_of_take h')
    have he : (exponent? cs).getD 0 ≤ k := by
      cases he : exponent? cs <;> simp_all [numberTail]
    rw [numberTail, numberTail, if_neg h, if_neg h', exponent?_take he]

/-- A number is found again in a text that is cut off after it. -/
theorem number_take {cs : List Char} {k : Nat} (hk : (number cs).2 ≤ k) :
    number (cs.take k) = number cs := by
  rw [number_eq] at hk
  dsimp only at hk
  rw [number_eq cs, number_eq, stretch_take, Nat.min_eq_right (by omega), List.drop_take,
    numberTail_take (by omega)]

/-- Characters that occur in numbers. -/
def isNumberChar (c : Char) : Bool := isDigitChar c || ".eE+-".toList.contains c

theorem isNumberChar_of_isDigit {c : Char} (h : c.isDigit) : isNumberChar c := by
  simp [isNumberChar, isDigitChar, h]

/-- The first characters of a text are characters of numbers. -/
def Numeric (n : Nat) (cs : List Char) : Prop := n ≤ cs.length ∧ ∀ c ∈ cs.take n, isNumberChar c

theorem Numeric.zero (cs : List Char) : Numeric 0 cs := by simp [Numeric]

theorem Numeric.cons {n : Nat} {c : Char} {cs : List Char} (hc : isNumberChar c)
    (h : Numeric n cs) : Numeric (n + 1) (c :: cs) := by
  refine ⟨Nat.succ_le_succ h.1, ?_⟩
  rw [List.take_succ_cons]
  exact List.forall_mem_cons.2 ⟨hc, h.2⟩

theorem Numeric.add {m n : Nat} {cs : List Char} (h : Numeric m cs) (h' : Numeric n (cs.drop m)) :
    Numeric (m + n) cs := by
  obtain ⟨hm, hp⟩ := h
  obtain ⟨hn, hp'⟩ := h'
  rw [List.length_drop] at hn
  refine ⟨by omega, fun c hc => ?_⟩
  rw [List.take_add, List.mem_append] at hc
  exact hc.elim (hp c) (hp' c)

theorem numeric_stretch {p : Char → Bool} (hp : ∀ c, p c → isNumberChar c) (cs : List Char) :
    Numeric (stretch p cs) cs :=
  ⟨stretch_le p cs, fun c hc => hp c (take_stretch p cs c hc)⟩

theorem numeric_digits (cs : List Char) : Numeric (stretch isDigitChar cs) cs :=
  numeric_stretch (fun c h => by simp [isNumberChar, h]) cs

theorem numeric_signLength (cs : List Char) : Numeric (signLength cs) cs := by
  cases cs with
  | nil => exact .zero _
  | cons c cs =>
    rw [signLength_cons]
    split
    · rename_i h
      exact .cons (by rcases h with rfl | rfl <;> rfl) (.zero _)
    · exact .zero _

theorem numeric_exponent? (cs : List Char) : Numeric ((exponent? cs).getD 0) cs := by
  cases h : exponent? cs with
  | none => exact .zero _
  | some n =>
    obtain ⟨e, rest, rfl, he, -, rfl⟩ := exponent?_eq_some.1 h
    have hrest := (numeric_signLength rest).add
      (numeric_stretch (fun c => isNumberChar_of_isDigit) (rest.drop (signLength rest)))
    rw [Option.getD_some, Nat.add_assoc, Nat.add_comm]
    exact .cons (by rcases he with rfl | rfl <;> rfl) hrest

theorem numeric_numberTail (cs : List Char) : Numeric (numberTail cs).2 cs := by
  by_cases h : hasFraction cs
  · obtain ⟨d, tail, rfl, hd⟩ := hasFraction_eq_true.1 h
    simp only [numberTail, h, if_true, fractionLength_cons]
    exact .cons rfl (.cons (isNumberChar_of_isDigit hd)
      ((numeric_digits tail).add (numeric_exponent? _)))
  · have := numeric_exponent? cs
    cases he : exponent? cs with
    | none => simpa [numberTail, h, he] using Numeric.zero cs
    | some n => simpa [numberTail, h, he] using this

theorem numeric_number (cs : List Char) : Numeric (number cs).2 cs := by
  rw [number_eq]
  exact (numeric_digits cs).add (numeric_numberTail _)

/-! ### Lexemes -/

theorem head?_append_iff {cs rest : List Char} (hr : Breaks rest) {x : Char}
    (hx : isBreak x = false) : (cs ++ rest).head? = some x ↔ cs.head? = some x := by
  cases cs with
  | nil =>
    refine ⟨fun h => ?_, fun h => nomatch h⟩
    have := hr x h
    rw [hx] at this
    cases this
  | cons => rfl

/-- The tokens that always look alike: the first character, the characters behind it, the character
that may not be next, and the kind. -/
def marks : List (Char × List Char × Option Char × TokenKind) :=
  [('\n', [], none, .newline), ('(', [], none, .leftParen), (')', [], none, .rightParen),
    ('{', [], none, .leftBrace), ('}', [], none, .rightBrace), (',', [], none, .comma),
    (';', [], none, .semicolon), ('+', [], none, .op .add), ('-', [], none, .op .sub),
    ('*', [], none, .op .mul), ('%', [], none, .op .rem), ('/', [], some '/', .op .div),
    ('=', [], some '=', .assign), ('=', ['='], none, .op .eq), ('<', [], some '=', .op .lt),
    ('<', ['='], none, .op .ltEq), ('>', [], some '=', .op .gt), ('>', ['='], none, .op .gtEq),
    ('!', ['='], none, .op .notEq), ('.', ['.', '.'], none, .ellipsis)]

/-- What the longest lexeme can be that starts with `c` and goes on with `n` characters of `cs`. -/
inductive Munches (c : Char) (cs : List Char) : LexemeKind → Nat → Prop
  | word (start : isWordStart c) : Munches c cs
      (.token (wordKind (String.ofList (c :: cs.take (stretch isWordChar cs)))))
      (stretch isWordChar cs)
  | number (digit : c.isDigit) :
      Munches c cs (.token (.literal (Lexer.number cs).1)) (Lexer.number cs).2
  | comment (slash : c = '/') (next : cs.head? = some '/') :
      Munches c cs .comment (stretch (· != '\n') cs)
  | mark {tail : List Char} {stop? : Option Char} {kind : TokenKind}
      (listed : (c, tail, stop?, kind) ∈ marks) (starts : tail <+: cs)
      (ends : ∀ x ∈ stop?, cs.head? ≠ some x) : Munches c cs (.token kind) tail.length

/-- What is found is the longest lexeme. -/
theorem munches_of_munch {c : Char} {cs : List Char} {kind : LexemeKind} {n : Nat}
    (h : munch c cs = some (kind, n)) : Munches c cs kind n := by
  have alone {c : Char} {kind : TokenKind} (listed : (c, [], none, kind) ∈ marks) :
      Munches c cs (.token kind) 0 := .mark listed List.nil_prefix nofun
  have plain {c x : Char} {kind : TokenKind} (listed : (c, [], some x, kind) ∈ marks)
      (hx : cs.head? ≠ some x) : Munches c cs (.token kind) 0 :=
    .mark listed List.nil_prefix fun _ hy => Option.some.inj hy ▸ hx
  have double {c : Char} {kind : TokenKind} (listed : (c, ['='], none, kind) ∈ marks)
      (hx : cs.head? = some '=') : Munches c cs (.token kind) 1 := by
    obtain ⟨tail, rfl⟩ := List.head?_eq_some_iff.1 hx
    exact .mark listed ⟨tail, rfl⟩ nofun
  unfold munch at h
  dsimp only at h
  split at h
  · rename_i hc
    cases h
    subst hc
    exact alone (by decide)
  split at h
  · rename_i hw
    cases h
    exact .word hw
  split at h
  · rename_i hd
    cases h
    exact .number hd
  split at h <;> first | (cases h; exact alone (by decide)) | skip
  · split at h
    · rename_i hs
      cases h
      exact .comment rfl hs
    · rename_i hs
      cases h
      exact plain (by decide) hs
  case h_16 =>
    split at h
    · rename_i hs
      cases h
      exact @Munches.mark '.' cs ['.', '.'] none .ellipsis (by decide) (hs ▸ List.take_prefix 2 cs)
        nofun
    · cases h
  case h_17 => cases h
  all_goals
    split at h
    · rename_i hs
      cases h
      exact double (by decide) hs
    · rename_i hs
      first
      | (cases h; exact plain (by decide) hs)
      | cases h

theorem isWordStart_of_isDigit {c : Char} (h : c.isDigit) : isWordStart c = false := by
  have hne : c ≠ '_' := by
    rintro rfl
    cases h
  simp only [Char.isDigit, Bool.and_eq_true, decide_eq_true_eq, UInt32.le_iff_toNat_le] at h
  have hle : c.toNat ≤ 57 := h.2
  have hupper : ¬ 65 ≤ c.toNat := by omega
  have hlower : ¬ 97 ≤ c.toNat := by omega
  unfold isWordStart Char.isAlpha Char.isUpper Char.isLower
  simp [UInt32.le_iff_toNat_le, hupper, hlower, hne]

theorem Munches.munch_eq {c : Char} {cs : List Char} {kind : LexemeKind} {n : Nat}
    (h : Munches c cs kind n) : munch c cs = some (kind, n) := by
  cases h with
  | word start =>
    have hne : c ≠ '\n' := by
      rintro rfl
      cases start
    unfold munch
    dsimp only
    rw [if_neg hne, if_pos start]
  | number digit =>
    have hne : c ≠ '\n' := by
      rintro rfl
      cases digit
    have hword : ¬ isWordStart c = true := by
      simp [isWordStart_of_isDigit digit]
    unfold munch
    dsimp only
    rw [if_neg hne, if_neg hword, if_pos digit]
  | comment slash next =>
    subst slash
    exact if_pos next
  | @mark tail stop? kind listed starts ends =>
    simp only [marks, List.mem_cons, List.not_mem_nil, or_false, Prod.mk.injEq] at listed
    repeat
      rcases listed with ⟨rfl, rfl, rfl, rfl⟩ | listed
      · first
        | rfl
        | exact if_neg (ends _ rfl)
        | (obtain ⟨rest, rfl⟩ := starts; rfl)
    obtain ⟨rfl, rfl, rfl, rfl⟩ := listed
    obtain ⟨rest, rfl⟩ := starts
    rfl

/-- A token is the longest lexeme also when a character follows that ends it. -/
theorem munch_append {c : Char} {cs : List Char} {kind : TokenKind} {n : Nat}
    (h : munch c cs = some (.token kind, n)) {rest : List Char} (hr : Breaks rest) :
    munch c (cs ++ rest) = some (.token kind, n) := by
  refine Munches.munch_eq ?_
  cases munches_of_munch h with
  | word start =>
    have hword := @Munches.word c (cs ++ rest) start
    rwa [stretch_append inner_isWordChar _ hr,
      List.take_append_of_le_length (stretch_le _ _)] at hword
  | number digit =>
    have hnumber := @Munches.number c (cs ++ rest) digit
    rwa [number_append _ hr] at hnumber
  | mark listed starts ends =>
    have hbreak : ∀ m ∈ marks, m.2.2.1.all fun x => !isBreak x := by decide
    refine .mark listed (starts.trans (List.prefix_append cs rest)) fun x hx hhead => ?_
    have hx' : isBreak x = false := by
      simpa using (Option.all_eq_true _ _).1 (hbreak _ listed) x hx
    exact ends x hx ((head?_append_iff hr hx').1 hhead)

/-- A lexeme ends in the text, and it is found again in a text that is cut off after it. -/
theorem munch_take {c : Char} {cs : List Char} {kind : LexemeKind} {n : Nat}
    (h : munch c cs = some (kind, n)) :
    n ≤ cs.length ∧ ∀ k ≥ n, munch c (cs.take k) = some (kind, n) := by
  cases munches_of_munch h with
  | word start =>
    refine ⟨stretch_le _ _, fun k hk => Munches.munch_eq ?_⟩
    have hword := @Munches.word c (cs.take k) start
    rwa [stretch_take, Nat.min_eq_right hk, List.take_take, Nat.min_eq_left hk] at hword
  | number digit =>
    refine ⟨(numeric_number cs).1, fun k hk => Munches.munch_eq ?_⟩
    have hnumber := @Munches.number c (cs.take k) digit
    rwa [number_take hk] at hnumber
  | comment slash next =>
    refine ⟨stretch_le _ _, fun k hk => Munches.munch_eq ?_⟩
    have hne : k ≠ 0 := by
      rintro rfl
      obtain ⟨cs, rfl⟩ := List.head?_eq_some_iff.1 next
      simp [stretch] at hk
    have hcomment := @Munches.comment c (cs.take k) slash (by rw [List.head?_take, if_neg hne, next])
    rwa [stretch_take, Nat.min_eq_right hk] at hcomment
  | mark listed starts ends =>
    refine ⟨starts.length_le, fun k hk => Munches.munch_eq ?_⟩
    refine .mark listed (List.prefix_take_iff.2 ⟨starts, hk⟩) fun x hx hhead => ends x hx ?_
    rw [List.head?_take] at hhead
    split at hhead
    · cases hhead
    · exact hhead

/-- The text is a lexeme of the kind, and no longer one starts with it. -/
def Spells (kind : LexemeKind) (cs : List Char) : Prop :=
  ∃ c rest, cs = c :: rest ∧ munch c rest = some (kind, rest.length)

theorem Spells.of_munch {c : Char} {cs : List Char} {kind : LexemeKind} {n : Nat}
    (h : munch c cs = some (kind, n)) : Spells kind (c :: cs.take n) := by
  obtain ⟨hle, htake⟩ := munch_take h
  exact ⟨c, cs.take n, rfl, by rw [htake n (Nat.le_refl n), List.length_take, Nat.min_eq_left hle]⟩

theorem munch_separator {c : Char} (h : isSeparator c) (cs : List Char) : munch c cs = none := by
  simp only [isSeparator, Bool.or_eq_true, beq_iff_eq] at h
  rcases h with (rfl | rfl) | rfl <;> rfl

theorem wordKind_mem (word : String) : wordKind word ∈ [TokenKind.func, .var, .ret, .ident] := by
  unfold wordKind
  repeat' split
  all_goals simp

/-- Names consist of characters of words. -/
theorem Spells.isWordChar {cs : List Char} (h : Spells (.token .ident) cs) :
    ∀ c ∈ cs, isWordChar c := by
  obtain ⟨c, rest, rfl, hm⟩ := h
  generalize hk : LexemeKind.token .ident = kind, hn : rest.length = n at hm
  cases munches_of_munch hm with
  | word start =>
    have hrest := take_stretch Lexer.isWordChar rest
    rw [← hn, List.take_length] at hrest
    exact List.forall_mem_cons.2 ⟨isWordChar_of_isWordStart start, hrest⟩
  | number | comment => cases hk
  | mark listed =>
    have hne : ∀ m ∈ marks, m.2.2.2 ≠ .ident := by decide
    cases hk
    exact absurd rfl (hne _ listed)

/-- Literals consist of characters of numbers. -/
theorem Spells.isNumberChar {kind : LiteralKind} {cs : List Char}
    (h : Spells (.token (.literal kind)) cs) : ∀ c ∈ cs, isNumberChar c := by
  obtain ⟨c, rest, rfl, hm⟩ := h
  generalize hk : LexemeKind.token (.literal kind) = found, hn : rest.length = n at hm
  cases munches_of_munch hm with
  | word =>
    have hword := wordKind_mem (String.ofList (c :: rest.take (stretch Lexer.isWordChar rest)))
    rw [← LexemeKind.token.inj hk] at hword
    simp at hword
  | number digit =>
    have hrest := (numeric_number rest).2
    rw [← hn, List.take_length] at hrest
    exact List.forall_mem_cons.2 ⟨isNumberChar_of_isDigit digit, hrest⟩
  | comment => cases hk
  | mark listed =>
    have hne : ∀ m ∈ marks, m.2.2.2 ≠ .literal kind := by cases kind <;> decide
    cases hk
    exact absurd rfl (hne _ listed)

/-- Comments start with two slashes and go on to the end of their line. -/
theorem munch_comment {c : Char} {cs : List Char} {n : Nat} (h : munch c cs = some (.comment, n)) :
    c = '/' ∧ cs.head? = some '/' ∧ n = stretch (· != '\n') cs := by
  cases munches_of_munch h with
  | comment slash next => exact ⟨slash, next, rfl⟩

/-- A comment goes on to the end of its line also when another line follows. -/
theorem Spells.comment {cs : List Char} (h : Spells .comment cs) (rest : List Char) :
    ∃ c tail, cs = c :: tail ∧ munch c (tail ++ '\n' :: rest) = some (.comment, tail.length) := by
  obtain ⟨c, tail, rfl, hm⟩ := h
  obtain ⟨rfl, hhead, hlen⟩ := munch_comment hm
  obtain ⟨tail, rfl⟩ := List.head?_eq_some_iff.1 hhead
  refine ⟨'/', '/' :: tail, rfl, ?_⟩
  have hall : ∀ c ∈ '/' :: tail, (c != '\n') = true := by
    have htake : ('/' :: tail).takeWhile (· != '\n') = '/' :: tail :=
      (List.takeWhile_prefix _).eq_of_length hlen.symm
    exact fun c hc => List.all_eq_true.1 List.all_takeWhile c (htake.symm ▸ hc)
  have hstretch : stretch (· != '\n') ('/' :: tail ++ '\n' :: rest) = ('/' :: tail).length := by
    rw [stretch, List.takeWhile_append_of_pos hall]
    simp
  rw [← hstretch]
  rfl

end Lexer

end Recast
