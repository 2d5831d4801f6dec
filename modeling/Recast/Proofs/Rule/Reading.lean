import Mathlib.Data.List.Induction
import Mathlib.Data.List.TakeWhile
import Recast.Rule

/-!
# Reading rules

A text is read as a rule just when it has an arrow at one position and something besides white space
on each side of it; the names of the rule are the two sides without the white space around them. A
rule that was read is read again from its own text.
-/

namespace Recast

/-! ### Trimming -/

/-- The second text is the first one without the white space at its two ends. -/
def TrimsTo (cs core : List Char) : Prop :=
  ∃ left right, cs = left ++ core ++ right ∧ (∀ c ∈ left, isBlank c) ∧ (∀ c ∈ right, isBlank c) ∧
    (∀ c ∈ core.head?, isBlank c = false) ∧ ∀ c ∈ core.getLast?, isBlank c = false

variable {cs core : List Char}

theorem dropWhile_isBlank_eq_self (h : ∀ c ∈ cs.head?, isBlank c = false) :
    cs.dropWhile isBlank = cs := by
  cases cs with
  | nil => rfl
  | cons c cs => exact List.dropWhile_cons_of_neg (by simp [h c rfl])

theorem isBlank_head?_dropWhile (cs : List Char) :
    ∀ c ∈ (cs.dropWhile isBlank).head?, isBlank c = false := by
  intro c hc
  have := List.head?_dropWhile_not isBlank cs
  rw [Option.mem_def.1 hc] at this
  exact this

theorem TrimsTo.trimBlanks_eq (h : TrimsTo cs core) : trimBlanks cs = core := by
  obtain ⟨left, right, rfl, hleft, hright, hhead, hlast⟩ := h
  rw [trimBlanks, List.append_assoc, List.dropWhile_append_of_pos hleft]
  rcases List.eq_nil_or_concat core with rfl | ⟨init, last, rfl⟩
  · rw [List.nil_append, List.dropWhile_eq_nil_iff.2 hright]
    rfl
  · rw [List.concat_eq_append] at hhead hlast ⊢
    have hfront : (init ++ [last] ++ right).dropWhile isBlank = init ++ [last] ++ right := by
      refine dropWhile_isBlank_eq_self fun c hc => hhead c ?_
      cases init <;> exact hc
    have hback : (init ++ [last]).reverse.dropWhile isBlank = (init ++ [last]).reverse :=
      dropWhile_isBlank_eq_self fun c hc => hlast c (by rwa [List.head?_reverse] at hc)
    rw [hfront, List.reverse_append, List.dropWhile_append_of_pos
      (fun c hc => hright c (List.mem_reverse.1 hc)), hback, List.reverse_reverse]

theorem trimsTo_trimBlanks (cs : List Char) : TrimsTo cs (trimBlanks cs) := by
  have hmid : cs.dropWhile isBlank
      = trimBlanks cs ++ ((cs.dropWhile isBlank).reverse.takeWhile isBlank).reverse := by
    rw [trimBlanks, ← List.reverse_append, List.takeWhile_append_dropWhile, List.reverse_reverse]
  refine ⟨cs.takeWhile isBlank, ((cs.dropWhile isBlank).reverse.takeWhile isBlank).reverse,
    ?_, ?_, ?_, ?_, ?_⟩
  · rw [List.append_assoc, ← hmid, List.takeWhile_append_dropWhile]
  · exact fun c hc => List.all_eq_true.1 List.all_takeWhile c hc
  · exact fun c hc => List.all_eq_true.1 List.all_takeWhile c (List.mem_reverse.1 hc)
  · intro c hc
    refine isBlank_head?_dropWhile cs c ?_
    rw [hmid, List.head?_append, Option.mem_def.1 hc]
    rfl
  · intro c hc
    rw [trimBlanks, List.getLast?_reverse] at hc
    exact isBlank_head?_dropWhile _ c hc

namespace Rule

/-! ### Arrows -/

/-- The arrow between the two names of a rule. -/
def arrow : List Char := ['-', '>']

variable {before after : List Char}

/-- White space before a text starts no arrow. -/
theorem arrow_infix_blanks_append {left : List Char} (h : ∀ c ∈ left, isBlank c) :
    arrow <:+: left ++ cs ↔ arrow <:+: cs := by
  induction left with
  | nil => rfl
  | cons c left ih =>
    rw [List.forall_mem_cons] at h
    rw [List.cons_append, List.infix_cons_iff, ih h.2]
    refine ⟨fun hor => hor.resolve_left fun hp => ?_, .inr⟩
    obtain rfl : '-' = c := (List.cons_prefix_cons.1 hp).1
    exact absurd h.1 (by decide)

/-- White space behind a text ends no arrow. -/
theorem arrow_infix_append_blanks {right : List Char} (h : ∀ c ∈ right, isBlank c) :
    arrow <:+: cs ++ right ↔ arrow <:+: cs := by
  induction right using List.reverseRecOn with
  | nil => rw [List.append_nil]
  | append_singleton right c ih =>
    rw [List.forall_mem_append] at h
    rw [← List.append_assoc, List.infix_concat_iff, ih h.1]
    refine ⟨fun hor => hor.resolve_left fun hs => ?_, .inr⟩
    obtain rfl : '>' = c := by
      obtain ⟨front, heq⟩ := hs
      have := congrArg List.getLast? heq
      rw [List.getLast?_append, List.getLast?_append] at this
      exact Option.some.inj this
    exact absurd (h.2 _ List.mem_cons_self) (by decide)

/-- Trimming takes no arrow away. -/
theorem arrow_infix_core_iff (h : TrimsTo cs core) : arrow <:+: core ↔ arrow <:+: cs := by
  obtain ⟨left, right, rfl, hleft, hright, -⟩ := h
  rw [arrow_infix_append_blanks hright, arrow_infix_blanks_append hleft]

/-- The parts of a text are split at its first arrow: any other one stands in the second part. -/
theorem splitArrow?_eq_some (h : splitArrow? cs = some (before, after)) :
    cs = before ++ arrow ++ after ∧
      ∀ before' after', cs = before' ++ arrow ++ after' → before' = before ∨ arrow <:+: after := by
  fun_induction splitArrow? cs generalizing before with
  | case1 => cases h
  | case2 rest =>
    cases h
    refine ⟨rfl, fun before' after' heq => ?_⟩
    rcases before' with _ | ⟨x, _ | ⟨y, before'⟩⟩
    · exact .inl rfl
    · cases heq
    · obtain ⟨-, heq⟩ := List.cons.inj heq
      exact .inr ⟨before', after', (List.cons.inj heq).2.symm⟩
  | case3 c rest hne ih =>
    obtain ⟨⟨front, _⟩, hsplit, hparts⟩ := Option.map_eq_some_iff.1 h
    cases hparts
    obtain ⟨rfl, hfirst⟩ := ih hsplit
    refine ⟨rfl, fun before' after' heq => ?_⟩
    cases before' with
    | nil =>
      obtain ⟨rfl, hrest⟩ := List.cons.inj heq
      exact (hne _ rfl hrest).elim
    | cons x before' =>
      obtain ⟨rfl, hrest⟩ := List.cons.inj heq
      exact (hfirst before' after' hrest).imp_left (congrArg _)

theorem isSome_splitArrow? : (splitArrow? cs).isSome ↔ arrow <:+: cs := by
  fun_induction splitArrow? cs with
  | case1 => simp [arrow]
  | case2 rest => simpa using ⟨[], rest, rfl⟩
  | case3 c rest hne ih =>
    rw [Option.isSome_map, ih, List.infix_cons_iff]
    refine ⟨.inr, fun h => h.resolve_left ?_⟩
    rintro ⟨after, heq⟩
    obtain ⟨rfl, hrest⟩ := List.cons.inj heq
    exact hne after rfl hrest.symm

/-- A text without an arrow is passed over, with the blank after it. -/
theorem splitArrow?_append (h : ¬ arrow <:+: before) (after : List Char) :
    splitArrow? (before ++ ' ' :: (arrow ++ after)) = some (before ++ [' '], after) := by
  induction before with
  | nil => rfl
  | cons c before ih =>
    rw [List.infix_cons_iff, not_or] at h
    rw [List.cons_append, splitArrow?, ih h.2]
    · rfl
    · rintro rest rfl heq
      cases before with
      | nil => cases heq
      | cons d before =>
        obtain ⟨rfl, -⟩ := List.cons.inj heq
        exact h.1 ⟨before, rfl⟩

/-- The text has an arrow after `before` and before `after`, and at no other position. -/
structure OneArrow (cs before after : List Char) : Prop where
  text : cs = before ++ arrow ++ after
  only : ∀ before' after', cs = before' ++ arrow ++ after' → before' = before

theorem OneArrow.not_infix (h : OneArrow cs before after) :
    ¬ arrow <:+: before ∧ ¬ arrow <:+: after := by
  constructor
  · rintro ⟨front, back, rfl⟩
    have := h.only front (back ++ arrow ++ after) (by simp [h.text])
    simp [arrow] at this
  · rintro ⟨front, back, rfl⟩
    have := h.only (before ++ arrow ++ front) back (by simp [h.text])
    simp [arrow] at this

theorem oneArrow_iff : OneArrow cs before after ↔
    splitArrow? cs = some (before, after) ∧ ¬ arrow <:+: after := by
  constructor
  · intro h
    refine ⟨?_, h.not_infix.2⟩
    obtain ⟨⟨front, back⟩, hsplit⟩ :=
      Option.isSome_iff_exists.1 (isSome_splitArrow?.2 ⟨before, after, h.text.symm⟩)
    obtain ⟨htext, -⟩ := splitArrow?_eq_some hsplit
    obtain rfl := h.only front back htext
    rw [hsplit, List.append_cancel_left (h.text.symm.trans htext)]
  · rintro ⟨hsplit, hafter⟩
    obtain ⟨htext, hfirst⟩ := splitArrow?_eq_some hsplit
    exact ⟨htext, fun before' after' heq => (hfirst before' after' heq).resolve_right hafter⟩

/-! ### Rules -/

/-- The text has one arrow, and what stands on its two sides is, but for white space around it, the
two names of the rule, neither of them empty. -/
def ReadFrom (r : Rule) (text : String) : Prop :=
  ∃ before after, OneArrow text.toList before after ∧ TrimsTo before r.source.toList ∧
    TrimsTo after r.target.toList ∧ r.source ≠ "" ∧ r.target ≠ ""

variable {text : String} {r : Rule}

theorem parse_eq_ok_iff : parse text = .ok r ↔ r.ReadFrom text := by
  have empty_iff {cs : List Char} : cs.isEmpty ↔ String.ofList cs = "" := by
    rw [List.isEmpty_iff, ← String.toList_inj, String.toList_ofList]
    rfl
  rw [parse]
  constructor
  · intro h
    split at h
    · cases h
    rename_i before after hsplit
    dsimp only at h
    split at h
    · cases h
    rename_i hsides
    cases h
    simp only [Bool.or_eq_true, not_or, empty_iff, isSome_splitArrow?] at hsides
    obtain ⟨⟨hsource, htarget⟩, harrow⟩ := hsides
    rw [arrow_infix_core_iff (trimsTo_trimBlanks after)] at harrow
    refine ⟨before, after, oneArrow_iff.2 ⟨hsplit, harrow⟩, ?_, ?_, hsource, htarget⟩
    · rw [String.toList_ofList]
      exact trimsTo_trimBlanks before
    · rw [String.toList_ofList]
      exact trimsTo_trimBlanks after
  · rintro ⟨before, after, hone, hsource, htarget, hne, hne'⟩
    obtain ⟨hsplit, harrow⟩ := oneArrow_iff.1 hone
    rw [hsplit]
    dsimp only
    rw [hsource.trimBlanks_eq, htarget.trimBlanks_eq, String.ofList_toList, String.ofList_toList,
      if_neg]
    simp only [Bool.or_eq_true, not_or, empty_iff, isSome_splitArrow?, String.ofList_toList]
    exact ⟨⟨hne, hne'⟩, fun h => harrow ((arrow_infix_core_iff htarget).1 h)⟩

/-- The error of a text that is refused carries the text. -/
theorem parse_eq_error {e : MalformedRule} (h : parse text = .error e) : e = ⟨text⟩ := by
  rw [parse] at h
  split at h
  · cases h
    rfl
  · dsimp only at h
    split at h
    · cases h
      rfl
    · cases h

/-- A rule that was read from some text is read from its own text. -/
theorem ReadFrom.again (h : r.ReadFrom text) : r.ReadFrom r.text := by
  obtain ⟨before, after, hone, hsource, htarget, hne, hne'⟩ := h
  have htext : r.text.toList = r.source.toList ++ ' ' :: (arrow ++ ' ' :: r.target.toList) := by
    simp [Rule.text, arrow]
  have harrow : ¬ arrow <:+: r.source.toList := fun h =>
    hone.not_infix.1 ((arrow_infix_core_iff hsource).1 h)
  have harrow' : ¬ arrow <:+: r.target.toList := fun h =>
    hone.not_infix.2 ((arrow_infix_core_iff htarget).1 h)
  have hblank : ∀ c ∈ [' '], isBlank c := List.forall_mem_singleton.2 rfl
  have htrims : TrimsTo (r.source.toList ++ [' ']) r.source.toList := by
    obtain ⟨-, -, -, -, -, hends⟩ := hsource
    exact ⟨[], [' '], rfl, nofun, hblank, hends⟩
  have htrims' : TrimsTo (' ' :: r.target.toList) r.target.toList := by
    obtain ⟨-, -, -, -, -, hends⟩ := htarget
    exact ⟨[' '], [], by simp, hblank, nofun, hends⟩
  refine ⟨_, _, oneArrow_iff.2 ⟨?_, ?_⟩, htrims, htrims', hne, hne'⟩
  · rw [htext]
    exact splitArrow?_append harrow _
  · rwa [← arrow_infix_core_iff htrims']

/-- A text is read as a rule just when it has one arrow with something on each side, and then the
rule is what stands on the two sides but for white space; any other text is refused, and the error
carries it as it is. The text of a rule that was read is read as the same rule. -/
theorem parse_exact (text : String) : (∀ r, parse text = .ok r ↔ ReadFrom r text) ∧
    (∀ e, parse text = .error e ↔ e = ⟨text⟩ ∧ ¬ ∃ r, ReadFrom r text) ∧
    ∀ r, parse text = .ok r → parse r.text = .ok r := by
  refine ⟨fun r => parse_eq_ok_iff, fun e => ⟨fun h => ⟨parse_eq_error h, ?_⟩, ?_⟩, fun r h => ?_⟩
  · rintro ⟨r, hr⟩
    rw [parse_eq_ok_iff.2 hr] at h
    cases h
  · rintro ⟨rfl, hnone⟩
    cases h : parse text with
    | error e => rw [parse_eq_error h]
    | ok r => exact (hnone ⟨r, parse_eq_ok_iff.1 h⟩).elim
  · exact parse_eq_ok_iff.2 (parse_eq_ok_iff.1 h).again

/-- The sides end and start with the characters of an arrow. -/
theorem parse_exact_dashes : parse "\t a- -->> b" = .ok ⟨"a- -", "> b"⟩ ∧
    parse "a- - -> > b" = .ok ⟨"a- -", "> b"⟩ := by
  have h : parse "\t a- -->> b" = .ok ⟨"a- -", "> b"⟩ := by decide +kernel
  exact ⟨h, (parse_exact _).2.2 _ h⟩

end Rule

end Recast
