import Recast.Proofs.Pattern.Matches
import Recast.Proofs.Wording.Messages

/-!
# Classifying complaints

The standard classifier finds a clash in the message of a complaint just when the complaint is one
that a conversion can mend, and then it finds the two types of it (`classify_message`). This holds
whatever pieces of a program the message quotes, as long as they are texts of the language: such
texts never have the words between which the patterns look for types.
-/

namespace Recast

open Pattern

/-! ### What the patterns match -/

namespace Classifier

theorem matches_someText {left mid right : List Char} {caps : Captures} :
    someText.Matches left mid right caps ↔ mid ≠ [] ∧ '\n' ∉ mid ∧ caps = [] := by
  simp only [someText, matches_plus, CharSet.any, CharSet.contains_negated]
  exact ⟨fun h => ⟨h.1, fun hm => h.2.1 _ hm rfl, h.2.2⟩,
    fun h => ⟨h.1, fun c hc e => h.2.1 (e ▸ hc), h.2.2⟩⟩

theorem matches_word_seq {w : String} {p : Pattern} {left mid right : List Char}
    {caps : Captures} : (seq (word w) p).Matches left mid right caps ↔
      ∃ rest, mid = w.toList ++ rest ∧ p.Matches (left ++ w.toList) rest right caps := by
  simp only [Matches, word, matches_literal]
  constructor
  · rintro ⟨first, rest, xs, ys, rfl, rfl, ⟨rfl, rfl⟩, hp⟩
    exact ⟨rest, rfl, by rwa [List.append_nil]⟩
  · rintro ⟨rest, rfl, hp⟩
    exact ⟨w.toList, rest, [], caps, rfl, (List.append_nil _).symm, ⟨rfl, rfl⟩, hp⟩

theorem matches_group_seq {name : String} {p : Pattern} {left mid right : List Char}
    {caps : Captures} : (seq (group name someText) p).Matches left mid right caps ↔
      ∃ found rest later, mid = found ++ rest ∧ found ≠ [] ∧ '\n' ∉ found ∧
        caps = later ++ [(name, left.length, left.length + found.length)] ∧
          p.Matches (left ++ found) rest right later := by
  simp only [Matches, matches_someText]
  constructor
  · rintro ⟨found, rest, xs, later, rfl, rfl, ⟨_, ⟨ne, line, rfl⟩, rfl⟩, hp⟩
    exact ⟨found, rest, later, rfl, ne, line, rfl, hp⟩
  · rintro ⟨found, rest, later, rfl, ne, line, rfl, hp⟩
    exact ⟨found, rest, _, later, rfl, rfl, ⟨[], ⟨ne, line, rfl⟩, rfl⟩, hp⟩

/-- The words for the modes, as the patterns have them. -/
def modes : Pattern :=
  alt (all [word "constant ", someText]) (alt (word "variable") (word "value"))

theorem unfitIn_eq (destination : Pattern) : unfitIn destination =
    seq (word "(") (seq modes (seq (word " of type ") (seq (group "got" someText)
      (seq (word ") as ") (seq (group "want" someText) (seq (word " value in ")
        (seq destination empty))))))) := rfl

/-- How the pattern for a destination matches. -/
theorem unfitIn_sound {destination : Pattern} (hd : destination.names = [])
    {left mid right : List Char} {caps : Captures}
    (h : (unfitIn destination).Matches left mid right caps) :
    ∃ mode before got between want place others, got ≠ [] ∧ want ≠ [] ∧
      before = left ++ "(".toList ++ mode ++ " of type ".toList ∧
      between = before ++ got ++ ") as ".toList ∧
      left ++ mid = between ++ want ++ " value in ".toList ++ place ∧
      destination.Matches (between ++ want ++ " value in ".toList) place right [] ∧
      caps = ("want", between.length, between.length + want.length)
        :: ("got", before.length, before.length + got.length) :: others := by
  rw [unfitIn_eq, matches_word_seq] at h
  obtain ⟨_, rfl, mode, _, others, _, rfl, rfl, -, h₁⟩ := h
  obtain ⟨_, rfl, h₂⟩ := matches_word_seq.1 h₁
  obtain ⟨got, _, _, rfl, gn, -, rfl, h₃⟩ := matches_group_seq.1 h₂
  obtain ⟨_, rfl, h₄⟩ := matches_word_seq.1 h₃
  obtain ⟨want, _, _, rfl, wn, -, rfl, h₅⟩ := matches_group_seq.1 h₄
  obtain ⟨_, rfl, place, _, _, _, rfl, rfl, hp, rfl, rfl⟩ := matches_word_seq.1 h₅
  obtain rfl := captures_eq_nil hd hp
  exact ⟨mode, _, got, _, want, place, others, gn, wn, rfl, rfl, by simp only [List.append_assoc,
    List.append_nil], hp, rfl⟩

/-- A clash that the pattern for a destination finds in a text stands there in these words. -/
theorem classifyBy_unfitIn {category : ClashCategory} {destination : Pattern} {text : List Char}
    (hc : category ≠ .operands) (hd : destination.names = [])
    (h : ((unfitIn destination).search text).isSome) :
    ∃ before got want left place right,
      text = before ++ " of type ".toList ++ got ++ ") as ".toList ++ want ++ " value in ".toList
        ++ place ++ right ∧ destination.Matches left place right [] ∧
        classifyBy category (unfitIn destination) text
          = some (.of category (String.ofList want) (String.ofList got)) := by
  obtain ⟨caps, hs⟩ := Option.isSome_iff_exists.1 h
  obtain ⟨left, mid, right, rfl, hm⟩ := search_sound hs
  obtain ⟨mode, before, got, between, want, place, others, gn, wn, hb, hw, ht, hp, rfl⟩ :=
    unfitIn_sound hd hm
  have hgroups : category.groups = ("want", "got") := by
    cases category <;> first | rfl | exact absurd rfl hc
  have ew : left ++ mid ++ right
      = between ++ want ++ (" value in ".toList ++ place ++ right) := by
    rw [ht]
    simp only [List.append_assoc]
  have eg : left ++ mid ++ right
      = before ++ got ++ (") as ".toList ++ want ++ " value in ".toList ++ place ++ right) := by
    rw [ew, hw]
    simp only [List.append_assoc]
  refine ⟨left ++ "(".toList ++ mode, got, want, _, place, right, by rw [ht, hw, hb], hp, ?_⟩
  simp only [classifyBy, hs, hgroups, Option.bind_eq_bind, Option.bind_some]
  rw [capture?_eq_some ew wn rfl, capture?_eq_some eg gn rfl]
  rfl

/-- The pattern for a destination matches a text that has its words. -/
theorem search_unfitIn {destination : Pattern} (left : List Char)
    {mode got want place : List Char}
    (free : destination.RoundFree) (hm : mode = "variable".toList ∨ mode = "value".toList)
    (gn : got ≠ []) (gl : '\n' ∉ got) (wn : want ≠ []) (wl : '\n' ∉ want)
    (hp : ∀ left, destination.Matches left place [] []) :
    ((unfitIn destination).search (left ++ "(".toList ++ mode ++ " of type ".toList
      ++ got ++ ") as ".toList ++ want ++ " value in ".toList ++ place)).isSome := by
  have hmode (left right : List Char) : modes.Matches left mode right [] := by
    rcases hm with rfl | rfl
    · exact .inr (.inl (matches_literal.2 ⟨rfl, rfl⟩))
    · exact .inr (.inr (matches_literal.2 ⟨rfl, rfl⟩))
  have hfree : (unfitIn destination).RoundFree := by
    simp [unfitIn_eq, modes, all, word, someText, plus, RoundFree, roundFree_literal, free]
  have hmatch : (unfitIn destination).Matches left ("(".toList ++ (mode ++
      (" of type ".toList ++ (got ++ (") as ".toList ++ (want ++ (" value in ".toList ++
        (place ++ [])))))))) [] _ :=
    matches_word_seq.2 ⟨_, rfl, _, _, _, _, rfl, rfl, hmode _ _, matches_word_seq.2 ⟨_, rfl,
      matches_group_seq.2 ⟨_, _, _, rfl, gn, gl, rfl, matches_word_seq.2 ⟨_, rfl,
        matches_group_seq.2 ⟨_, _, _, rfl, wn, wl, rfl, matches_word_seq.2 ⟨_, rfl, _, _, _, _, rfl,
          rfl, hp _, rfl, rfl⟩⟩⟩⟩⟩⟩
  simpa only [List.append_assoc, List.append_nil] using search_complete hfree hmatch

/-! ### The pattern for operands -/

theorem mismatchedTypes_eq : mismatchedTypes =
    seq atStart (seq (word "invalid operation: ") (seq (alt (all [someText, word " ("]) empty)
      (seq (word "mismatched types ") (seq (group "left" someText) (seq (word " and ")
        (seq (group "right" (plus (char ⟨true, [(')', ')')]⟩) true))
          (seq (alt (char (.single ')')) empty) (seq atEnd empty)))))))) := rfl

/-- How the pattern for operands matches. -/
theorem mismatchedTypes_sound {start mid stop : List Char} {caps : Captures}
    (h : mismatchedTypes.Matches start mid stop caps) :
    ∃ front before left between right close others, left ≠ [] ∧ right ≠ [] ∧ ')' ∉ right ∧
      (close = [')'] ∨ close = []) ∧ start = [] ∧ stop = [] ∧
      before = "invalid operation: ".toList ++ front ++ "mismatched types ".toList ∧
      between = before ++ left ++ " and ".toList ∧ mid = between ++ right ++ close ∧
      caps = ("right", between.length, between.length + right.length)
        :: ("left", before.length, before.length + left.length) :: others := by
  rw [mismatchedTypes_eq] at h
  obtain ⟨_, _, _, _, rfl, rfl, ⟨rfl, rfl, rfl⟩, h₁⟩ := h
  obtain ⟨_, rfl, front, _, others, _, rfl, rfl, -, h₂⟩ := matches_word_seq.1 h₁
  obtain ⟨_, rfl, h₃⟩ := matches_word_seq.1 h₂
  obtain ⟨left, _, _, rfl, ln, -, rfl, h₄⟩ := matches_group_seq.1 h₃
  obtain ⟨_, rfl, right, _, _, _, rfl, rfl, ⟨_, hr, rfl⟩, h₅⟩ := matches_word_seq.1 h₄
  obtain ⟨rn, rc, rfl⟩ := matches_plus.1 hr
  obtain ⟨close, _, _, _, rfl, rfl, hclose, _, _, _, _, rfl, rfl, ⟨hstop, rfl, rfl⟩, rfl, rfl⟩ := h₅
  have hcaps := captures_eq_nil (p := alt (char (.single ')')) empty) rfl hclose
  subst hcaps
  refine ⟨front, _, left, _, right, close, others ++ [], ln, rn, fun hm => ?_, ?_, rfl, hstop, rfl, rfl, ?_, rfl⟩
  · exact CharSet.contains_negated.1 (rc _ hm) rfl
  · rcases hclose with ⟨c, hc, rfl, -⟩ | ⟨rfl, -⟩
    · exact .inl (by rw [CharSet.contains_single.1 hc])
    · exact .inr rfl
  · simp only [List.append_assoc, List.append_nil, List.nil_append]

/-- A clash that the pattern for operands finds in a text stands there in these words. -/
theorem classifyBy_mismatchedTypes {text : List Char}
    (h : (mismatchedTypes.search text).isSome) :
    ∃ front left right close, left ≠ [] ∧ ')' ∉ right ∧ (close = [')'] ∨ close = []) ∧
      text = "invalid operation: ".toList ++ front ++ "mismatched types ".toList ++ left
        ++ " and ".toList ++ right ++ close ∧
        classifyBy .operands mismatchedTypes text
          = some (.operands (String.ofList left) (String.ofList right)) := by
  obtain ⟨caps, hs⟩ := Option.isSome_iff_exists.1 h
  obtain ⟨start, mid, stop, rfl, hm⟩ := search_sound hs
  obtain ⟨front, before, left, between, right, close, others, ln, rn, rc, hclose, rfl, rfl, hb, hw,
    rfl, rfl⟩ := mismatchedTypes_sound hm
  have er : [] ++ (between ++ right ++ close) ++ [] = between ++ right ++ close := by
    rw [List.nil_append, List.append_nil]
  have el : [] ++ (between ++ right ++ close) ++ []
      = before ++ left ++ (" and ".toList ++ right ++ close) := by
    rw [er, hw]
    simp only [List.append_assoc]
  refine ⟨front, left, right, close, ln, rc, hclose, by rw [er, hw, hb], ?_⟩
  simp only [classifyBy, hs, ClashCategory.groups, Option.bind_eq_bind, Option.bind_some]
  rw [capture?_eq_some el ln rfl, capture?_eq_some er rn rfl]
  rfl

/-- The pattern for operands matches a text that has its words. -/
theorem search_mismatchedTypes {front left right : List Char} (fn : front ≠ [])
    (fl : '\n' ∉ front) (ln : left ≠ []) (ll : '\n' ∉ left) (rn : right ≠ []) (rc : ')' ∉ right) :
    (mismatchedTypes.search ("invalid operation: ".toList ++ front ++ " (".toList
      ++ "mismatched types ".toList ++ left ++ " and ".toList ++ right ++ [')'])).isSome := by
  have hfree : mismatchedTypes.RoundFree := by
    simp [mismatchedTypes_eq, all, word, someText, plus, RoundFree, roundFree_literal]
  have hfront (start stop : List Char) : (alt (all [someText, word " ("]) empty).Matches start
      (front ++ (" (".toList ++ [])) stop [] :=
    .inl ⟨_, _, [], [], rfl, rfl, matches_someText.2 ⟨fn, fl, rfl⟩,
      matches_word_seq.2 ⟨_, rfl, rfl, rfl⟩⟩
  have hright (start stop : List Char) :
      (plus (char ⟨true, [(')', ')')]⟩) true).Matches start right stop [] :=
    matches_plus.2 ⟨rn, fun c hc => CharSet.contains_negated.2 fun e => rc (e ▸ hc), rfl⟩
  have hmatch : mismatchedTypes.Matches [] ([] ++ ("invalid operation: ".toList
      ++ ((front ++ (" (".toList ++ [])) ++ ("mismatched types ".toList ++ (left
        ++ (" and ".toList ++ (right ++ ([')'] ++ ([] ++ []))))))))) [] _ :=
    ⟨_, _, [], _, rfl, rfl, ⟨rfl, rfl, rfl⟩, matches_word_seq.2 ⟨_, rfl, _, _, _, _, rfl, rfl,
      hfront _ _, matches_word_seq.2 ⟨_, rfl, matches_group_seq.2 ⟨_, _, _, rfl, ln, ll, rfl,
        matches_word_seq.2 ⟨_, rfl, _, _, _, _, rfl, rfl, ⟨_, hright _ _, rfl⟩, _, _, _, _, rfl, rfl,
          .inl ⟨_, CharSet.contains_single.2 rfl, rfl, rfl⟩, _, _, _, _, rfl, rfl, ⟨rfl, rfl, rfl⟩,
          rfl, rfl⟩⟩⟩⟩⟩
  have := search_complete hfree hmatch
  simpa only [List.append_assoc, List.append_nil, List.nil_append] using this

/-! ### The standard classifier -/

/-- How the pattern of a category goes on after the two types. -/
def place : ClashCategory → Pattern
  | .declaration => all [word "variable declaration", atEnd]
  | .argument => all [word "argument to ", someText, atEnd]
  | .assignment => all [word "assignment", atEnd]
  | .result => all [word "return statement", atEnd]
  | .operands => empty

theorem standard_eq : standard.patterns = [
    (.declaration, unfitIn (place .declaration)), (.argument, unfitIn (place .argument)),
    (.assignment, unfitIn (place .assignment)), (.operands, mismatchedTypes),
    (.result, unfitIn (place .result))] := rfl

theorem names_place (category : ClashCategory) : (place category).names = [] := by
  cases category <;> rfl

theorem roundFree_place (category : ClashCategory) : (place category).RoundFree := by
  cases category <;> simp [place, all, word, someText, plus, RoundFree, roundFree_literal]

/-- The pattern of a category goes on with the destinations of that category, and then the text
ends. -/
theorem matches_place {category : ClashCategory} (hc : category ≠ .operands)
    {left mid right : List Char} {caps : Captures}
    (h : (place category).Matches left mid right caps) :
    right = [] ∧ ∃ destination : Destination, destination.category = category ∧
      mid = destination.describe.toList := by
  cases category with
  | declaration =>
    obtain ⟨_, rfl, _, _, _, _, rfl, rfl, ⟨hr, rfl, rfl⟩, rfl, rfl⟩ := matches_word_seq.1 h
    exact ⟨hr, .declaration, rfl, rfl⟩
  | argument =>
    obtain ⟨_, rfl, function, _, _, _, rfl, rfl, hf, _, _, _, _, rfl, rfl, ⟨hr, rfl, rfl⟩, rfl,
      rfl⟩ := matches_word_seq.1 h
    exact ⟨hr, .argument (String.ofList function), rfl, by simp [Destination.describe]⟩
  | assignment =>
    obtain ⟨_, rfl, _, _, _, _, rfl, rfl, ⟨hr, rfl, rfl⟩, rfl, rfl⟩ := matches_word_seq.1 h
    exact ⟨hr, .assignment, rfl, rfl⟩
  | operands => exact absurd rfl hc
  | result =>
    obtain ⟨_, rfl, _, _, _, _, rfl, rfl, ⟨hr, rfl, rfl⟩, rfl, rfl⟩ := matches_word_seq.1 h
    exact ⟨hr, .result, rfl, rfl⟩

/-- The pattern of a destination's category matches what the destination is called. -/
theorem place_matches {destination : Destination} (h : destination.Fair) (left : List Char) :
    (place destination.category).Matches left destination.describe.toList [] [] := by
  have done {left : List Char} : (seq atEnd empty).Matches left [] [] [] :=
    ⟨[], [], [], [], rfl, rfl, ⟨rfl, rfl, rfl⟩, rfl, rfl⟩
  cases destination with
  | declaration => exact matches_word_seq.2 ⟨[], rfl, done⟩
  | argument function =>
    exact matches_word_seq.2 ⟨function.toList, by simp [Destination.describe], function.toList, [],
      [], [], by simp, rfl, matches_someText.2 ⟨h.ne, h.oneLine, rfl⟩, done⟩
  | assignment => exact matches_word_seq.2 ⟨[], rfl, done⟩
  | result => exact matches_word_seq.2 ⟨[], rfl, done⟩

theorem category_of_describe {d d' : Destination} (h : d.describe.toList = d'.describe.toList) :
    d.category = d'.category := by
  cases d <;> cases d' <;> first | rfl | simp [Destination.describe] at h

theorem classifyBy_eq_none {category : ClashCategory} {p : Pattern} {text : List Char}
    (h : ¬ (p.search text).isSome) : classifyBy category p text = none := by
  rw [Option.not_isSome_iff_eq_none] at h
  simp only [classifyBy, h]
  rfl

/-- The text has the words of the pattern for a destination in one place only. -/
theorem unfit_unique {value : Quoted} {target : BasicType} {destination d : Destination}
    (hv : value.Fair) (hd : destination.Fair) (ht : value.type.isUntyped = false)
    {before got want : List Char} (h : (Complaint.unfit value target destination).message.toList
      = before ++ " of type ".toList ++ got ++ ") as ".toList ++ want ++ " value in ".toList
        ++ d.describe.toList) :
    got = value.type.name.toList ∧ want = target.name.toList ∧
      d.describe.toList = destination.describe.toList := by
  have hmark (x y : Char) (h : Between 'e' 'i' x y) : isMark x = false ∧ isMark y = false := by
    rcases h with ⟨rfl, rfl⟩
    decide
  have front : Piece Opening (spaced ["cannot use".toList, value.text.toList,
      '(' :: value.mode.word.toList, "of".toList]) :=
    Pieces.spaced (by simp) ⟨by decide, by simp [Opening], hv.phrase.opening, by simp [Opening],
      by cases value.mode <;> decide,
      by cases value.mode <;> simp [Mode.word, Opening], by decide⟩
  have back : Piece Opening (spaced ["type".toList, value.type.name.toList ++ [')'], "as".toList,
      target.name.toList, "value in".toList, destination.describe.toList]) :=
    Pieces.spaced (by simp) ⟨by decide, by simp [Opening],
      (piece_name (by decide) _).append (by decide), by simp [Opening], by decide,
      by simp [Opening], piece_name (by decide) _, by simp [Opening], by decide,
      by simp [Opening], Complaint.piece_describe marked_opening (by decide) (by simp [Opening]) hd⟩
  have got_piece : Piece Closing (value.type.name.toList ++ [')']) :=
    (piece_name (by decide) _).append (by decide)
  have rest : Piece Closing (spaced ["as".toList, target.name.toList, "value in".toList,
      destination.describe.toList]) :=
    Pieces.spaced (by simp) ⟨by decide, by simp [Closing], piece_name (by decide) _,
      by simp [Closing], by decide, by simp [Closing],
      Complaint.piece_describe marked_closing (by decide) (by simp [Closing]) hd⟩
  have want_piece : Piece (Between 'e' 'i') (spaced [target.name.toList, "value".toList]) :=
    Pieces.spaced (by simp) ⟨piece_name (by decide) _, by simp [Between], by decide⟩
  have last : Piece (Between 'e' 'i') (spaced ["in".toList, destination.describe.toList]) :=
    Pieces.spaced (by simp) ⟨by decide, by simp [Between],
      Complaint.piece_describe hmark (by decide) (by simp [Between]) hd⟩
  have e : (before ++ " of".toList) ++ ' ' :: ("type ".toList ++ got ++ ") as ".toList ++ want
        ++ " value in ".toList ++ d.describe.toList)
      = spaced ["cannot use".toList, value.text.toList, '(' :: value.mode.word.toList, "of".toList]
        ++ ' ' :: spaced ["type".toList, value.type.name.toList ++ [')'], "as".toList,
          target.name.toList, "value in".toList, destination.describe.toList] := by
    have untruncated : value.type ≠ .untypedFloat := fun h => by simp [h] at ht; cases ht
    rw [Complaint.toList_message] at h
    simp only [Complaint.pieces, note, ht, spaced, untruncated] at h ⊢
    simpa using h.symm
  obtain ⟨-, e₁⟩ := cut_unique (P := Opening) e (x := 'f') (y := 't') (by simp) (by simp) (by simp [Opening])
    (by decide) (by simp [spaced]) front.avoids back.avoids
  have e₂ : (got ++ [')']) ++ ' ' :: ("as ".toList ++ want ++ " value in ".toList
        ++ d.describe.toList)
      = (value.type.name.toList ++ [')']) ++ ' ' :: spaced ["as".toList, target.name.toList,
          "value in".toList, destination.describe.toList] := by
    simpa [spaced] using e₁
  obtain ⟨h₁, e₃⟩ := cut_unique (P := Closing) e₂ (x := ')') (y := 'a') (by simp) (by simp) (by simp [Closing])
    (by decide) (by simp [spaced]) got_piece.avoids rest.avoids
  have e₄ : (want ++ " value".toList) ++ ' ' :: ("in ".toList ++ d.describe.toList)
      = spaced [target.name.toList, "value".toList] ++ ' ' :: spaced ["in".toList, destination.describe.toList] := by
    simpa [spaced] using e₃
  obtain ⟨h₂, h₃⟩ := cut_unique (P := Between 'e' 'i') e₄ (x := 'e') (y := 'i') (by simp) (by simp) ⟨rfl, rfl⟩
    (by decide) (by simp [spaced]) want_piece.avoids last.avoids
  refine ⟨List.append_cancel_right h₁, ?_, ?_⟩
  · simpa [spaced] using h₂
  · simpa [spaced] using h₃

theorem classifyBy_unfit {category : ClashCategory} (hc : category ≠ .operands) {value : Quoted}
    {target : BasicType} {destination : Destination} (hv : value.Fair) (hd : destination.Fair)
    (ht : value.type.isUntyped = false) :
    classifyBy category (unfitIn (place category))
      (Complaint.unfit value target destination).message.toList =
        if category = destination.category then some (.of category target.name value.type.name)
        else none := by
  by_cases h : ((unfitIn (place category)).search
      (Complaint.unfit value target destination).message.toList).isSome
  · obtain ⟨before, got, want, left, at_, right, e, hp, hclash⟩ :=
      classifyBy_unfitIn hc (names_place category) h
    obtain ⟨rfl, d, hd', rfl⟩ := matches_place hc hp
    obtain ⟨rfl, rfl, hdd⟩ := unfit_unique (d := d) hv hd ht (by simpa using e)
    rw [hclash, if_pos (hd'.symm.trans (category_of_describe hdd))]
    simp
  · rw [classifyBy_eq_none h]
    split
    · rename_i hcat
      subst hcat
      refine absurd ?_ h
      have hm : value.mode.word.toList = "variable".toList ∨
          value.mode.word.toList = "value".toList := by
        rcases hmode : value.mode with _ | _ | _
        · rw [hv.constant hmode] at ht
          cases ht
        · exact .inl rfl
        · exact .inr rfl
      have hline (t : BasicType) : t.name.toList ≠ [] ∧ '\n' ∉ t.name.toList := by
        cases t <;> decide
      have := search_unfitIn ("cannot use ".toList ++ value.text.toList ++ [' '])
        (roundFree_place _) hm (hline value.type).1 (hline value.type).2 (hline target).1
        (hline target).2 (place_matches hd)
      rw [Complaint.toList_message]
      have untruncated : value.type ≠ .untypedFloat := fun h => by simp [h] at ht; cases ht
      simpa [Complaint.pieces, note, ht, spaced, untruncated] using this
    · rfl

theorem mismatched_unique {text : String} {l r : BasicType} (ht : Phrase text.toList)
    {front left right close : List Char} (ln : left ≠ []) (rc : ')' ∉ right)
    (hclose : close = [')'] ∨ close = [])
    (h : (Complaint.mismatchedOperands text l r).message.toList
      = "invalid operation: ".toList ++ front ++ "mismatched types ".toList ++ left
        ++ " and ".toList ++ right ++ close) :
    left = l.name.toList ∧ right = r.name.toList := by
  have front_piece : Piece (Between 'd' 't') (spaced ["invalid operation:".toList, text.toList,
      "(mismatched".toList]) :=
    Pieces.spaced (by simp) ⟨by decide, by simp [Between],
      ht.piece (by rintro x y ⟨rfl, rfl⟩; decide), by simp [Between], by decide⟩
  have back : Piece (Between 'd' 't') (spaced ["types".toList, l.name.toList, "and".toList,
      r.name.toList ++ [')']]) :=
    Pieces.spaced (by simp) ⟨by decide, by simp [Between], piece_name (by decide) _,
      by simp [Between], by decide, by cases r <;> simp [Between, BasicType.name],
      (piece_name (by decide) _).append (by decide)⟩
  have last : Piece (Before 'a') (spaced ["and".toList, r.name.toList ++ [')']]) :=
    Pieces.spaced (by simp) ⟨by decide, by cases r <;> simp [Before, BasicType.name],
      (piece_name (by decide) _).append (by decide)⟩
  have e : ("invalid operation: ".toList ++ front ++ "mismatched".toList) ++ ' ' ::
        ("types ".toList ++ left ++ " and ".toList ++ right ++ close)
      = spaced ["invalid operation:".toList, text.toList, "(mismatched".toList] ++ ' ' ::
        spaced ["types".toList, l.name.toList, "and".toList, r.name.toList ++ [')']] := by
    rw [Complaint.toList_message] at h
    simpa [Complaint.pieces, spaced] using h.symm
  obtain ⟨-, e₁⟩ := cut_unique (P := Between 'd' 't') (x := 'd') (y := 't') e
    (by rw [List.getLast?_append]; rfl) (by simp)
    ⟨rfl, rfl⟩ (by decide) (by simp [spaced]) front_piece.avoids back.avoids
  have e₂ : left ++ ' ' :: ("and ".toList ++ right ++ close)
      = l.name.toList ++ ' ' :: spaced ["and".toList, r.name.toList ++ [')']] := by
    simpa [spaced] using e₁
  obtain ⟨h₁, h₂⟩ := cut_unique (P := Before 'a') (y := 'a') e₂
    (List.getLast?_eq_some_getLast ln) (by simp) rfl (by decide)
    (by simp [spaced]) (piece_name (by decide) l).avoids last.avoids
  refine ⟨h₁, ?_⟩
  have h₃ : right ++ close = r.name.toList ++ [')'] := by simpa [spaced] using h₂
  rcases hclose with rfl | rfl
  · exact List.append_cancel_right h₃
  · rw [List.append_nil] at h₃
    simp [h₃] at rc

theorem classifyBy_mismatchedOperands {text : String} {l r : BasicType} (ht : Phrase text.toList) :
    classifyBy .operands mismatchedTypes (Complaint.mismatchedOperands text l r).message.toList
      = some (.operands l.name r.name) := by
  have hname (t : BasicType) : t.name.toList ≠ [] ∧ '\n' ∉ t.name.toList ∧ ')' ∉ t.name.toList := by
    cases t <;> decide
  have found : (mismatchedTypes.search
      (Complaint.mismatchedOperands text l r).message.toList).isSome := by
    have := search_mismatchedTypes ht.ne ht.oneLine (hname l).1 (hname l).2.1 (hname r).1
      (hname r).2.2
    rw [Complaint.toList_message]
    simpa [Complaint.pieces, spaced] using this
  obtain ⟨front, left, right, close, ln, rc, hclose, e, hclash⟩ := classifyBy_mismatchedTypes found
  obtain ⟨rfl, rfl⟩ := mismatched_unique ht ln rc hclose e
  rw [hclash]
  simp

/-- A text in which the pattern for a destination finds something has the gaps of its words. -/
theorem gaps_of_unfitIn {category : ClashCategory} {text : List Char}
    (hc : category ≠ .operands) (h : ((unfitIn (place category)).search text).isSome) :
    ('f', 't') ∈ gaps text ∧ (')', 'a') ∈ gaps text := by
  obtain ⟨before, got, want, _, place, right, rfl, -⟩ :=
    classifyBy_unfitIn hc (names_place category) h
  constructor
  · exact mem_gaps.2 ⟨before ++ " o".toList, "ype ".toList ++ got ++ ") as ".toList ++ want
      ++ " value in ".toList ++ place ++ right, by simp⟩
  · exact mem_gaps.2 ⟨before ++ " of type ".toList ++ got, "s ".toList ++ want
      ++ " value in ".toList ++ place ++ right, by simp⟩

/-- A text in which the pattern for operands finds something has the gaps of its words. -/
theorem gaps_of_mismatchedTypes {text : List Char} (h : (mismatchedTypes.search text).isSome) :
    ('d', 'o') ∈ gaps text ∧ ('d', 't') ∈ gaps text := by
  obtain ⟨front, left, right, close, -, -, -, rfl, -⟩ := classifyBy_mismatchedTypes h
  constructor
  · exact mem_gaps.2 ⟨"invali".toList, "peration: ".toList ++ front ++ "mismatched types ".toList
      ++ left ++ " and ".toList ++ right ++ close, by simp⟩
  · exact mem_gaps.2 ⟨"invalid operation: ".toList ++ front ++ "mismatche".toList, "ypes ".toList
      ++ left ++ " and ".toList ++ right ++ close, by simp⟩

/-- The standard classifier asks its patterns in turn. -/
theorem classify_standard (message : String) : standard.classify message =
    ((classifyBy .declaration (unfitIn (place .declaration)) message.toList).or
      ((classifyBy .argument (unfitIn (place .argument)) message.toList).or
        ((classifyBy .assignment (unfitIn (place .assignment)) message.toList).or
          ((classifyBy .operands mismatchedTypes message.toList).or
            (classifyBy .result (unfitIn (place .result)) message.toList))))) := by
  simp only [classify, standard_eq, List.findSome?_cons, List.findSome?_nil]
  cases classifyBy .declaration (unfitIn (place .declaration)) message.toList <;>
    cases classifyBy .argument (unfitIn (place .argument)) message.toList <;>
      cases classifyBy .assignment (unfitIn (place .assignment)) message.toList <;>
        cases classifyBy .operands mismatchedTypes message.toList <;>
          cases classifyBy .result (unfitIn (place .result)) message.toList <;> rfl

/-- The standard classifier finds in the message of a complaint the clash that it reports, and
nothing in the messages of complaints that report none. -/
theorem classify_message {c : Complaint} (h : c.Fair) :
    standard.classify c.message = c.clash? := by
  rw [classify_standard]
  cases hc : c.clash? with
  | none =>
    have unfit {category : ClashCategory} (hcat : category ≠ .operands) :
        classifyBy category (unfitIn (place category)) c.message.toList = none := by
      refine classifyBy_eq_none fun hs => ?_
      obtain ⟨h₁, h₂⟩ := gaps_of_unfitIn hcat hs
      rcases Complaint.piece_message h hc with hp | hp
      · exact hp.avoids _ h₂ (.inl ⟨rfl, rfl⟩)
      · exact hp.avoids _ h₁ (.inl ⟨rfl, rfl⟩)
    have operands : classifyBy .operands mismatchedTypes c.message.toList = none := by
      refine classifyBy_eq_none fun hs => ?_
      obtain ⟨h₁, h₂⟩ := gaps_of_mismatchedTypes hs
      rcases Complaint.piece_message h hc with hp | hp
      · exact hp.avoids _ h₂ (.inr ⟨rfl, rfl⟩)
      · exact hp.avoids _ h₁ (.inr ⟨rfl, rfl⟩)
    rw [unfit (by decide), unfit (by decide), unfit (by decide), operands, unfit (by decide)]
    rfl
  | some clash =>
    cases c with
    | unfit value target destination =>
      rw [Complaint.clash?] at hc
      split at hc
      · cases hc
      · rename_i ht
        rw [Bool.not_eq_true] at ht
        cases hc
        have operands : classifyBy .operands mismatchedTypes
            (Complaint.unfit value target destination).message.toList = none := by
          refine classifyBy_eq_none fun hs => ?_
          exact (Complaint.piece_unfit h.1 h.2 ht).avoids _ (gaps_of_mismatchedTypes hs).2
            ⟨rfl, rfl⟩
        rw [classifyBy_unfit (by decide) h.1 h.2 ht, classifyBy_unfit (by decide) h.1 h.2 ht,
          classifyBy_unfit (by decide) h.1 h.2 ht, classifyBy_unfit (by decide) h.1 h.2 ht, operands]
        cases destination <;> rfl
    | mismatchedOperands text l r =>
      cases hc
      have unfit {category : ClashCategory} (hcat : category ≠ .operands) :
          classifyBy category (unfitIn (place category))
            (Complaint.mismatchedOperands text l r).message.toList = none := by
        refine classifyBy_eq_none fun hs => ?_
        exact (Complaint.piece_mismatchedOperands h l r).avoids _ (gaps_of_unfitIn hcat hs).1
          ⟨rfl, rfl⟩
      rw [unfit (by decide), unfit (by decide), unfit (by decide),
        classifyBy_mismatchedOperands h]
      rfl
    | _ => cases hc

end Classifier

end Recast
