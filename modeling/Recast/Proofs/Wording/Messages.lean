import Recast.Clash
import Recast.Proofs.Wording.Gaps
import Recast.Types.Complaint

/-!
# Messages in pieces

The message of a complaint consists of fixed words and of pieces that it quotes: texts of the
language and names of types (`Complaint.toList_message`). So all gaps of a message are known but
those inside texts of the language, which have a mark on one side. The gaps of the words by which
messages about clashes are told from others stand in those messages only (`piece_message`).
-/

namespace Recast

/-! ### Complaints that report a clash -/

/-- The category of the clashes that a destination gives rise to. -/
def Destination.category : Destination → ClashCategory
  | declaration => .declaration
  | argument _ => .argument
  | assignment => .assignment
  | result => .result

/-- The clash that a complaint reports, if a conversion can mend it. -/
def Complaint.clash? : Complaint → Option Clash
  | unfit value target destination =>
    if value.type.isUntyped then none
    else some (.of destination.category target.name value.type.name)
  | mismatchedOperands _ left right => some (.operands left.name right.name)
  | _ => none

/-! ### Fair complaints -/

/-- A quoted expression is a text of the language, and it is called a constant only if its type is
an untyped kind. -/
structure Quoted.Fair (q : Quoted) : Prop where
  phrase : Phrase q.text.toList
  constant : q.mode = .constant → q.type.isUntyped

/-- A destination that is called by a text of the language. -/
def Destination.Fair : Destination → Prop
  | argument function => Phrase function.toList
  | _ => True

/-- What a complaint quotes are texts of the language. -/
def Complaint.Fair : Complaint → Prop
  | undefined text | redeclared text | notAssignable text | typeAsValue text
  | functionAsValue text | mismatchedOperands text _ _ | truncated text _ | missingArgument text
  | extraArgument text => Phrase text.toList
  | unused text quoted? | notFunction text quoted? => Phrase text.toList ∧ ∀ q ∈ quoted?, q.Fair
  | unfit value _ destination => value.Fair ∧ destination.Fair
  | undefinedOperator symbol operand => Phrase symbol.toList ∧ operand.Fair
  | notConvertible value _ => value.Fair
  | countMismatch .. | resultCount .. | missingOperand _ | extraOperand _ => True

/-! ### Pieces of messages -/

/-- The gap between two given characters. -/
def Between (x y : Char) : Char → Char → Prop := fun c d => c = x ∧ d = y

instance (x y c d : Char) : Decidable (Between x y c d) :=
  inferInstanceAs (Decidable (c = x ∧ d = y))

/-- The gaps before a given character. -/
def Before (y : Char) : Char → Char → Prop := fun _ d => d = y

instance (y c d : Char) : Decidable (Before y c d) := inferInstanceAs (Decidable (d = y))

/-- The gap in `of type`, which stands before the type of a value, and that in `invalid operation`.
-/
def Opening : Char → Char → Prop := fun c d => c = 'f' ∧ d = 't' ∨ c = 'd' ∧ d = 'o'

/-- The gap in `) as`, which stands after the type of a value, and that in `mismatched types`. -/
def Closing : Char → Char → Prop := fun c d => c = ')' ∧ d = 'a' ∨ c = 'd' ∧ d = 't'

instance (c d : Char) : Decidable (Opening c d) :=
  inferInstanceAs (Decidable (_ ∨ _))

instance (c d : Char) : Decidable (Closing c d) :=
  inferInstanceAs (Decidable (_ ∨ _))

/-- The gaps that names of types have. -/
def nameGaps : List (Char × Char) := [('d', 'i'), ('d', 'f'), ('d', 'b')]

theorem piece_name {P : Char → Char → Prop} (h : ∀ g ∈ nameGaps, ¬ P g.1 g.2) (type : BasicType) :
    Piece P type.name.toList := by
  have hgaps : ∀ g ∈ gaps type.name.toList, g ∈ nameGaps := by cases type <;> decide
  refine ⟨⟨?_, ?_⟩, ?_, fun g hg => h g (hgaps g hg)⟩ <;> cases type <;> decide

/-- The note on a quoted expression, which follows its text. -/
def note (mode : Mode) (type : BasicType) : List Char :=
  if type.isUntyped then spaced ['(' :: type.name.toList, mode.word.toList ++ [')']]
  else spaced ['(' :: mode.word.toList, "of".toList, "type".toList, type.name.toList ++ [')']]

theorem Quoted.toList_render (q : Quoted) :
    q.render.toList = spaced [q.text.toList, note q.mode q.type] := by
  unfold render note
  split <;> simp [spaced]

theorem piece_note_untyped {P : Char → Char → Prop} (h : ∀ g ∈ nameGaps, ¬ P g.1 g.2)
    (hc : ∀ x, ¬ P x 'c') (hv : ∀ x, ¬ P x 'v') (hp : Piece P ['(']) (hp' : Piece P [')'])
    (hm : ∀ mode : Mode, Piece P mode.word.toList) (mode : Mode) (type : BasicType) :
    Piece P (spaced ['(' :: type.name.toList, mode.word.toList ++ [')']]) := by
  refine Pieces.spaced (by simp) ⟨hp.append (piece_name h type), ?_, (hm mode).append hp'⟩
  cases mode <;> simp [Mode.word, hc, hv]

theorem piece_note_closing (mode : Mode) (type : BasicType) : Piece Closing (note mode type) := by
  unfold note
  split
  · exact piece_note_untyped (by decide) (by simp [Closing]) (by simp [Closing]) (by decide)
      (by decide) (by rintro (_ | _) <;> decide) mode type
  · refine Pieces.spaced (by simp) ⟨by cases mode <;> decide,
      by cases mode <;> simp [Mode.word, Closing], by decide, by simp [Closing], by decide,
      by simp [Closing], ?_⟩
    exact (piece_name (by decide) type).append (by decide : Piece Closing [')'])

theorem piece_note_opening (mode : Mode) {type : BasicType} (h : type.isUntyped) :
    Piece Opening (note mode type) := by
  rw [note, if_pos h]
  exact piece_note_untyped (by decide) (by simp [Opening]) (by simp [Opening]) (by decide)
    (by decide) (by rintro (_ | _) <;> decide) mode type

theorem head?_note (mode : Mode) (type : BasicType) : (note mode type).head? = some '(' := by
  unfold note
  split <;> rfl

theorem getLast?_note (mode : Mode) (type : BasicType) : (note mode type).getLast? = some ')' := by
  unfold note
  split <;> simp [spaced, List.getLast?_append, List.getLast?_cons]

theorem marked_opening (x y : Char) (h : Opening x y) : isMark x = false ∧ isMark y = false := by
  rcases h with ⟨rfl, rfl⟩ | ⟨rfl, rfl⟩ <;> decide

theorem marked_closing (x y : Char) (h : Closing x y) : isMark x = false ∧ isMark y = false := by
  rcases h with ⟨rfl, rfl⟩ | ⟨rfl, rfl⟩ <;> decide

namespace Phrase

variable {text : List Char}

theorem closing (h : Phrase text) : Piece Closing text := h.piece marked_closing

theorem opening (h : Phrase text) : Piece Opening text := h.piece marked_opening

end Phrase

namespace Complaint

/-- The pieces of a quotation: its text and the note on it if its type is known. -/
def quotation (text : String) : Option Quoted → List (List Char)
  | none => [text.toList]
  | some q => [q.text.toList, note q.mode q.type]

/-- The pieces of the message of a complaint. -/
def pieces : Complaint → List (List Char)
  | undefined name => ["undefined:".toList, name.toList]
  | redeclared name => [name.toList, "redeclared in this block".toList]
  | countMismatch names values =>
    ["assignment mismatch:".toList, (toString names).toList,
      (if names = 1 then "variable but" else "variables but").toList, (toString values).toList,
      (if values = 1 then "value" else "values").toList]
  | resultCount actual expected =>
    [(if actual.length < expected.length then "not enough return values\n\thave"
        else "too many return values\n\thave").toList,
      (tuple actual).toList ++ "\n\twant".toList, (tuple expected).toList]
  | unused text quoted? => quotation text quoted? ++ ["is not used".toList]
  | notAssignable text =>
    ["cannot assign to".toList, text.toList,
      "(neither addressable nor a map index expression)".toList]
  | unfit value target destination =>
    ["cannot use".toList, value.text.toList, note value.mode value.type, "as".toList,
      target.name.toList, "value in".toList, (destination.describe
        ++ if value.type = .untypedFloat && target.isInteger then " (truncated)" else "").toList]
  | typeAsValue name => [name.toList, "(type) is not an expression".toList]
  | functionAsValue name => [name.toList, "(value of type func) must be called".toList]
  | undefinedOperator symbol operand =>
    ["invalid operation: operator".toList, symbol.toList, "not defined on".toList,
      operand.text.toList, note operand.mode operand.type]
  | mismatchedOperands text left right =>
    ["invalid operation:".toList, text.toList, "(mismatched".toList, "types".toList,
      left.name.toList, "and".toList, right.name.toList ++ [')']]
  | truncated text target =>
    [text.toList, "(untyped float constant) truncated to".toList, target.name.toList]
  | notFunction text quoted? =>
    "invalid operation: cannot call non-function".toList :: quotation text quoted?
  | notConvertible value target =>
    ["cannot convert".toList, value.text.toList, note value.mode value.type, "to type".toList,
      target.name.toList]
  | missingOperand target => ["missing argument in conversion to".toList, target.name.toList]
  | extraOperand target => ["too many arguments in conversion to".toList, target.name.toList]
  | missingArgument function => ["not enough arguments in call to".toList, function.toList]
  | extraArgument function => ["too many arguments in call to".toList, function.toList]

theorem toList_message (c : Complaint) : c.message.toList = spaced c.pieces := by
  -- The cases are taken by `delta`, as the equations of `message` are slow to come by.
  cases c <;> delta message <;> dsimp only
  case countMismatch names values =>
    by_cases hn : names = 1 <;> by_cases hv : values = 1 <;> simp [pieces, spaced, count, hn, hv]
  case resultCount actual expected => split <;> simp [pieces, spaced, *]
  case unused text quoted? =>
    cases quoted? <;> simp [pieces, quotation, spaced, Quoted.toList_render]
  case notFunction text quoted? =>
    cases quoted? <;> simp [pieces, quotation, spaced, Quoted.toList_render]
  case unfit value target destination =>
    split <;> simp [pieces, spaced, Quoted.toList_render, *]
  all_goals simp [pieces, spaced, Quoted.toList_render]

theorem piece_digits {P : Char → Char → Prop} (n : Nat) : Piece P (toString n).toList := by
  have digit : ∀ c ∈ (toString n).toList, c.isDigit := by
    intro c hc
    rw [Nat.toString_eq_ofList_toDigits, String.toList_ofList] at hc
    exact Nat.isDigit_of_mem_toDigits (by decide) (Nat.le_refl _) hc
  have hs : ' ' ∉ (toString n).toList := fun h => absurd (digit _ h) (by decide)
  exact {
    head e := hs (List.mem_of_mem_head? e)
    last e := hs (List.mem_of_getLast? e)
    ne := by simp
    avoids g hg := by rw [gaps_eq_nil_of_not_mem hs] at hg; cases hg }

theorem opening_tuple (types : List (Option BasicType)) : Piece Opening (tuple types).toList := by
  have hi : ∀ item ∈ (types.map fun t => ((t.map BasicType.name).getD "invalid type").toList),
      Piece Opening item := by
    intro item h
    obtain ⟨t, -, rfl⟩ := List.mem_map.1 h
    cases t with
    | none => decide
    | some t => exact piece_name (by decide) t
  have hp : Piece Opening ['('] := by decide
  cases types with
  | nil => decide
  | cons t types =>
    have := (hp.append (Piece.commas (by decide) (by simp [Opening]) _ (by simp) hi)).append
      (by decide : Piece Opening [')'])
    simpa [tuple, Function.comp_def] using this

theorem piece_describe {P : Char → Char → Prop} {destination : Destination}
    (hP : ∀ x y, P x y → isMark x = false ∧ isMark y = false)
    (hf : Piece P "variable declaration".toList ∧ Piece P "argument to".toList ∧
      Piece P "assignment".toList ∧ Piece P "return statement".toList)
    (ho : ∀ y, ¬ P 'o' y) (h : destination.Fair) : Piece P destination.describe.toList := by
  cases destination with
  | declaration => exact hf.1
  | argument function =>
    have := hf.2.1.space (Phrase.piece h hP) fun x y hx _ => by
      obtain rfl : 'o' = x := by simpa using hx
      exact ho y
    simpa [Destination.describe] using this
  | assignment => exact hf.2.2.1
  | result => exact hf.2.2.2

theorem piece_message {c : Complaint} (h : c.Fair) (hc : c.clash? = none) :
    Piece Closing c.message.toList ∨ Piece Opening c.message.toList := by
  rw [toList_message]
  cases c with
  | undefined name =>
    exact .inl (Pieces.spaced (by simp [pieces]) ⟨by decide, by simp [Closing], h.closing⟩)
  | redeclared name =>
    exact .inl (Pieces.spaced (by simp [pieces]) ⟨h.closing, by simp [Closing], by decide⟩)
  | countMismatch names values =>
    left
    refine Pieces.spaced (by simp [pieces]) ⟨by decide, by simp [Closing], piece_digits _,
      by split <;> simp [Closing], by split <;> decide, by split <;> simp [Closing], piece_digits _,
      by split <;> simp [Closing], by split <;> decide⟩
  | resultCount actual expected =>
    right
    have hw : Piece Opening ((tuple actual).toList ++ "\n\twant".toList) :=
      (opening_tuple actual).append (by decide)
    exact Pieces.spaced (by simp [pieces]) ⟨by split <;> decide, by split <;> simp [Opening], hw,
      by simp [Opening], opening_tuple expected⟩
  | unused text quoted? =>
    left
    cases quoted? with
    | none => exact Pieces.spaced (by simp [pieces]) ⟨h.1.closing, by simp [Closing], by decide⟩
    | some q =>
      exact Pieces.spaced (by simp [pieces]) ⟨(h.2 q rfl).phrase.closing,
        by simp [Closing, head?_note], piece_note_closing _ _, by simp [Closing], by decide⟩
  | notAssignable text =>
    exact .inl (Pieces.spaced (by simp [pieces])
      ⟨by decide, by simp [Closing], h.closing, by simp [Closing], by decide⟩)
  | unfit value target destination =>
    right
    have hu : value.type.isUntyped := by
      rw [clash?] at hc
      split at hc
      · assumption
      · cases hc
    have hd : Piece Opening destination.describe.toList :=
      piece_describe marked_opening (by decide) (by simp [Opening]) h.2
    have hd' : Piece Opening (destination.describe
        ++ if value.type = .untypedFloat && target.isInteger then " (truncated)" else "").toList := by
      split
      · simpa using hd.space (by decide : Piece Opening "(truncated)".toList) (by simp [Opening])
      · simpa using hd
    exact Pieces.spaced (by simp [pieces]) ⟨by decide, by simp [Opening], h.1.phrase.opening,
      by simp [Opening, head?_note], piece_note_opening _ hu, by simp [Opening], by decide,
      by simp [Opening], piece_name (by decide) target, by simp [Opening], by decide,
      by simp [Opening], hd'⟩
  | typeAsValue name =>
    exact .inl (Pieces.spaced (by simp [pieces]) ⟨h.closing, by simp [Closing], by decide⟩)
  | functionAsValue name =>
    exact .inl (Pieces.spaced (by simp [pieces]) ⟨h.closing, by simp [Closing], by decide⟩)
  | undefinedOperator symbol operand =>
    exact .inl (Pieces.spaced (by simp [pieces]) ⟨by decide, by simp [Closing], h.1.closing,
      by simp [Closing], by decide, by simp [Closing], h.2.phrase.closing,
      by simp [Closing, head?_note], piece_note_closing _ _⟩)
  | mismatchedOperands text left right => cases hc
  | truncated text target =>
    exact .inr (Pieces.spaced (by simp [pieces]) ⟨h.opening, by simp [Opening], by decide,
      by simp [Opening], piece_name (by decide) target⟩)
  | notFunction text quoted? =>
    left
    cases quoted? with
    | none => exact Pieces.spaced (by simp [pieces]) ⟨by decide, by simp [Closing], h.1.closing⟩
    | some q =>
      exact Pieces.spaced (by simp [pieces]) ⟨by decide, by simp [Closing],
        (h.2 q rfl).phrase.closing, by simp [Closing, head?_note], piece_note_closing _ _⟩
  | notConvertible value target =>
    exact .inl (Pieces.spaced (by simp [pieces]) ⟨by decide, by simp [Closing], h.phrase.closing,
      by simp [Closing, head?_note], piece_note_closing _ _, by simp [Closing, getLast?_note], by decide,
      by simp [Closing], piece_name (by decide) target⟩)
  | missingOperand target =>
    exact .inl (Pieces.spaced (by simp [pieces])
      ⟨by decide, by simp [Closing], piece_name (by decide) target⟩)
  | extraOperand target =>
    exact .inl (Pieces.spaced (by simp [pieces])
      ⟨by decide, by simp [Closing], piece_name (by decide) target⟩)
  | missingArgument function =>
    exact .inl (Pieces.spaced (by simp [pieces]) ⟨by decide, by simp [Closing], h.closing⟩)
  | extraArgument function =>
    exact .inl (Pieces.spaced (by simp [pieces]) ⟨by decide, by simp [Closing], h.closing⟩)

/-- The message on a value that does not fit has nothing like `mismatched types`. -/
theorem piece_unfit {value : Quoted} {target : BasicType} {destination : Destination}
    (hv : value.Fair) (hd : destination.Fair) (ht : value.type.isUntyped = false) :
    Piece (Between 'd' 't') (unfit value target destination).message.toList := by
  have into (x y : Char) (h : Between 'd' 't' x y) : Closing x y := .inr h
  have untruncated : value.type ≠ .untypedFloat := fun h => by simp [h] at ht; cases ht
  have last : Piece Closing destination.describe.toList :=
    piece_describe marked_closing (by decide) (by simp [Closing]) hd
  rw [toList_message]
  refine Pieces.spaced (by simp [pieces]) ⟨by decide, by simp [Between], hv.phrase.closing.mono into,
    by simp [Between, head?_note], (piece_note_closing _ _).mono into,
    by simp [Between, getLast?_note], by decide, by simp [Between], piece_name (by decide) target,
    by simp [Between], by decide, by simp [Between], ?_⟩
  show Piece _ _
  simpa [untruncated] using last.mono into

/-- The message on operands of two types has nothing like `of type`. -/
theorem piece_mismatchedOperands {text : String} (h : Phrase text.toList) (l r : BasicType) :
    Piece (Between 'f' 't') (mismatchedOperands text l r).message.toList := by
  rw [toList_message]
  exact Pieces.spaced (by simp [pieces]) ⟨by decide, by simp [Between],
    h.opening.mono fun x y h => .inl h, by simp [Between], by decide, by simp [Between], by decide,
    by simp [Between], piece_name (by decide) l, by simp [Between], by decide, by simp [Between],
    (piece_name (by decide) r).append (by decide)⟩

end Complaint

end Recast
