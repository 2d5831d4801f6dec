import Recast.Proofs.Grammar.Words

/-!
# Prediction

A table that says, for a stack of symbols that are still to come, what is to come after the next
token. No token leaves a choice, so reading a word from the left either comes to its end or gets stuck
in front of some token. Every part of a file is read as the symbol that stands for it, and files are
read to their end (`File.read`).
-/

namespace Recast

namespace Grammar

/-! ### The table -/

/-- What is still to come in a file. -/
inductive Symbol where
  /-- A token of this kind. -/
  | word (kind : TokenKind)
  /-- Any number of newlines. -/
  | gap
  /-- An expression. -/
  | operand
  /-- Calls and further operands of an expression. -/
  | tail
  /-- The arguments of a call. -/
  | args
  /-- What follows an argument. -/
  | moreArgs
  /-- Further expressions of a list. -/
  | moreExprs
  /-- Further identifiers of a list. -/
  | moreIdents
  /-- What a declaration says of its names. -/
  | declared
  /-- The values of a declaration with a type. -/
  | values
  /-- The results of a `return`. -/
  | returned
  /-- What follows the first expression of a statement. -/
  | targets
  /-- What follows several targets of an assignment. -/
  | moreTargets
  /-- The statements of a block. -/
  | body
  /-- What follows a statement of a block. -/
  | moreBody
  /-- What follows the name of a parameter. -/
  | paramType
  | params
  /-- Further parameters of a list. -/
  | moreParams
  | results
  | file

/-- What is still to come, the next symbol first. -/
abbrev Stack := List Symbol

/-- What comes after the first token of an expression. -/
def afterOperand : TokenKind → Option Stack
  | .literal _ | .ident => some [.tail]
  | .leftParen => some [.operand, .word .rightParen, .tail]
  | .op .sub => some [.operand]
  | _ => none

/-- What comes after the first token of a statement. -/
def afterStatement : TokenKind → Option Stack
  | .var => some [.word .ident, .moreIdents, .declared]
  | .ret => some [.returned]
  | kind => (afterOperand kind).map (· ++ [.targets])

namespace Symbol

/-- What is to come of a symbol after its first token. -/
def after : Symbol → TokenKind → Option Stack
  | word kind, kind' => if kind' = kind then some [] else none
  | gap, .newline => some [gap]
  | operand, kind => afterOperand kind
  | tail, .op _ => some [gap, operand]
  | tail, .leftParen => some [gap, args, word .rightParen, tail]
  | args, kind => (afterOperand kind).map (· ++ [moreArgs])
  | moreArgs, .newline => some [moreArgs]
  | moreArgs, .comma => some [gap, args]
  | moreExprs, .comma => some [gap, operand, moreExprs]
  | moreIdents, .comma => some [word .ident, moreIdents]
  | declared, .ident => some [values]
  | declared, .assign => some [operand, moreExprs]
  | values, .assign => some [operand, moreExprs]
  | returned, kind => (afterOperand kind).map (· ++ [moreExprs])
  | targets, .comma => some [gap, operand, moreTargets]
  | targets, .assign => some [operand, moreExprs]
  | moreTargets, .comma => some [gap, operand, moreTargets]
  | moreTargets, .assign => some [operand, moreExprs]
  | body, .newline => some [body]
  | body, .semicolon => some [body]
  | body, kind => (afterStatement kind).map (· ++ [moreBody])
  | moreBody, .newline => some [body]
  | moreBody, .semicolon => some [body]
  | paramType, .ident => some []
  | paramType, .ellipsis => some [word .ident]
  | params, .ident => some [paramType, moreParams]
  | moreParams, .comma => some [word .ident, paramType, moreParams]
  | results, .ident => some []
  | results, .leftParen => some [word .ident, moreIdents, word .rightParen]
  | file, .newline => some [file]
  | file, .semicolon => some [file]
  | file, .func => some [word .ident, word .leftParen, params, word .rightParen, results,
      word .leftBrace, body, word .rightBrace, file]
  | _, _ => none

theorem after_word (kind kind' : TokenKind) :
    (word kind).after kind' = if kind' = kind then some [] else none := rfl

theorem after_args (kind : TokenKind) :
    args.after kind = (afterOperand kind).map (· ++ [moreArgs]) := rfl

theorem after_returned (kind : TokenKind) :
    returned.after kind = (afterOperand kind).map (· ++ [moreExprs]) := rfl

/-- Whether there may be nothing of the symbol. -/
def optional : Symbol → Bool
  | word _ | operand | declared | moreTargets | paramType => false
  | _ => true

end Symbol

/-- What is still to come after the next token. Symbols of which there is nothing are passed over. -/
def step : Stack → TokenKind → Option Stack
  | [], _ => none
  | s :: K, kind =>
    match s.after kind with
    | some K' => some (K' ++ K)
    | none => if s.optional then step K kind else none

/-- Reads a word of what is still to come. Yields the rest in front of which no further token can be
read, or nothing if all is read. -/
def stuck : Stack → Word → Option Word
  | K, [] => if K.all Symbol.optional then none else some []
  | K, kind :: w =>
    match step K kind with
    | some K' => stuck K' w
    | none => some (kind :: w)

/-! ### Single steps -/

section Steps

variable {s : Symbol} {K K' : Stack} {kind : TokenKind} {w v : Word}

theorem stuck_after (h : s.after kind = some K') :
    stuck (s :: K) (kind :: w) = stuck (K' ++ K) w := by
  simp only [stuck, step, h]

theorem stuck_step (h : step K kind = some K') : stuck K (kind :: w) = stuck K' w := by
  simp only [stuck, h]

theorem stuck_pop (hs : s.optional) (h : ∀ kind ∈ w.head?, s.after kind = none) :
    stuck (s :: K) w = stuck K w := by
  cases w with
  | nil => simp [stuck, hs]
  | cons kind w => simp only [stuck, step, h kind rfl, hs, if_true]

theorem stuck_here (hs : s.optional = false) (h : ∀ kind ∈ w.head?, s.after kind = none) :
    stuck (s :: K) w = some w := by
  cases w with
  | nil => simp [stuck, hs]
  | cons kind w => simp [stuck, step, h kind rfl, hs]

theorem stuck_word : stuck (.word kind :: K) (kind :: w) = stuck K w :=
  stuck_after (K := K) (show (Symbol.word kind).after kind = some [] from if_pos rfl)

theorem after_gap (h : kind ≠ .newline) : Symbol.gap.after kind = none := by
  cases kind <;> first | rfl | exact absurd rfl h

theorem stuck_gap {newlines : Word} (hn : Newlines newlines)
    (hw : ∀ kind ∈ w.head?, kind ≠ .newline) : stuck (.gap :: K) (newlines ++ w) = stuck K w := by
  induction newlines with
  | nil => exact stuck_pop rfl fun kind h => after_gap (hw kind h)
  | cons kind newlines ih =>
    obtain rfl : kind = .newline := hn kind List.mem_cons_self
    exact (stuck_step rfl).trans (ih fun kind h => hn kind (List.mem_cons_of_mem _ h))

end Steps

/-! ### Files are read to the end -/

/-- The word starts as an expression does. -/
def StartsOperand (w : Word) : Prop := ∃ kind w', w = kind :: w' ∧ (afterOperand kind).isSome

section Starts

variable {w v : Word}

theorem StartsOperand.append (h : StartsOperand w) (v : Word) : StartsOperand (w ++ v) := by
  obtain ⟨kind, w', rfl, h⟩ := h
  exact ⟨kind, w' ++ v, rfl, h⟩

/-- A kind of token with which no expression starts is not the first of an expression. -/
theorem StartsOperand.head_ne (h : StartsOperand w) {kind : TokenKind}
    (hk : afterOperand kind = none) : ∀ kind' ∈ w.head?, kind' ≠ kind := by
  obtain ⟨kind', w', rfl, h⟩ := h
  rintro _ ⟨⟩ rfl
  simp [hk] at h

theorem Postfix.starts {w : Word} : Postfix w → StartsOperand w
  | .primary .literal | .primary .ident | .primary (.paren _) => ⟨_, _, rfl, rfl⟩
  | .call h _ _ => by simpa using h.starts.append _

theorem Unary.starts {w : Word} : Unary w → StartsOperand w
  | .neg _ => ⟨_, _, rfl, rfl⟩
  | .operand h => h.starts

theorem Expression.starts {w : Word} : Expression w → StartsOperand w
  | .unary h => h.starts
  | .binary hl _ _ => by simpa using hl.starts.append _

theorem Expressions.starts {n : Nat} (h : Expressions n w) : StartsOperand w := by
  cases h with
  | one h => exact h.starts
  | cons h => simpa using h.starts.append _

theorem stuck_args {K : Stack} (h : StartsOperand w) :
    stuck (.args :: K) w = stuck (.operand :: .moreArgs :: K) w := by
  obtain ⟨kind, w', rfl, h⟩ := h
  obtain ⟨K', h⟩ := Option.isSome_iff_exists.1 h
  have h' : Symbol.args.after kind = some (K' ++ [.moreArgs]) := by
    rw [Symbol.after_args, h, Option.map_some]
  rw [stuck_after h', stuck_after (s := .operand) h, List.append_assoc, List.singleton_append]

theorem stuck_returned {K : Stack} (h : StartsOperand w) :
    stuck (.returned :: K) w = stuck (.operand :: .moreExprs :: K) w := by
  obtain ⟨kind, w', rfl, h⟩ := h
  obtain ⟨K', h⟩ := Option.isSome_iff_exists.1 h
  have h' : Symbol.returned.after kind = some (K' ++ [.moreExprs]) := by
    rw [Symbol.after_returned, h, Option.map_some]
  rw [stuck_after h', stuck_after (s := .operand) h, List.append_assoc, List.singleton_append]

theorem stuck_body {K : Stack} (h : StartsOperand w) :
    stuck (.body :: K) w = stuck (.operand :: .targets :: .moreBody :: K) w := by
  obtain ⟨kind, w', rfl, h⟩ := h
  obtain ⟨K', h⟩ := Option.isSome_iff_exists.1 h
  have hbody : Symbol.body.after kind = some (K' ++ [.targets] ++ [.moreBody]) := by
    cases kind with
    | op op =>
      cases op <;> cases h
      rfl
    | _ => cases h <;> rfl
  rw [stuck_after hbody, stuck_after (s := .operand) h]
  simp

end Starts

theorem Arguments.head_ne_newline {n : Nat} {w v : Word} (h : Arguments n w) :
    ∀ kind ∈ (w ++ .rightParen :: v).head?, kind ≠ .newline := by
  cases h with
  | none => rintro _ ⟨⟩ ⟨⟩
  | last hw => exact ((hw.starts.append _).append _).head_ne rfl
  | cons hw => exact ((((hw.starts.append _).append _).append _).append _).head_ne rfl

theorem stuck_lines {newlines v : Word} {K : Stack} (hn : Newlines newlines) :
    stuck (.moreArgs :: K) (newlines ++ v) = stuck (.moreArgs :: K) v := by
  induction newlines with
  | nil => rfl
  | cons kind newlines ih =>
    obtain rfl : kind = .newline := hn kind List.mem_cons_self
    exact (stuck_step rfl).trans (ih fun kind h => hn kind (List.mem_cons_of_mem _ h))

/-- After an argument come newlines and no further operand. -/
theorem stuck_argument {newlines v : Word} {K : Stack} (hn : Newlines newlines)
    (hv : ∀ kind ∈ v.head?, Symbol.tail.after kind = none) :
    stuck (.tail :: .moreArgs :: K) (newlines ++ v) = stuck (.moreArgs :: K) v := by
  refine (stuck_pop rfl ?_).trans (stuck_lines hn)
  cases newlines with
  | nil => exact hv
  | cons kind newlines =>
    obtain rfl : kind = .newline := hn kind List.mem_cons_self
    rintro _ ⟨⟩
    rfl

mutual

theorem Primary.read {w : Word} : Primary w → ∀ (K : Stack) (v : Word),
    stuck (.operand :: K) (w ++ v) = stuck (.tail :: K) v
  | .literal | .ident => fun _ _ => stuck_step rfl
  | .paren (w := w) h => by
    intro K v
    calc
      stuck (.operand :: K) (.leftParen :: w ++ [.rightParen] ++ v)
        = stuck (.operand :: K) (.leftParen :: (w ++ .rightParen :: v)) := by simp
      _ = stuck (.operand :: .word .rightParen :: .tail :: K) (w ++ .rightParen :: v) :=
        stuck_step rfl
      _ = stuck (.tail :: .word .rightParen :: .tail :: K) (.rightParen :: v) := h.read _ _
      _ = stuck (.word .rightParen :: .tail :: K) (.rightParen :: v) :=
        stuck_pop rfl (by rintro _ ⟨⟩; rfl)
      _ = stuck (.tail :: K) v := stuck_word

theorem Postfix.read {w : Word} : Postfix w → ∀ (K : Stack) (v : Word),
    stuck (.operand :: K) (w ++ v) = stuck (.tail :: K) v
  | .primary h => h.read
  | @Postfix.call _ w newlines args h hn ha => by
    intro K v
    calc
      stuck (.operand :: K) (w ++ .leftParen :: newlines ++ args ++ [.rightParen] ++ v)
        = stuck (.operand :: K) (w ++ .leftParen :: (newlines ++ (args ++ .rightParen :: v))) := by
          simp
      _ = stuck (.tail :: K) (.leftParen :: (newlines ++ (args ++ .rightParen :: v))) :=
        h.read _ _
      _ = stuck (.gap :: .args :: .word .rightParen :: .tail :: K)
          (newlines ++ (args ++ .rightParen :: v)) := stuck_step rfl
      _ = stuck (.args :: .word .rightParen :: .tail :: K) (args ++ .rightParen :: v) :=
        stuck_gap hn ha.head_ne_newline
      _ = stuck (.word .rightParen :: .tail :: K) (.rightParen :: v) := ha.read _ _
      _ = stuck (.tail :: K) v := stuck_word

theorem Unary.read {w : Word} : Unary w → ∀ (K : Stack) (v : Word),
    stuck (.operand :: K) (w ++ v) = stuck (.tail :: K) v
  | .neg h => fun K v => (stuck_step rfl).trans (h.read K v)
  | .operand h => h.read

theorem Expression.read {w : Word} : Expression w → ∀ (K : Stack) (v : Word),
    stuck (.operand :: K) (w ++ v) = stuck (.tail :: K) v
  | .unary h => h.read
  | @Expression.binary op left newlines right hl hn hr => by
    intro K v
    calc
      stuck (.operand :: K) (left ++ .op op :: newlines ++ right ++ v)
        = stuck (.operand :: K) (left ++ .op op :: (newlines ++ (right ++ v))) := by simp
      _ = stuck (.tail :: K) (.op op :: (newlines ++ (right ++ v))) := hl.read _ _
      _ = stuck (.gap :: .operand :: K) (newlines ++ (right ++ v)) := stuck_step rfl
      _ = stuck (.operand :: K) (right ++ v) :=
        stuck_gap hn ((hr.starts.append v).head_ne rfl)
      _ = stuck (.tail :: K) v := hr.read _ _

theorem Arguments.read {n : Nat} {w : Word} : Arguments n w → ∀ (K : Stack) (v : Word),
    stuck (.args :: K) (w ++ .rightParen :: v) = stuck K (.rightParen :: v)
  | .none => fun _ _ => stuck_pop rfl (by rintro _ ⟨⟩; rfl)
  | @Arguments.last w newlines hw hn => by
    intro K v
    calc
      stuck (.args :: K) (w ++ newlines ++ .rightParen :: v)
        = stuck (.args :: K) (w ++ (newlines ++ .rightParen :: v)) := by simp
      _ = stuck (.operand :: .moreArgs :: K) (w ++ (newlines ++ .rightParen :: v)) :=
        stuck_args (hw.starts.append _)
      _ = stuck (.tail :: .moreArgs :: K) (newlines ++ .rightParen :: v) := hw.read _ _
      _ = stuck (.moreArgs :: K) (.rightParen :: v) :=
        stuck_argument hn (by rintro _ ⟨⟩; rfl)
      _ = stuck K (.rightParen :: v) := stuck_pop rfl (by rintro _ ⟨⟩; rfl)
  | @Arguments.cons _ w before after args hw hb ha h => by
    intro K v
    calc
      stuck (.args :: K) (w ++ before ++ .comma :: after ++ args ++ .rightParen :: v)
        = stuck (.args :: K) (w ++ (before ++ .comma :: (after ++ (args ++ .rightParen :: v)))) := by
          simp
      _ = stuck (.operand :: .moreArgs :: K)
          (w ++ (before ++ .comma :: (after ++ (args ++ .rightParen :: v)))) :=
        stuck_args (hw.starts.append _)
      _ = stuck (.tail :: .moreArgs :: K)
          (before ++ .comma :: (after ++ (args ++ .rightParen :: v))) := hw.read _ _
      _ = stuck (.moreArgs :: K) (.comma :: (after ++ (args ++ .rightParen :: v))) :=
        stuck_argument hb (by rintro _ ⟨⟩; rfl)
      _ = stuck (.gap :: .args :: K) (after ++ (args ++ .rightParen :: v)) := stuck_step rfl
      _ = stuck (.args :: K) (args ++ .rightParen :: v) := stuck_gap ha h.head_ne_newline
      _ = stuck K (.rightParen :: v) := h.read _ _

end

/-! ### Lists -/

/-- Nothing follows that an expression list could go on with. -/
def EndsList (v : Word) : Prop := ∀ kind ∈ v.head?, Symbol.tail.after kind = none ∧ kind ≠ .comma

theorem after_moreExprs {kind : TokenKind} (h : kind ≠ .comma) :
    Symbol.moreExprs.after kind = none := by
  cases kind <;> first | rfl | exact absurd rfl h

theorem after_moreIdents {kind : TokenKind} (h : kind ≠ .comma) :
    Symbol.moreIdents.after kind = none := by
  cases kind <;> first | rfl | exact absurd rfl h

theorem after_moreParams {kind : TokenKind} (h : kind ≠ .comma) :
    Symbol.moreParams.after kind = none := by
  cases kind <;> first | rfl | exact absurd rfl h

theorem Expressions.read {n : Nat} {w : Word} (h : Expressions n w) {K : Stack} {v : Word}
    (hv : EndsList v) : stuck (.operand :: .moreExprs :: K) (w ++ v) = stuck K v := by
  induction h with
  | one hw =>
    refine (hw.read _ _).trans ((stuck_pop rfl fun kind h => (hv kind h).1).trans ?_)
    exact stuck_pop rfl fun kind h => after_moreExprs (hv kind h).2
  | @cons n w between ws hw hb hws ih =>
    calc
      stuck (.operand :: .moreExprs :: K) (w ++ .comma :: between ++ ws ++ v)
        = stuck (.operand :: .moreExprs :: K) (w ++ .comma :: (between ++ (ws ++ v))) := by simp
      _ = stuck (.tail :: .moreExprs :: K) (.comma :: (between ++ (ws ++ v))) := hw.read _ _
      _ = stuck (.moreExprs :: K) (.comma :: (between ++ (ws ++ v))) :=
        stuck_pop rfl (by rintro _ ⟨⟩; rfl)
      _ = stuck (.gap :: .operand :: .moreExprs :: K) (between ++ (ws ++ v)) := stuck_step rfl
      _ = stuck (.operand :: .moreExprs :: K) (ws ++ v) :=
        stuck_gap hb (((Expressions.starts hws).append v).head_ne rfl)
      _ = stuck K v := ih

theorem Identifiers.read {n : Nat} {w : Word} (h : Identifiers n w) {K : Stack} {v : Word} :
    stuck (.word .ident :: .moreIdents :: K) (w ++ v) = stuck (.moreIdents :: K) v := by
  induction h with
  | one hw =>
    cases hw
    exact stuck_word
  | @cons n w between ws hw hb hws ih =>
    cases hw
    cases hb
    exact stuck_word.trans ((stuck_step rfl).trans ih)

theorem Parameter.read {w : Word} (h : Parameter w) {K : Stack} {v : Word} :
    stuck (.word .ident :: .paramType :: K) (w ++ v) = stuck K v := by
  cases h with
  | single => exact stuck_word.trans (stuck_step rfl)
  | variadic => exact stuck_word.trans ((stuck_step rfl).trans stuck_word)

theorem Parameters.read {w : Word} (h : Parameters w) {K : Stack} {v : Word} :
    stuck (.params :: K) (w ++ .rightParen :: v) = stuck K (.rightParen :: v) := by
  have hlist {n : Nat} {w : Word} (h : Separated NoGap Parameter n w) :
      stuck (.word .ident :: .paramType :: .moreParams :: K) (w ++ .rightParen :: v)
        = stuck K (.rightParen :: v) := by
    induction h with
    | one hw => exact hw.read.trans (stuck_pop rfl (by rintro _ ⟨⟩; rfl))
    | cons hw hb _ ih =>
      cases hb
      rw [List.append_assoc, List.append_assoc]
      exact hw.read.trans ((stuck_step rfl).trans ih)
  have hfirst {n : Nat} {w : Word} (h : Separated NoGap Parameter n w) :
      ∃ w', w = .ident :: w' := by
    cases h with
    | one hw => cases hw <;> exact ⟨_, rfl⟩
    | cons hw => cases hw <;> exact ⟨_, rfl⟩
  cases h with
  | none => exact stuck_pop rfl (by rintro _ ⟨⟩; rfl)
  | some h =>
    refine .trans ?_ (hlist h)
    obtain ⟨w', rfl⟩ := hfirst h
    exact (stuck_step rfl).trans stuck_word.symm

theorem Results.read {w : Word} (h : Results w) {K : Stack} {v : Word} :
    stuck (.results :: K) (w ++ .leftBrace :: v) = stuck K (.leftBrace :: v) := by
  cases h with
  | none => exact stuck_pop rfl (by rintro _ ⟨⟩; rfl)
  | one => exact stuck_step rfl
  | @many n w h =>
    calc
      stuck (.results :: K) (.leftParen :: w ++ [.rightParen] ++ .leftBrace :: v)
        = stuck (.results :: K) (.leftParen :: (w ++ .rightParen :: .leftBrace :: v)) := by simp
      _ = stuck (.word .ident :: .moreIdents :: .word .rightParen :: K)
          (w ++ .rightParen :: .leftBrace :: v) := stuck_step rfl
      _ = stuck (.moreIdents :: .word .rightParen :: K) (.rightParen :: .leftBrace :: v) := h.read
      _ = stuck (.word .rightParen :: K) (.rightParen :: .leftBrace :: v) :=
        stuck_pop rfl (by rintro _ ⟨⟩; rfl)
      _ = stuck K (.leftBrace :: v) := stuck_word

/-! ### Statements -/

/-- A statement ends here. -/
def EndsStatement (v : Word) : Prop := ∃ kind v', v = kind :: v' ∧
  (Terminator kind ∨ kind = .rightBrace)

/-- At the end of a statement there is nothing of a symbol that takes none of its tokens. -/
theorem EndsStatement.pop {s : Symbol} {K : Stack} {v : Word} (hv : EndsStatement v)
    (hs : s.optional) (hn : s.after .newline = none) (hsemi : s.after .semicolon = none)
    (hb : s.after .rightBrace = none) : stuck (s :: K) v = stuck K v := by
  obtain ⟨kind, v', rfl, (rfl | rfl) | rfl⟩ := hv
  · exact stuck_pop hs (by rintro _ ⟨⟩; exact hn)
  · exact stuck_pop hs (by rintro _ ⟨⟩; exact hsemi)
  · exact stuck_pop hs (by rintro _ ⟨⟩; exact hb)

theorem EndsStatement.endsList {v : Word} (hv : EndsStatement v) : EndsList v := by
  obtain ⟨kind, v', rfl, (rfl | rfl) | rfl⟩ := hv <;> rintro _ ⟨⟩ <;> exact ⟨rfl, nofun⟩

theorem Values.read {w : Word} (h : Values w) {K : Stack} {v : Word} (hv : EndsStatement v) :
    stuck (.values :: K) (w ++ v) = stuck K v := by
  cases h with
  | none => exact hv.pop rfl rfl rfl rfl
  | some h => exact (stuck_step rfl).trans (h.read hv.endsList)

/-- Targets of an assignment after the first one. -/
theorem Expressions.read_targets {n : Nat} {w : Word} (h : Expressions n w) {K : Stack} {v : Word} :
    stuck (.operand :: .moreTargets :: K) (w ++ .assign :: v)
      = stuck (.operand :: .moreExprs :: K) v := by
  induction h with
  | one hw =>
    exact (hw.read _ _).trans ((stuck_pop rfl (by rintro _ ⟨⟩; rfl)).trans (stuck_step rfl))
  | @cons n w between ws hw hb hws ih =>
    calc
      stuck (.operand :: .moreTargets :: K) (w ++ .comma :: between ++ ws ++ .assign :: v)
        = stuck (.operand :: .moreTargets :: K)
          (w ++ .comma :: (between ++ (ws ++ .assign :: v))) := by simp
      _ = stuck (.tail :: .moreTargets :: K) (.comma :: (between ++ (ws ++ .assign :: v))) :=
        hw.read _ _
      _ = stuck (.moreTargets :: K) (.comma :: (between ++ (ws ++ .assign :: v))) :=
        stuck_pop rfl (by rintro _ ⟨⟩; rfl)
      _ = stuck (.gap :: .operand :: .moreTargets :: K) (between ++ (ws ++ .assign :: v)) :=
        stuck_step rfl
      _ = stuck (.operand :: .moreTargets :: K) (ws ++ .assign :: v) :=
        stuck_gap hb (((Expressions.starts hws).append _).head_ne rfl)
      _ = stuck (.operand :: .moreExprs :: K) v := ih

theorem Statement.read {w : Word} (h : Statement false w) {K : Stack} {v : Word}
    (hv : EndsStatement v) : stuck (.body :: K) (w ++ v) = stuck (.moreBody :: K) v := by
  cases h with
  | @declaration n names type values hns hty hvs hne =>
    rw [List.append_assoc, List.append_assoc]
    refine (stuck_step rfl).trans (hns.read.trans ?_)
    rcases hty with rfl | hty
    · cases hvs with
      | none => simp at hne
      | some hvs =>
        refine (stuck_pop rfl (by rintro _ ⟨⟩; rfl)).trans ((stuck_step rfl).trans ?_)
        exact hvs.read hv.endsList
    · cases hty
      refine (stuck_pop rfl (by rintro _ ⟨⟩; rfl)).trans ((stuck_step rfl).trans ?_)
      exact hvs.read hv
  | done => exact (stuck_step rfl).trans (hv.pop rfl rfl rfl rfl)
  | ret h =>
    exact (stuck_step rfl).trans ((stuck_returned (h.starts.append v)).trans (h.read hv.endsList))
  | @assignment m n ts vs hts hvs =>
    rw [List.append_assoc]
    refine (stuck_body (hts.starts.append _)).trans (.trans ?_ (hvs.read hv.endsList))
    cases hts with
    | one hw =>
      exact (hw.read _ _).trans ((stuck_pop rfl (by rintro _ ⟨⟩; rfl)).trans (stuck_step rfl))
    | @cons n w between ws hw hb hws =>
      calc
        stuck (.operand :: .targets :: .moreBody :: K)
            (w ++ .comma :: between ++ ws ++ (.assign :: vs ++ v))
          = stuck (.operand :: .targets :: .moreBody :: K)
            (w ++ .comma :: (between ++ (ws ++ .assign :: (vs ++ v)))) := by simp
        _ = stuck (.tail :: .targets :: .moreBody :: K)
            (.comma :: (between ++ (ws ++ .assign :: (vs ++ v)))) := hw.read _ _
        _ = stuck (.targets :: .moreBody :: K)
            (.comma :: (between ++ (ws ++ .assign :: (vs ++ v)))) :=
          stuck_pop rfl (by rintro _ ⟨⟩; rfl)
        _ = stuck (.gap :: .operand :: .moreTargets :: .moreBody :: K)
            (between ++ (ws ++ .assign :: (vs ++ v))) := stuck_step rfl
        _ = stuck (.operand :: .moreTargets :: .moreBody :: K) (ws ++ .assign :: (vs ++ v)) :=
          stuck_gap hb (((Expressions.starts hws).append _).head_ne rfl)
        _ = stuck (.operand :: .moreExprs :: .moreBody :: K) (vs ++ v) :=
          Expressions.read_targets hws
  | expression hw =>
    refine (stuck_body (hw.starts.append v)).trans ((hw.read _ _).trans ?_)
    exact (hv.pop rfl rfl rfl rfl).trans (hv.pop rfl rfl rfl rfl)

/-! ### Blocks and files -/

/-- Terminators are passed over where they leave the symbol as it is. -/
theorem stuck_terminators {s : Symbol} (hn : s.after .newline = some [s])
    (hs : s.after .semicolon = some [s]) {gap v : Word} {K : Stack} (h : Terminators gap) :
    stuck (s :: K) (gap ++ v) = stuck (s :: K) v := by
  induction gap with
  | nil => rfl
  | cons kind gap ih =>
    have hgap : Terminators gap := fun kind hk => h kind (List.mem_cons_of_mem _ hk)
    rcases h kind List.mem_cons_self with rfl | rfl
    · exact (stuck_after hn).trans (ih hgap)
    · exact (stuck_after hs).trans (ih hgap)

theorem Body.read {n : Nat} {w : Word} (h : Body false n w) {K : Stack} {v : Word} :
    stuck (.body :: K) (w ++ .rightBrace :: v) = stuck K (.rightBrace :: v) := by
  induction h with
  | none hg =>
    exact (stuck_terminators rfl rfl hg).trans (stuck_pop rfl (by rintro _ ⟨⟩; rfl))
  | last hg hw =>
    rw [List.append_assoc]
    refine (stuck_terminators rfl rfl hg).trans ((hw.read ⟨_, _, rfl, .inr rfl⟩).trans ?_)
    exact stuck_pop rfl (by rintro _ ⟨⟩; rfl)
  | cons hg hw hk _ ih =>
    rw [List.append_assoc, List.append_assoc]
    refine (stuck_terminators rfl rfl hg).trans ((hw.read ⟨_, _, rfl, .inl hk⟩).trans ?_)
    rcases hk with rfl | rfl
    · exact (stuck_step rfl).trans ih
    · exact (stuck_step rfl).trans ih

theorem Func.read {w : Word} (h : Func false w) {K : Stack} {v : Word} :
    stuck (.file :: K) (w ++ v) = stuck (.file :: K) v := by
  cases h with
  | @mk n params results body hps hrs hbody =>
    calc
      stuck (.file :: K) (.func :: .ident :: .leftParen :: params ++ .rightParen :: results
          ++ .leftBrace :: body ++ [.rightBrace] ++ v)
        = stuck (.file :: K) (.func :: .ident :: .leftParen :: (params ++ .rightParen :: (results
            ++ .leftBrace :: (body ++ .rightBrace :: v)))) := by simp
      _ = stuck (.params :: .word .rightParen :: .results :: .word .leftBrace :: .body
            :: .word .rightBrace :: .file :: K) (params ++ .rightParen :: (results
            ++ .leftBrace :: (body ++ .rightBrace :: v))) :=
        (stuck_step rfl).trans (stuck_word.trans stuck_word)
      _ = stuck (.results :: .word .leftBrace :: .body :: .word .rightBrace :: .file :: K)
          (results ++ .leftBrace :: (body ++ .rightBrace :: v)) := hps.read.trans stuck_word
      _ = stuck (.body :: .word .rightBrace :: .file :: K) (body ++ .rightBrace :: v) :=
        hrs.read.trans stuck_word
      _ = stuck (.file :: K) v := hbody.read.trans stuck_word

/-- A file is read to its end. -/
theorem File.read {w : Word} (h : File false w) : stuck [.file] w = Option.none := by
  induction h with
  | none hg =>
    have h := stuck_terminators (s := .file) rfl rfl (v := []) (K := []) hg
    rwa [List.append_nil] at h
  | cons hg hw _ ih =>
    rw [List.append_assoc]
    exact (stuck_terminators rfl rfl hg).trans (hw.read.trans ih)

end Grammar

end Recast
