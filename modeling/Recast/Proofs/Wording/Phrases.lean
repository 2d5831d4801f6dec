import Recast.Proofs.Printing.Printable
import Recast.Proofs.Wording.Messages

/-!
# Texts of expressions are phrases

The checker quotes names and the texts of expressions. In these a space stands only beside an
operator or a comma, so no quoted text can be taken for words of a message.
-/

namespace Recast

variable {ε α : Type}

theorem IsName.phrase {text : String} (h : IsName text) : Phrase text.toList := by
  have hw := h.isWordChar
  obtain ⟨c, rest, he, -⟩ := h
  exact .of_not_mem (by simp [he]) (fun hm => nomatch hw _ hm)
    (fun hm => nomatch hw _ hm)

theorem phrase_literal {kind : LiteralKind} {lexeme : String}
    (h : Lexer.Spells (.token (.literal kind)) lexeme.toList) : Phrase lexeme.toList := by
  have hw := h.isNumberChar
  obtain ⟨c, rest, he, -⟩ := h
  exact .of_not_mem (by simp [he]) (fun hm => nomatch hw _ hm)
    (fun hm => nomatch hw _ hm)

theorem phrase_symbol (op : BinaryOp) : Phrase op.symbol.toList := by
  cases op <;> exact .of_not_mem (by decide) (by decide) (by decide)

/-- Every character of an operator is a mark. -/
theorem isMark_symbol (op : BinaryOp) : ∀ c ∈ op.symbol.toList, isMark c := by
  cases op <;> simp [BinaryOp.symbol, isMark]

theorem Phrase.listText {es : List (Expr ε α)} (h : ∀ e ∈ es, Phrase e.text.toList) :
    ∀ {written separator : String}, Phrase written.toList →
      separator = "" ∨ separator = ", " →
        Phrase (Expr.listText written separator es).toList := by
  induction es with
  | nil => exact fun hw _ => hw
  | cons e es ih =>
    intro written separator hw hs
    rw [Expr.listText]
    refine ih (fun e he => h e (List.mem_cons_of_mem _ he)) ?_ (.inr rfl)
    have he := h e List.mem_cons_self
    rcases hs with rfl | rfl
    · simpa using hw.append he
    · have hcomma : Phrase (written.toList ++ [',']) :=
        hw.append (.of_not_mem (by decide) (by decide) (by decide))
      have := hcomma.space he (.inl fun x hx => by
        rw [List.getLast?_append] at hx
        cases hx
        rfl)
      simpa using this

/-- The text of a printable expression is a phrase. -/
theorem Expr.Printable.phrase {m : Nat} {e : Expr ε α} (h : e.Printable m) :
    Phrase e.text.toList := by
  have bracket : ∀ c : Char, c ≠ ' ' → c ≠ '\n' → Phrase [c] := fun c hs hn =>
    .of_not_mem (by simp) (by simpa using hs.symm) (by simpa using hn.symm)
  induction e generalizing m with
  | hole => exact h.elim
  | literal => exact phrase_literal h
  | name => exact IsName.phrase h
  | paren _ _ ih =>
    rw [Expr.text, String.toList_append, String.toList_append]
    exact ((bracket '(' (by decide) (by decide)).append (ih h)).append
      (bracket ')' (by decide) (by decide))
  | neg _ _ ih =>
    rw [Expr.text, String.toList_append]
    exact (bracket '-' (by decide) (by decide)).append (ih h.2)
  | binary _ op left right ihl ihr =>
    have hop := phrase_symbol op
    have hleft : Phrase (left.text.toList ++ ' ' :: op.symbol.toList) :=
      (ihl h.2.1).space hop (.inr fun y hy => isMark_symbol op y (List.mem_of_mem_head? hy))
    have hmark : ∀ x, (left.text.toList ++ ' ' :: op.symbol.toList).getLast? = some x →
        isMark x := by
      intro x hx
      rw [List.getLast?_append, List.getLast?_cons] at hx
      refine isMark_symbol op x (List.mem_of_getLast? ?_)
      cases hl : op.symbol.toList.getLast? with
      | none => exact absurd (List.getLast?_eq_none_iff.1 hl) hop.ne
      | some y => simpa [hl] using hx
    have := hleft.space (ihr h.2.2) (.inl hmark)
    simpa [Expr.text] using this
  | call _ callee args ihc iha =>
    have hargs : ∀ e ∈ args, Phrase e.text.toList := fun e he =>
      iha e he (Expr.allPrintable_iff.1 h.2.2 e he)
    have hcallee : Phrase (callee.text ++ "(").toList := by
      rw [String.toList_append]
      exact (ihc h.1).append (bracket '(' (by decide) (by decide))
    rw [Expr.text, String.toList_append]
    exact (Phrase.listText hargs hcallee (.inl rfl)).append (bracket ')' (by decide) (by decide))

end Recast
