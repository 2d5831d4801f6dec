import Recast.Proofs.Guard.Script

/-!
# One parser in the steps of another

`Mirrors` relates a step of the parser into a store to the step of the parser on token lists: the
guards hold, the cursor ends up before the tokens that are left, and the store is the one that the
tree would be put into. An error of the one is the error of the other.
-/

namespace Recast

variable {α β γ δ : Type}

/-- The cursor before the last tokens of a text. -/
def Lexed.cursor (lexed : Lexed) (ts : List Token) (s : Store) : Cursor :=
  ⟨lexed.tokens.length - ts.length, s⟩

/-- The mark before which the cursor stands. -/
def Lexed.next (lexed : Lexed) : List Token → Mark
  | t :: _ => t.mark
  | [] => lexed.endMark

/-- A step before the last tokens `ts` of a text, with a store, comes to a value, the tokens that
are left and a store, or to an error. -/
def Mirrors (lexed : Lexed) (ts : List Token) (s : Store) (step : Reading α)
    (result : Except ParseError (α × List Token × Store)) : Prop :=
  ts <:+ lexed.tokens →
    Yields (step (lexed.cursor ts s)).run (result.map fun (a, ts, s) => (a, lexed.cursor ts s)) ∧
      ∀ a ts' s', result = .ok (a, ts', s') → ts' <:+ lexed.tokens

/-- What a step of the parser on token lists comes to when its value is put into a store. -/
def Lexed.outcome (lexed : Lexed) (put : Store → α → β × Store) (s : Store) :
    Parser.Step (α × List Token) → Except ParseError (β × List Token × Store)
  | .ok (a, ts) => .ok ((put s a).1, ts, (put s a).2)
  | .error failure => .error (failure.toError lexed.stop)

namespace Mirrors

variable {lexed : Lexed} {ts ts' : List Token} {s s' : Store} {step : Reading α} {a : α}
  {f : α → Reading β} {result : Except ParseError (β × List Token × Store)} {e : ParseError}

/-- The tokens that are left are always the last ones of the text. -/
theorem of_suffix {step : Reading β} (h : ts <:+ lexed.tokens → Mirrors lexed ts s step result) :
    Mirrors lexed ts s step result := fun hts => h hts hts

theorem pure (a : α) : Mirrors lexed ts s (Pure.pure a) (.ok (a, ts, s)) := fun h =>
  ⟨.pure _, fun _ _ _ he => by cases he; exact h⟩

theorem fail (e : ParseError) : Mirrors lexed ts s (Reading.fail e : Reading α) (.error e) :=
  fun _ => ⟨.pure _, nofun⟩

theorem bind (h : Mirrors lexed ts s step (.ok (a, ts', s')))
    (h' : Mirrors lexed ts' s' (f a) result) : Mirrors lexed ts s (step >>= f) result := by
  intro hts
  obtain ⟨hyields, hrest⟩ := h hts
  obtain ⟨hyields', hrest'⟩ := h' (hrest a ts' s' rfl)
  exact ⟨hyields.bind hyields', hrest'⟩

theorem bind_error (h : Mirrors lexed ts s step (.error e)) :
    Mirrors lexed ts s (step >>= f) (.error e) := fun hts =>
  ⟨(h hts).1.bind (.pure _), nofun⟩

/-- Two steps in a row do what the two do when the first is put into the store in between. -/
theorem seq {put : Store → γ → α × Store} {put' : Store → δ → β × Store} {s₀ s₁ : Store}
    {first : Parser.Step (γ × List Token)}
    {second : γ × List Token → Parser.Step (δ × List Token)}
    (h : Mirrors lexed ts s step (lexed.outcome put s₀ first))
    (h' : ∀ c ts', first = .ok (c, ts') →
      Mirrors lexed ts' (put s₀ c).2 (f (put s₀ c).1) (lexed.outcome put' s₁ (second (c, ts')))) :
    Mirrors lexed ts s (step >>= f) (lexed.outcome put' s₁ (first >>= second)) := by
  cases first with
  | error failure => exact h.bind_error
  | ok r => exact h.bind (h' r.1 r.2 rfl)

/-- A step that does what putting a value into the store does. -/
theorem of_put {put : Store → γ → α × Store} {s₀ : Store} {c : γ} {r : α × Store}
    (hput : put s₀ c = r) (h : Mirrors lexed ts s step (.ok (r.1, ts', r.2))) :
    Mirrors lexed ts s step (lexed.outcome put s₀ (.ok (c, ts'))) := by
  rw [Lexed.outcome, hput]
  exact h

theorem map (h : Mirrors lexed ts s step (.ok (a, ts', s'))) (g : α → β) :
    Mirrors lexed ts s (g <$> step) (.ok (g a, ts', s')) := by
  rw [map_eq_pure_bind]
  exact h.bind (pure _)

theorem get_bind {f : Cursor → Reading β} (h : Mirrors lexed ts s (f (lexed.cursor ts s)) result) :
    Mirrors lexed ts s (get >>= f) result := fun hts =>
  ⟨(Yields.pure _).bind (h hts).1, (h hts).2⟩

theorem guarded {x : Guarded α} (h : Yields x a) :
    Mirrors lexed ts s (Reading.guarded x) (.ok (a, ts, s)) := fun hts =>
  ⟨(h.map Except.ok).bind (.pure _), fun _ _ _ he => by cases he; exact hts⟩

theorem build {f : Store → Guarded (α × Store)} {b : α × Store} (h : Yields (f s) b) :
    Mirrors lexed ts s (Reading.build f) (.ok (b.1, ts, b.2)) := fun hts =>
  ⟨(h.map Except.ok).bind (.pure _), fun _ _ _ he => by cases he; exact hts⟩

theorem spanOf {id : ExprId} {node : Node (ExprShape Name Slice)}
    (h : s.exprs[id]? = some node) :
    Mirrors lexed ts s (Reading.spanOf id) (.ok (node.span, ts, s)) :=
  get_bind ((guarded (.entry h)).bind (pure _))

theorem checkLength {items : List β} (h : items.length ≤ maxItems) (pos : Nat) :
    Mirrors lexed ts s (Reading.checkLength items pos) (.ok ((), ts, s)) := by
  rw [Reading.checkLength, if_pos h]
  exact pure ()

theorem checkLength_error {items : List β} (h : ¬ items.length ≤ maxItems) (pos : Nat) :
    Mirrors lexed ts s (Reading.checkLength items pos) (.error (.tooManyItems pos)) := by
  rw [Reading.checkLength, if_neg h]
  exact fail _

/-- A list with as many items is refused in the same case. -/
theorem seq_checkLength {f : Unit → Reading β} {put : Store → γ → β × Store} {s₀ : Store}
    {items : List α} {items' : List δ} {next : Unit → Parser.Step (γ × List Token)}
    (hlength : items.length = items'.length) (pos : Nat)
    (h : items.length ≤ maxItems → Mirrors lexed ts s (f ()) (lexed.outcome put s₀ (next ()))) :
    Mirrors lexed ts s (Reading.checkLength items pos >>= f)
      (lexed.outcome put s₀ (Parser.checkLength items' pos >>= next)) := by
  rw [Parser.checkLength, ← hlength]
  by_cases hshort : items.length ≤ maxItems
  · rw [if_pos hshort]
    exact (checkLength hshort pos).bind (h hshort)
  · rw [if_neg hshort]
    exact (checkLength_error hshort pos).bind_error

end Mirrors

namespace Mirrors

variable {lexed : Lexed} {source : String} {t : Token} {ts ts' : List Token} {s s' : Store}
  {kind : TokenKind}

/-! ### The cursor -/

theorem current : Mirrors lexed ts s (lexed.script source).current (.ok (lexed.next ts, ts, s)) := by
  intro hts
  refine get_bind (guarded ?_) hts
  obtain ⟨before, hbefore⟩ := hts
  have hlength := congrArg List.length hbefore
  rw [List.length_append] at hlength
  have hpos : min (lexed.cursor ts s).pos ((lexed.script source).marks.size - 1)
      = before.length := by
    simp only [Lexed.cursor, Lexed.script, List.size_toArray, List.length_append, List.length_map,
      List.length_singleton]
    omega
  refine .entry ?_
  rw [hpos]
  simp only [Lexed.script, ← hbefore, List.getElem?_toArray, List.map_append, List.append_assoc]
  rw [List.getElem?_append_right (by simp)]
  cases ts <;> simp [Lexed.next]

theorem advance : Mirrors lexed (t :: ts) s (lexed.script source).advance
    (.ok (t.mark, ts, s)) := by
  refine current.bind ?_
  intro hts
  have hlength := hts.length_le
  rw [List.length_cons] at hlength
  have hcursor : (⟨(lexed.cursor (t :: ts) s).pos + 1, s⟩ : Cursor) = lexed.cursor ts s := by
    simp only [Lexed.cursor, List.length_cons, Cursor.mk.injEq, and_true]
    omega
  refine ⟨?_, fun _ _ _ he => ?_⟩
  · show Yields (Pure.pure (Except.ok (t.mark, (⟨(lexed.cursor (t :: ts) s).pos + 1, s⟩ : Cursor))))
      _
    rw [hcursor]
    exact .pure _
  · cases he
    exact (List.suffix_cons t ts).trans hts

theorem next_kind? (ts : List Token) : (lexed.next ts).kind? = Parser.next? ts := by
  cases ts <;> rfl

theorem eat?_some (h : t.kind = kind) :
    Mirrors lexed (t :: ts) s ((lexed.script source).eat? kind) (.ok (some t.mark, ts, s)) := by
  refine current.bind ?_
  rw [next_kind?, if_pos (by rw [Parser.next?, ← h]; rfl)]
  exact advance.map some

theorem eat?_none (h : Parser.next? ts ≠ some kind) :
    Mirrors lexed ts s ((lexed.script source).eat? kind) (.ok (none, ts, s)) := by
  refine current.bind ?_
  rw [next_kind?, if_neg h]
  exact pure none

theorem unexpected (what : Expectation) :
    Mirrors lexed ts s ((lexed.script source).unexpected what : Reading α)
      (.error ((Parser.Failure.expected what ts).toError lexed.stop)) := by
  refine current.bind ?_
  cases ts with
  | nil => exact fail _
  | cons => exact fail _

theorem expect (kind : TokenKind) (ts : List Token) (s : Store) :
    Mirrors lexed ts s ((lexed.script source).expect kind)
      (lexed.outcome (fun s t => (t.mark, s)) s (Parser.token kind ts)) := by
  cases ts with
  | nil =>
    have hnext : Parser.next? [] ≠ some kind := by simp [Parser.next?]
    exact (eat?_none hnext).bind (unexpected _)
  | cons t ts =>
    rw [Parser.token]
    split
    · rename_i hkind
      exact (eat?_some hkind).bind (pure _)
    · rename_i hkind
      have hnext : Parser.next? (t :: ts) ≠ some kind := fun h => hkind (Option.some.inj h)
      exact (eat?_none hnext).bind (unexpected _)

/-- Passing over marks takes as many steps as there are of them, and one more. -/
theorem skipFor (p : TokenKind → Bool) (s : Store) {n : Nat} :
    ∀ ts : List Token, ts.length < n →
      Mirrors lexed ts s ((lexed.script source).skipFor p n)
        (.ok ((), ts.dropWhile (p ·.kind), s)) := by
  induction n with
  | zero => exact fun _ h => absurd h (Nat.not_lt_zero _)
  | succ n ih =>
    intro ts hlt
    refine current.bind ?_
    rw [next_kind?]
    cases ts with
    | nil => exact pure ()
    | cons t ts =>
      rw [List.dropWhile_cons]
      cases hp : p t.kind with
      | false =>
        rw [if_neg (by simp [Parser.next?, hp])]
        exact pure ()
      | true =>
        rw [if_pos (by simp [Parser.next?, hp])]
        exact advance.bind (ih ts (Nat.lt_of_succ_lt_succ hlt))

theorem skip (p : TokenKind → Bool) (ts : List Token) (s : Store) :
    Mirrors lexed ts s ((lexed.script source).skip p)
      (.ok ((), ts.dropWhile (p ·.kind), s)) := by
  intro hts
  refine skipFor p s ts ?_ hts
  have := hts.length_le
  simp only [Lexed.script, List.size_toArray, List.length_append, List.length_map,
    List.length_singleton]
  omega

theorem skipNewlines (ts : List Token) (s : Store) :
    Mirrors lexed ts s (lexed.script source).skipNewlines
      (.ok ((), Parser.skipNewlines ts, s)) := skip _ ts s

theorem skipTerminators (ts : List Token) (s : Store) :
    Mirrors lexed ts s (lexed.script source).skipTerminators
      (.ok ((), Parser.skipTerminators ts, s)) := skip _ ts s

theorem atTerminator : Mirrors lexed ts s (lexed.script source).atTerminator
    (.ok (Parser.atTerminator ts, ts, s)) := by
  rw [Parser.atTerminator, ← next_kind?]
  exact current.map Mark.isTerminator

/-! ### Texts -/

/-- The text of a mark is that of the token. -/
theorem text (texts : ∀ t ∈ lexed.tokens, t.span.Selects source t.text) (ht : t ∈ lexed.tokens) :
    Mirrors lexed ts s ((lexed.script source).text t.mark) (.ok (t.text, ts, s)) :=
  guarded (texts t ht).sourceText

theorem name (texts : ∀ t ∈ lexed.tokens, t.span.Selects source t.text) (ht : t ∈ lexed.tokens) :
    Mirrors lexed ts s ((lexed.script source).name t.mark)
      (.ok ((s.intern t.text).1, ts, (s.intern t.text).2)) :=
  (text texts ht).bind (build (.intern s t.text))

end Mirrors

end Recast
