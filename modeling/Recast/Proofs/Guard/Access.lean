import Mathlib.Data.String.Basic
import Recast.ParseError
import Recast.Proofs.Lexing.Slice
import Recast.Proofs.Store.Extends

/-!
# Guarded access

Code that trusts its ids, slices and offsets meets a guard wherever it uses one: an index out of
range, a list too long for its slice or a stretch of text that cuts a character in two stops it with
a `Crash`. Ids are of limited size, so an arena has a capacity, and adding to a full one is a crash
as well.

`Yields` says that a computation with guards comes to the value that the plain one has. No guard but
those of the capacity stops it, and with room enough none does.
-/

namespace Recast

variable {α β γ : Type}

/-- Why code that trusts its data stops. -/
inductive Crash where
  /-- A stretch of the source text ends outside of it or within a character. -/
  | brokenText
  /-- The writing of a pattern cannot be read. -/
  | brokenPattern
  /-- An index is out of range. -/
  | outOfRange
  /-- A list has more items than a slice can have. -/
  | longList (length : Nat)
  /-- An arena has more entries than there are ids. -/
  | fullArena
  /-- A recursion goes deeper than the data. -/
  | endless
deriving DecidableEq, Repr

/-- Computations that a guard may stop. They know the largest id of an arena, its capacity. -/
abbrev Guarded := ReaderT Nat (Except Crash)

/-- Stops. -/
def crash (reason : Crash) : Guarded α := fun _ => .error reason

/-- The computation comes to the value, unless an arena gets full; it does with room enough. -/
structure Yields (x : Guarded α) (a : α) : Prop where
  safe : ∀ capacity, x capacity = .ok a ∨ x capacity = .error .fullArena
  roomy : ∃ room, ∀ capacity, room ≤ capacity → x capacity = .ok a

namespace Yields

variable {x : Guarded α} {f : α → Guarded β} {a : α} {b : β}

theorem pure (a : α) : Yields (Pure.pure a) a where
  safe _ := .inl rfl
  roomy := ⟨0, fun _ _ => rfl⟩

theorem bind (h : Yields x a) (h' : Yields (f a) b) : Yields (x >>= f) b where
  safe capacity := by
    show (x capacity >>= fun a => f a capacity) = _ ∨ (x capacity >>= fun a => f a capacity) = _
    rcases h.safe capacity with hx | hx
    · rw [hx]
      exact h'.safe capacity
    · rw [hx]
      exact .inr rfl
  roomy := by
    obtain ⟨room, hroom⟩ := h.roomy
    obtain ⟨room', hroom'⟩ := h'.roomy
    refine ⟨max room room', fun capacity hle => ?_⟩
    show (x capacity >>= fun a => f a capacity) = _
    rw [hroom capacity (by omega)]
    exact hroom' capacity (by omega)

theorem map (h : Yields x a) (g : α → β) : Yields (g <$> x) (g a) := by
  rw [map_eq_pure_bind]
  exact h.bind (pure _)

theorem mapM {f : α → Guarded β} {g : α → β} {xs : List α}
    (h : ∀ x ∈ xs, Yields (f x) (g x)) : Yields (xs.mapM f) (xs.map g) := by
  induction xs with
  | nil => exact pure []
  | cons x xs ih =>
    rw [List.mapM_cons, List.map_cons]
    have hrest := ih fun y hy => h y (List.mem_cons_of_mem _ hy)
    exact (h x List.mem_cons_self).bind (hrest.bind (pure _))

end Yields

/-! ### Arrays and pools -/

/-- The entry of an array. -/
def entry (xs : Array β) (i : Nat) : Guarded β :=
  match xs[i]? with
  | some x => return x
  | none => crash .outOfRange

/-- The list at a slice of a pool. -/
def Pool.read (p : Pool β) (slice : Slice β) : Guarded (List β) :=
  if slice.start + slice.length ≤ p.items.size then return p.list slice else crash .outOfRange

/-- Makes sure that there is an id for the next entry of an arena of a size. -/
def requireRoom (size : Nat) : Guarded Unit :=
  fun capacity => if size ≤ capacity then .ok () else .error .fullArena

/-- Makes sure that a list fits in a slice. -/
def requireSlice (xs : List β) : Guarded Unit :=
  if xs.length ≤ maxItems then return else crash (.longList xs.length)

theorem Yields.entry {xs : Array β} {i : Nat} {x : β} (h : xs[i]? = some x) :
    Yields (entry xs i) x := by
  rw [Recast.entry, h]
  exact .pure x

theorem Pool.Keeps.read {p : Pool β} {slice : Slice β} {xs : List β} (h : p.Keeps slice xs) :
    Yields (p.read slice) xs := by
  rw [Pool.read, if_pos h.bound, h.list]
  exact .pure xs

theorem Yields.requireRoom (size : Nat) : Yields (requireRoom size) () where
  safe capacity := by
    rw [Recast.requireRoom]
    split
    · exact .inl rfl
    · exact .inr rfl
  roomy := ⟨size, fun _ h => if_pos h⟩

theorem Yields.requireSlice {xs : List β} (h : xs.length ≤ maxItems) :
    Yields (requireSlice xs) () := by
  rw [Recast.requireSlice, if_pos h]
  exact .pure ()

/-! ### Texts -/

/-- The stretch of a source text at a span, whose ends lie between characters. -/
def sourceText (source : String) (span : Span) : Guarded String :=
  let start : String.Pos.Raw := ⟨span.start⟩
  let stop : String.Pos.Raw := ⟨span.stop⟩
  if start.isValid source && stop.isValid source && span.start ≤ span.stop then
    return start.extract source stop
  else crash .brokenText

/-- What a span selects of a source text can be read. -/
theorem Span.Selects.sourceText {span : Span} {source text : String}
    (h : span.Selects source text) : Yields (sourceText source span) text := by
  obtain ⟨before, after, rfl, hstart, hstop⟩ := h
  have hvalid : String.Pos.Raw.IsValid (before ++ text ++ after) ⟨span.start⟩ :=
    String.Pos.Raw.isValid_iff_exists_append.2
      ⟨before, text ++ after, String.append_assoc, by rw [← hstart]; rfl⟩
  have hvalid' : String.Pos.Raw.IsValid (before ++ text ++ after) ⟨span.stop⟩ :=
    String.Pos.Raw.isValid_iff_exists_append.2
      ⟨before ++ text, after, rfl, by rw [hstop, ← hstart]; simp [String.rawEndPos]⟩
  have hextract : String.Pos.Raw.extract (before ++ text ++ after) ⟨span.start⟩ ⟨span.stop⟩
      = text := by
    have := String.extract_of_valid before.toList text.toList after.toList
    simpa [hstop, hstart, String.append_assoc] using this
  rw [Recast.sourceText, if_pos, hextract]
  · exact .pure text
  · rw [String.Pos.Raw.isValid_eq_true_iff.2 hvalid, String.Pos.Raw.isValid_eq_true_iff.2 hvalid']
    simp [hstop]

end Recast
