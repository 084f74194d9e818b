import Mathlib.Data.List.Basic

/-!
# Streams through buffers and machines

Two general facts about code that takes its input one item at a time.

A `Transducer` reads an item, changes its state, and hands over a list of
results. What it hands over for `a ++ b` is what it hands over for `a`, and
then for `b` from where `a` led it (`output_append`), so how the input is cut
into pieces does not matter.

A bounded buffer may drop what it has no room for, and a bad one may lose what
it held. `Conserves` compares a buffer before and after: never more comes out
than went in, and when as much comes out, counting what is left, then nothing
was dropped, and the items come out in the order they went in. It holds of
each single operation and composes.
-/

namespace LibAt

universe u v w

/-- A machine that reads items and hands over results. -/
structure Transducer (S : Type u) (I : Type v) (O : Type w) where
  /-- the next state, and the results -/
  step : S → I → S × List O

namespace Transducer

variable {S : Type u} {I : Type v} {O : Type w} (T : Transducer S I O)

/-- Where a list of items leads. -/
def after (s : S) : List I → S
  | [] => s
  | a :: as => after (T.step s a).1 as

/-- What is handed over for a list of items. -/
def output (s : S) : List I → List O
  | [] => []
  | a :: as => (T.step s a).2 ++ output (T.step s a).1 as

@[simp] theorem after_nil (s : S) : T.after s [] = s := rfl
@[simp] theorem output_nil (s : S) : T.output s [] = [] := rfl

theorem after_cons (s : S) (a : I) (as : List I) :
    T.after s (a :: as) = T.after (T.step s a).1 as := rfl

theorem output_cons (s : S) (a : I) (as : List I) :
    T.output s (a :: as) = (T.step s a).2 ++ T.output (T.step s a).1 as := rfl

theorem after_append (s : S) (as bs : List I) :
    T.after s (as ++ bs) = T.after (T.after s as) bs := by
  induction as generalizing s with
  | nil => rfl
  | cons a as ih => exact ih _

/-- **Pieces.** The results for a whole are those for its pieces. -/
theorem output_append (s : S) (as bs : List I) :
    T.output s (as ++ bs) = T.output s as ++ T.output (T.after s as) bs := by
  induction as generalizing s with
  | nil => rfl
  | cons a as ih =>
    rw [List.cons_append, output_cons, output_cons, ih, List.append_assoc]
    rfl

/-- **Invariant.** What every step keeps of the state, and says of its results. -/
theorem invariant {P : S → Prop} {Q : O → Prop}
    (hstep : ∀ s a, P s → P (T.step s a).1 ∧ ∀ o ∈ (T.step s a).2, Q o) (as : List I) :
    ∀ {s : S}, P s → P (T.after s as) ∧ ∀ o ∈ T.output s as, Q o := by
  induction as with
  | nil => exact fun h => ⟨h, List.forall_mem_nil _⟩
  | cons a as ih =>
    intro s h
    obtain ⟨hnext, hout⟩ := hstep s a h
    obtain ⟨hafter, hrest⟩ := ih hnext
    exact ⟨hafter, List.forall_mem_append.mpr ⟨hout, hrest⟩⟩

end Transducer

/-! ## Buffers -/

/-- A buffer held `old`, was offered `put`, gave away `got`, and holds `new`. -/
structure Conserves {α : Type u} (old put got new : List α) : Prop where
  /-- no more comes out than went in -/
  le : got.length + new.length ≤ old.length + put.length
  /-- if as much comes out, it is what went in -/
  eq : got.length + new.length = old.length + put.length → got ++ new = old ++ put

namespace Conserves

variable {α : Type u} {old put got new : List α}

/-- Nothing happens. -/
theorem refl (old : List α) : Conserves old [] [] old := ⟨Nat.le_of_eq (Nat.add_comm _ _), by simp⟩

/-- An item is taken. -/
theorem take (a : α) (old : List α) : Conserves (a :: old) [] [a] old :=
  ⟨by simp [Nat.add_comm], fun _ => by simp⟩

/-- An item is stored behind the others. -/
theorem store (a : α) (old : List α) : Conserves old [a] [] (old ++ [a]) :=
  ⟨by simp, fun _ => by simp⟩

/-- An item is dropped, perhaps with others. -/
theorem drop (a : α) (h : new.length ≤ old.length) : Conserves old [a] [] new := by
  refine ⟨?_, fun heq => ?_⟩
  · simp only [List.length_nil, List.length_singleton]
    omega
  · simp only [List.length_nil, List.length_singleton] at heq
    omega

/-- **Composition.** -/
theorem trans {put' got' last : List α} (h : Conserves old put got new)
    (h' : Conserves new put' got' last) : Conserves old (put ++ put') (got ++ got') last := by
  have hle := h.le
  have hle' := h'.le
  constructor
  · rw [List.length_append, List.length_append]
    omega
  · intro heq
    rw [List.length_append, List.length_append] at heq
    have hfirst : got ++ new = old ++ put := h.eq (by omega)
    have hrest : got' ++ last = new ++ put' := h'.eq (by omega)
    calc got ++ got' ++ last = got ++ (new ++ put') := by rw [List.append_assoc, hrest]
      _ = old ++ (put ++ put') := by rw [← List.append_assoc, hfirst, List.append_assoc]

end Conserves

end LibAt
