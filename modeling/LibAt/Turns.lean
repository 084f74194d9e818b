import Mathlib.Data.List.Basic

/-!
# Lines and the texts behind them

One side of a conversation: a line with an end mark, and behind it as many texts as the
other side asks for, each with an end mark of its own. A text may hold the end mark of a
line, so only a reader who knows how many texts it asked for can tell them from the next
line. It gets back what was written (`readTurns_written`).
-/

namespace LibAt

/-- A line, and the texts behind it. -/
structure Turn (α : Type*) where
  line : List α
  texts : List (List α)
  deriving DecidableEq

variable {α : Type*} [DecidableEq α]

/-- What is before an end mark, and what is behind it. -/
def cutAt (e : α) (m : List α) : List α × List α :=
  (m.takeWhile (· != e), (m.dropWhile (· != e)).drop 1)

theorem cutAt_append {e : α} {p : List α} (h : e ∉ p) (m : List α) :
    cutAt e (p ++ e :: m) = (p, m) := by
  have hpass : ∀ a ∈ p, (a != e) = true := fun a ha => bne_iff_ne.mpr fun heq => h (heq ▸ ha)
  rw [cutAt, List.takeWhile_append_of_pos hpass, List.dropWhile_append_of_pos hpass,
    List.takeWhile_cons_of_neg (by simp), List.dropWhile_cons_of_neg (by simp), List.append_nil]
  rfl

section

variable (eol eot : α)

/-- How a turn is written. -/
def Turn.written (t : Turn α) : List α := t.line ++ eol :: t.texts.flatMap (· ++ [eot])

/-- A turn that can be read: no end mark within what it ends. -/
def Turn.Marked (t : Turn α) : Prop := eol ∉ t.line ∧ ∀ x ∈ t.texts, eot ∉ x

/-- Read `n` texts. -/
def readTexts : Nat → List α → List (List α) × List α
  | 0, m => ([], m)
  | n + 1, m => ((cutAt eot m).1 :: (readTexts n (cutAt eot m).2).1, (readTexts n (cutAt eot m).2).2)

/-- Read turns, with so many texts in each. -/
def readTurns : List Nat → List α → List (Turn α)
  | [], _ => []
  | n :: ns, m =>
    let (texts, rest) := readTexts eot n (cutAt eol m).2
    ⟨(cutAt eol m).1, texts⟩ :: readTurns ns rest

end

variable {eol eot : α}

/-- The texts are read back. -/
theorem readTexts_texts {xs : List (List α)} (h : ∀ x ∈ xs, eot ∉ x) (m : List α) :
    readTexts eot xs.length (xs.flatMap (· ++ [eot]) ++ m) = (xs, m) := by
  induction xs with
  | nil => rfl
  | cons x xs ih =>
    obtain ⟨hx, hxs⟩ := List.forall_mem_cons.mp h
    rw [List.flatMap_cons, List.append_assoc, List.append_assoc, List.singleton_append,
      List.length_cons, readTexts, cutAt_append hx, ih hxs]

/-- **The turns are read back.** -/
theorem readTurns_written {ts : List (Turn α)} (h : ∀ t ∈ ts, t.Marked eol eot) :
    readTurns eol eot (ts.map (·.texts.length)) (ts.flatMap (Turn.written eol eot)) = ts := by
  induction ts with
  | nil => rfl
  | cons t ts ih =>
    obtain ⟨⟨hline, htexts⟩, hts⟩ := List.forall_mem_cons.mp h
    rw [List.flatMap_cons, Turn.written, List.append_assoc, List.cons_append, List.map_cons,
      readTurns, cutAt_append hline, readTexts_texts htexts]
    dsimp only
    rw [ih hts]

end LibAt
