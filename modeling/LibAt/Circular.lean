import Mathlib.Data.List.Range
import Mathlib.Logic.Function.Basic

/-!
# Circular arrays

A queue kept in an array of `n` slots: the entries stand in the slots `start`,
`start + 1`, … taken modulo `n`, and the first `count` of them are live. The
abstract value is the list of live entries, `window`. Writing the slot behind
the last live one appends (`window_push`), advancing the start drops the head
(`window_pop`), and a write outside the live slots changes nothing
(`window_update_of_ne`).
-/

namespace LibAt

namespace Circular

universe u

variable {α : Type u} {n : Nat}

/-- The slot `i` places behind `start`. -/
def slot (start : Fin n) (i : Nat) : Fin n :=
  ⟨(start.val + i) % n, Nat.mod_lt _ start.pos⟩

/-- Counting from `start` goes on where it was left. -/
@[simp] theorem slot_zero (start : Fin n) : slot start 0 = start :=
  Fin.ext (by simp [slot, Nat.mod_eq_of_lt start.isLt])

@[simp] theorem slot_slot (start : Fin n) (i j : Nat) :
    slot (slot start i) j = slot start (i + j) :=
  Fin.ext (by simp [slot, Nat.add_assoc])

/-- Fewer than `n` places apart, slots are distinct. -/
theorem slot_inj {start : Fin n} {i j : Nat} (hi : i < n) (hj : j < n)
    (h : slot start i = slot start j) : i = j := by
  have hs := start.isLt
  have hv : (start.val + i) % n = (start.val + j) % n := congrArg Fin.val h
  rcases Nat.lt_or_ge (start.val + i) n with h1 | h1 <;>
    rcases Nat.lt_or_ge (start.val + j) n with h2 | h2
  · rw [Nat.mod_eq_of_lt h1, Nat.mod_eq_of_lt h2] at hv
    omega
  · rw [Nat.mod_eq_of_lt h1, Nat.mod_eq_sub_mod h2, Nat.mod_eq_of_lt (by omega)] at hv
    omega
  · rw [Nat.mod_eq_sub_mod h1, Nat.mod_eq_of_lt (by omega), Nat.mod_eq_of_lt h2] at hv
    omega
  · rw [Nat.mod_eq_sub_mod h1, Nat.mod_eq_of_lt (by omega), Nat.mod_eq_sub_mod h2,
      Nat.mod_eq_of_lt (by omega)] at hv
    omega

/-- The live entries, oldest first. -/
def window (a : Fin n → α) (start : Fin n) (count : Nat) : List α :=
  (List.range count).map fun i => a (slot start i)

/-- A window, slot by slot: it has `count` entries, -/
@[simp] theorem window_zero (a : Fin n → α) (start : Fin n) : window a start 0 = [] := rfl

@[simp] theorem length_window (a : Fin n → α) (start : Fin n) (count : Nat) :
    (window a start count).length = count := by
  simp [window]

/-- and grows at the front, -/
theorem window_succ (a : Fin n → α) (start : Fin n) (count : Nat) :
    window a start (count + 1) = a start :: window a (slot start 1) count := by
  simp [window, List.range_succ_eq_map, Function.comp_def, Nat.add_comm]

/-- or at the back. -/
theorem window_concat (a : Fin n → α) (start : Fin n) (count : Nat) :
    window a start (count + 1) = window a start count ++ [a (slot start count)] := by
  simp [window, List.range_succ]

/-- A write to a slot that is not live leaves the queue as it was. -/
theorem window_update_of_ne (a : Fin n → α) (start k : Fin n) (count : Nat) (x : α)
    (h : ∀ i < count, slot start i ≠ k) :
    window (Function.update a k x) start count = window a start count := by
  refine List.map_congr_left fun i hi => ?_
  exact Function.update_of_ne (h i (List.mem_range.mp hi)) _ _

/-- Enqueue: write the slot behind the last live one. -/
theorem window_push (a : Fin n → α) (start : Fin n) (count : Nat) (x : α) (h : count < n) :
    window (Function.update a (slot start count) x) start (count + 1) =
      window a start count ++ [x] := by
  rw [window_concat, Function.update_self, window_update_of_ne]
  intro i hi heq
  have := slot_inj (hi.trans h) h heq
  omega

/-- Dequeue: advance the start. The slot left behind may be overwritten. -/
theorem window_pop (a : Fin n → α) (start : Fin n) (count : Nat) (x : α) (h : count < n) :
    window a start (count + 1) =
      a start :: window (Function.update a start x) (slot start 1) count := by
  rw [window_succ, window_update_of_ne]
  intro i hi heq
  rw [slot_slot] at heq
  have hi0 : 1 + i = 0 := slot_inj (by omega) (by omega) (heq.trans (slot_zero start).symm)
  omega

end Circular

end LibAt
