import Mathlib.Data.List.Induction
import Mathlib.Data.Option.Basic

/-!
# First-in first-out services

A service accepts requests, tells the owner of the oldest one how it ended, if
the owner asked to be told, and then retires it. `FifoService.run` replays a
history of such operations and is defined only when the history obeys the
discipline: only the oldest request is notified, at most once, and retired
after its notification.

From a replay that succeeds the usual accounting follows: what was accepted is
what was retired followed by what is pending (`accepted_eq`), and the
notifications are those of the retired requests, in order, plus at most one
for the oldest pending request (`notified_eq`).
-/

namespace LibAt

namespace FifoService

universe u v

/-- An operation of the service on requests `α` with notifications `ν`. -/
inductive Op (α : Type u) (ν : Type v) where
  | accept (a : α)
  | notify (n : ν)
  | retire (a : α)

/-- The pending requests, oldest first, and whether the oldest has been
notified. -/
structure State (α : Type u) where
  pending : List α
  notified : Bool

variable {α : Type u} {ν : Type v} [DecidableEq α] [DecidableEq ν] (note : α → Option ν)

/-- One operation. `note a` is the notification request `a` asked for. -/
def step (s : State α) : Op α ν → Option (State α)
  | .accept a => some ⟨s.pending ++ [a], s.notified⟩
  | .notify n =>
    match s.pending with
    | [] => none
    | a :: rest =>
      if note a = some n ∧ s.notified = false then some ⟨a :: rest, true⟩ else none
  | .retire a =>
    match s.pending with
    | [] => none
    | b :: rest => if b = a ∧ s.notified = (note a).isSome then some ⟨rest, false⟩ else none

/-- Replay a history. -/
def run (ops : List (Op α ν)) : Option (State α) := ops.foldlM (step note) ⟨[], false⟩

/-- The accepted requests of a history. -/
def accepted (ops : List (Op α ν)) : List α :=
  ops.filterMap fun | .accept a => some a | _ => none

/-- The retired requests of a history. -/
def retired (ops : List (Op α ν)) : List α :=
  ops.filterMap fun | .retire a => some a | _ => none

/-- The notifications of a history. -/
def notified (ops : List (Op α ν)) : List ν :=
  ops.filterMap fun | .notify n => some n | _ => none

variable {note} {ops : List (Op α ν)} {s s' : State α}

@[simp] theorem run_nil : run note ([] : List (Op α ν)) = some ⟨[], false⟩ := rfl

theorem run_append (ops more : List (Op α ν)) :
    run note (ops ++ more) = (run note ops).bind fun s => more.foldlM (step note) s :=
  List.foldlM_append

theorem run_concat (ops : List (Op α ν)) (op : Op α ν) :
    run note (ops ++ [op]) = (run note ops).bind fun s => step note s op := by
  rw [run_append]
  simp [List.foldlM_cons]

/-- A legal history stays legal when cut short. -/
theorem run_of_append {more : List (Op α ν)} (h : run note (ops ++ more) = some s) :
    ∃ s₀, run note ops = some s₀ := by
  rw [run_append] at h
  obtain ⟨s₀, h₀, -⟩ := Option.bind_eq_some_iff.mp h
  exact ⟨s₀, h₀⟩

/-! ## One operation -/

theorem step_notify_iff {n : ν} : step note s (.notify n) = some s' ↔
    ∃ a rest, s.pending = a :: rest ∧ note a = some n ∧ s.notified = false ∧
      s' = ⟨s.pending, true⟩ := by
  rw [step]
  rcases s with ⟨_ | ⟨a, rest⟩, b⟩
  · simp
  · constructor
    · intro h
      dsimp only at h
      split at h
      · rename_i hc
        exact ⟨a, rest, rfl, hc.1, hc.2, (Option.some.inj h).symm⟩
      · cases h
    · rintro ⟨a', rest', heq, hn, hb, rfl⟩
      obtain ⟨rfl, rfl⟩ := List.cons.inj heq
      exact if_pos ⟨hn, hb⟩

theorem step_retire_iff {a : α} : step note s (.retire a : Op α ν) = some s' ↔
    ∃ rest, s.pending = a :: rest ∧ s.notified = (note a).isSome ∧ s' = ⟨rest, false⟩ := by
  rw [step]
  rcases s with ⟨_ | ⟨b, rest⟩, c⟩
  · simp
  · constructor
    · intro h
      dsimp only at h
      split at h
      · rename_i hc
        obtain ⟨rfl, hb⟩ := hc
        exact ⟨rest, rfl, hb, (Option.some.inj h).symm⟩
      · cases h
    · rintro ⟨rest', heq, hb, rfl⟩
      obtain ⟨rfl, rfl⟩ := List.cons.inj heq
      exact if_pos ⟨rfl, hb⟩

/-! ## Accounting -/

/-- The notification that has been given to a request not yet retired. -/
def inFlight (note : α → Option ν) (s : State α) : List ν :=
  if s.notified then (s.pending.head?.bind note).toList else []

/-- What was accepted was retired or is pending, in this order. -/
theorem accepted_eq (h : run note ops = some s) : accepted ops = retired ops ++ s.pending := by
  induction ops using List.reverseRecOn generalizing s with
  | nil =>
    obtain rfl := Option.some.inj h
    rfl
  | append_singleton ops op ih =>
    rw [run_concat] at h
    obtain ⟨s₀, h₀, h⟩ := Option.bind_eq_some_iff.mp h
    have ih := ih h₀
    simp only [accepted, retired, List.filterMap_append] at ih ⊢
    cases op with
    | accept a =>
      obtain rfl := Option.some.inj h
      simp [ih]
    | notify n =>
      obtain ⟨a, rest, -, -, -, rfl⟩ := step_notify_iff.mp h
      simp [ih]
    | retire a =>
      obtain ⟨rest, hp, -, rfl⟩ := step_retire_iff.mp h
      simp [ih, hp]

/-- With nothing pending nobody has been notified ahead of time. -/
theorem not_notified_of_empty (h : run note ops = some s)
    (hp : s.pending = []) : s.notified = false := by
  induction ops using List.reverseRecOn generalizing s with
  | nil =>
    obtain rfl := Option.some.inj h
    rfl
  | append_singleton ops op ih =>
    rw [run_concat] at h
    obtain ⟨s₀, h₀, h⟩ := Option.bind_eq_some_iff.mp h
    cases op with
    | accept a =>
      obtain rfl := Option.some.inj h
      simp at hp
    | notify n =>
      obtain ⟨a, rest, hp', -, -, rfl⟩ := step_notify_iff.mp h
      simp [hp'] at hp
    | retire a =>
      obtain ⟨rest, -, -, rfl⟩ := step_retire_iff.mp h
      rfl

/-- The notifications are those of the retired requests, each once and in
order, and possibly that of the oldest pending one. -/
theorem notified_eq (h : run note ops = some s) :
    notified ops = (retired ops).filterMap note ++ inFlight note s := by
  induction ops using List.reverseRecOn generalizing s with
  | nil =>
    obtain rfl := Option.some.inj h
    rfl
  | append_singleton ops op ih =>
    rw [run_concat] at h
    obtain ⟨s₀, h₀, h⟩ := Option.bind_eq_some_iff.mp h
    have ih := ih h₀
    simp only [notified, retired, List.filterMap_append] at ih ⊢
    cases op with
    | accept a =>
      obtain rfl := Option.some.inj h
      -- a notified request is pending, so it still is the oldest one
      have hfl : inFlight note ⟨s₀.pending ++ [a], s₀.notified⟩ = inFlight note s₀ ∨
          s₀.pending = [] ∧ s₀.notified = true := by
        cases hp : s₀.pending with
        | nil => cases hn : s₀.notified <;> simp [inFlight, hp, hn]
        | cons b rest => exact .inl (by simp [inFlight, hp])
      rcases hfl with hfl | ⟨hp, hn⟩
      · simp [ih, hfl]
      · exact absurd hn (by simp [not_notified_of_empty h₀ hp])
    | notify n =>
      obtain ⟨a, rest, hp, hn, hb, rfl⟩ := step_notify_iff.mp h
      simp [ih, inFlight, hp, hn, hb]
    | retire a =>
      obtain ⟨rest, hp, hb, rfl⟩ := step_retire_iff.mp h
      cases hn : note a <;> simp [ih, inFlight, hp, hb, hn]

/-- A notification goes to the oldest request not yet retired, and every
earlier request has had its own. -/
theorem notify_spec {n : ν} {more : List (Op α ν)}
    (h : run note (ops ++ .notify n :: more) = some s) :
    ∃ a, (accepted ops)[(retired ops).length]? = some a ∧ note a = some n ∧
      notified ops = (retired ops).filterMap note := by
  rw [List.append_cons] at h
  obtain ⟨s₁, h₁⟩ := run_of_append h
  rw [run_concat] at h₁
  obtain ⟨s₀, h₀, h₁⟩ := Option.bind_eq_some_iff.mp h₁
  obtain ⟨a, rest, hp, hn, hb, -⟩ := step_notify_iff.mp h₁
  refine ⟨a, ?_, hn, ?_⟩
  · rw [accepted_eq h₀, List.getElem?_append_right (Nat.le_refl _), hp, Nat.sub_self]
    rfl
  · rw [notified_eq h₀, inFlight, hb]
    simp

end FifoService

end LibAt
