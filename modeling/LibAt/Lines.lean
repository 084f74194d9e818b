import LibAt.Chunking

/-!
# Lines on the way through the FSM

A modem sends lines, each ended by CR LF. `Remaining` says where in such a
stream the line FSM stands: between two lines, inside one, or behind its CR. One
byte takes it one place further (`Remaining.byte`), and only the LF behind a
line dispatches it, as it was sent. The tests a dispatched line is put to are
prefix tests when it holds no NUL, and the URC table is searched from its lowest
slot.
-/

namespace LibAt

variable {cfg : Config} {σ : Type}

/-! ## Streams of lines -/

/-- The bytes of some lines, each ended by CR LF. -/
def stream (lines : List (List UInt8)) : List UInt8 := lines.flatMap (· ++ [13, 10])

/-- A line that the engine takes as it is: not empty, without CR, LF and NUL, and
no longer than the line buffer. -/
structure LineText (cfg : Config) (l : List UInt8) : Prop where
  ne_nil : l ≠ []
  cr : (13 : UInt8) ∉ l
  lf : (10 : UInt8) ∉ l
  nul : (0 : UInt8) ∉ l
  le : l.length ≤ cfg.lineMax - 1

theorem stream_cons (l : List UInt8) (ls : List (List UInt8)) :
    stream (l :: ls) = l ++ 13 :: 10 :: stream ls := by
  rw [stream, List.flatMap_cons, List.append_assoc]
  rfl

theorem stream_eq_nil {ls : List (List UInt8)} (h : stream ls = []) : ls = [] := by
  cases ls with
  | nil => rfl
  | cons l ls =>
    rw [stream_cons] at h
    cases l <;> cases h

/-- Where the FSM stands in a stream: the lines not yet dispatched, and the bytes
that are still to come. -/
inductive Remaining (g : Engine cfg) : List (List UInt8) → List UInt8 → Prop
  | between (ls) : g.lfsm = .start → Remaining g ls (stream ls)
  | inside (q ls) : g.lfsm = .data → Remaining g ((g.line ++ q) :: ls) (q ++ 13 :: 10 :: stream ls)
  | ended (ls) : g.lfsm = .cr → Remaining g (g.line :: ls) (10 :: stream ls)

theorem Remaining.congr {g g' : Engine cfg} {ls : List (List UInt8)} {bs : List UInt8}
    (h : Remaining g ls bs) (hline : g'.line = g.line) (hlfsm : g'.lfsm = g.lfsm) :
    Remaining g' ls bs := by
  cases h with
  | between ls hs => exact .between ls (hlfsm.trans hs)
  | inside q ls hs =>
    rw [← hline]
    exact .inside q ls (hlfsm.trans hs)
  | ended ls hs =>
    rw [← hline]
    exact .ended ls (hlfsm.trans hs)

/-- **One byte** moves the FSM further into a line, or it is the LF that
dispatches the line. -/
theorem Remaining.byte {g : Engine cfg} {ls : List (List UInt8)} {b : UInt8} {bs : List UInt8}
    (h : Remaining g ls (b :: bs)) (hls : ∀ l ∈ ls, LineText cfg l) :
    (∃ line lfsm, lfsmByte b g = .more { g with line := line, lfsm := lfsm } ∧
      Remaining { g with line := line, lfsm := lfsm } ls bs) ∨
    ∃ l ls', ls = l :: ls' ∧ lfsmByte b g = .line l ∧ bs = stream ls' := by
  generalize hrem : b :: bs = rem at h
  cases h with
  | between ls hs =>
    left
    cases ls with
    | nil => cases hrem
    | cons l ls =>
      have hl := hls l List.mem_cons_self
      rw [stream_cons] at hrem
      cases l with
      | nil => exact absurd rfl hl.ne_nil
      | cons c q =>
        obtain ⟨rfl, rfl⟩ := List.cons.inj hrem
        have hcr : b ≠ 13 := fun h => hl.cr (h ▸ List.mem_cons_self)
        have hlf : b ≠ 10 := fun h => hl.lf (h ▸ List.mem_cons_self)
        refine ⟨[b], .data, ?_, .inside (g := { g with line := [b], lfsm := .data }) q ls rfl⟩
        simp only [lfsmByte, hs]
        exact if_neg (not_or.mpr ⟨hcr, hlf⟩)
  | inside q ls hs =>
    left
    cases q with
    | nil =>
      obtain ⟨rfl, rfl⟩ := List.cons.inj hrem
      refine ⟨g.line, .cr, ?_, ?_⟩
      · simp [lfsmByte, hs]
      · rw [List.append_nil]
        exact .ended (g := { g with line := g.line, lfsm := .cr }) ls rfl
    | cons c q =>
      obtain ⟨rfl, rfl⟩ := List.cons.inj hrem
      have hl := hls _ List.mem_cons_self
      have hcr : b ≠ 13 := fun h => hl.cr (h ▸ List.mem_append_right _ List.mem_cons_self)
      have hlf : b ≠ 10 := fun h => hl.lf (h ▸ List.mem_append_right _ List.mem_cons_self)
      have hlen : g.line.length < cfg.lineMax - 1 := by
        have hle := hl.le
        rw [List.length_append, List.length_cons] at hle
        omega
      refine ⟨g.line ++ [b], .data, ?_, ?_⟩
      · simp [lfsmByte, hs, hcr, hlf, pushLine, hlen]
      · have hinside := Remaining.inside (g := { g with line := g.line ++ [b], lfsm := .data }) q ls rfl
        rw [List.append_assoc] at hinside
        exact hinside
  | ended ls hs =>
    right
    obtain ⟨rfl, rfl⟩ := List.cons.inj hrem
    exact ⟨g.line, ls, rfl, by simp [lfsmByte, hs], rfl⟩

/-- Before the last byte of a stream the FSM stands behind the CR of the last
line. -/
theorem Remaining.last {g : Engine cfg} {ls : List (List UInt8)} {bs : List UInt8} {b : UInt8}
    (h : Remaining g ls bs) (hbs : bs = [b]) (hls : ∀ l ∈ ls, LineText cfg l) :
    ls = [g.line] ∧ g.lfsm = .cr ∧ b = 10 := by
  have hlen := congrArg List.length hbs
  cases h with
  | between ls hs =>
    cases ls with
    | nil => cases hlen
    | cons l ls =>
      rw [stream_cons] at hlen
      simp only [List.length_append, List.length_cons, List.length_nil] at hlen
      omega
  | inside q ls hs =>
    simp only [List.length_append, List.length_cons, List.length_nil] at hlen
    omega
  | ended ls hs =>
    obtain ⟨rfl, hnil⟩ := List.cons.inj hbs
    obtain rfl := stream_eq_nil hnil
    exact ⟨rfl, hs, rfl⟩

/-! ## Prefix tests -/

/-- Comparing as many bytes as a string has tests whether a line begins with it. -/
theorem strncmpEq_length_iff {l s : List UInt8} (hs : (0 : UInt8) ∉ s) :
    strncmpEq l s s.length = true ↔ s <+: cstr l := by
  rw [strncmpEq, cstr_eq_self hs, List.take_length, beq_iff_eq, List.prefix_iff_eq_take]
  exact eq_comm

theorem strncmpEq_iff {l s : List UInt8} (hl : (0 : UInt8) ∉ l) (hs : (0 : UInt8) ∉ s) :
    strncmpEq l s s.length = true ↔ s <+: l := by
  rw [strncmpEq_length_iff hs, cstr_eq_self hl]

/-- A final result is no prompt. -/
theorem engineIsFinal_prompt {l : List UInt8} (h : [62, 32] <+: l) : engineIsFinal l = none := by
  obtain ⟨t, rfl⟩ := h
  simp [engineIsFinal, strcmpEq, strncmpEq, ascii]

/-! ## The URC table -/

/-- The lowest slot whose handler takes a line: the first active one with a
prefix of it. -/
def taker (table : Fin cfg.urcTableSize → UrcEntry cfg) (l : List UInt8) :
    Option (Fin cfg.urcTableSize) :=
  (List.finRange _).find? fun i => (table i).active && decide ((table i).pre.bytes <+: l)

theorem uint8Search_find {n : Nat} (hn : n ≤ 255) (p : Fin n → Bool) (rounds : Nat) :
    ∀ i, i ≤ n → n < i + rounds →
      uint8Search p rounds i = some (((List.finRange n).drop i).find? p) := by
  induction rounds with
  | zero => intro i hi hlt; omega
  | succ rounds ih =>
    intro i hi hlt
    rw [uint8Search]
    split
    · rename_i h
      have hdrop : (List.finRange n).drop i = ⟨i, h⟩ :: (List.finRange n).drop (i + 1) := by
        rw [List.drop_eq_getElem_cons (by simpa using h), List.getElem_finRange]
        rfl
      rw [hdrop, List.find?_cons]
      cases hp : p ⟨i, h⟩ with
      | true => rfl
      | false =>
        rw [if_neg (by simp), Nat.mod_eq_of_lt (by omega)]
        exact ih (i + 1) (by omega) (by omega)
    · rename_i h
      rw [List.drop_eq_nil_of_le (by simpa using Nat.le_of_not_lt h)]
      rfl

/-- The search of the URC table takes the lowest slot. -/
theorem urcSearch_eq (hfit : cfg.Fits) (p : Fin cfg.urcTableSize → Bool) :
    urcSearch p = some ((List.finRange _).find? p) := by
  have hurc := hfit.urc
  exact uint8Search_find hurc p 256 0 (Nat.zero_le _) (by omega)

theorem urcMatch_eq (hfit : cfg.Fits) {l : List UInt8} (hl : (0 : UInt8) ∉ l) (g : Engine cfg) :
    urcMatch l g = some (taker g.urcTable l) := by
  rw [urcMatch, urcSearch_eq hfit, taker]
  congr 2
  funext i
  congr 1
  rw [Bool.eq_iff_iff, decide_eq_true_iff]
  exact strncmpEq_iff hl (g.urcTable i).pre.nulFree

end LibAt
