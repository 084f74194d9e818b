import Mathlib.Data.List.TakeDrop
import LibAt.ExecSteps

/-!
# What `at_send` accepts, and what it stores

`at_send` decides whether to accept a command without looking at how long its
strings are, and `str_copy_safe` cuts what does not fit. `HoldsWhole` is what a
caller that is told `AT_OK` relies on: the strings are stored whole, and so
written whole, and strings that do not fit are refused. It holds exactly when
the command is refused for another reason or both strings fit
(`holdsWhole_iff`).
-/

namespace LibAt

variable {cfg : Config}

/-- The string fits a `char[n]`, with its terminator. -/
def FitsIn (n : Nat) (s : Option (List UInt8)) : Prop := strlen (s.getD []) < n

instance (n : Nat) (s : Option (List UInt8)) : Decidable (FitsIn n s) :=
  inferInstanceAs (Decidable (_ < _))

/-- Copying keeps a string whole if and only if it fits. -/
theorem strCopySafe_eq_iff {n : Nat} (h : 0 < n) (s : Option (List UInt8)) :
    (strCopySafe h (s.getD [])).bytes = cstr (s.getD []) ↔ FitsIn n s := by
  change (cstr (s.getD [])).take (n - 1) = _ ↔ (cstr (s.getD [])).length < n
  rw [List.take_eq_self_iff]
  omega

/-- The entry `e` holds the command and the body of `d` whole. Then starting it
writes the whole command and CR, and answering a prompt for it the whole body and
Ctrl-Z. -/
structure HoldsWhole (d : CmdDesc) (e : CmdEntry cfg) : Prop where
  cmd : e.cmd.bytes = cstr (d.cmd.getD [])
  body : e.body.bytes = cstr (d.body.getD [])
  started : ∀ {σ : Type} (env : Env σ) (w : World cfg σ), w.eng.queue w.eng.qTail = e →
    ∃ evs, SentPair w.eng.traceHook.isSome .cmd .cr (cstr (d.cmd.getD [])) [13]
        (transmit env w).1 evs ∧
      (transmit env w).2.log = w.log ++ .start e :: evs
  answered : ∀ {σ : Type} (env : Env σ) (w : World cfg σ),
    ∃ evs, SentPair w.eng.traceHook.isSome .body .ctrlZ (cstr (d.body.getD [])) [26]
        (answerPrompt env e w).1 evs ∧
      (answerPrompt env e w).2.log = w.log ++ evs

/-- What is stored whole is written whole. -/
theorem HoldsWhole.of_bytes {d : CmdDesc} {e : CmdEntry cfg}
    (hcmd : e.cmd.bytes = cstr (d.cmd.getD [])) (hbody : e.body.bytes = cstr (d.body.getD [])) :
    HoldsWhole d e := by
  refine ⟨hcmd, hbody, fun env w he => ?_, fun env w => ?_⟩
  · rw [← hcmd, ← he]
    exact transmit_sent env w
  · rw [← hbody]
    exact answerPrompt_sent env e w

/-- **What a caller relies on.** An accepted command is held whole, and one that
does not fit is refused and leaves the queue as it was. -/
def NeverShortens (d : CmdDesc) (g : Engine cfg) : Prop :=
  (∀ g', atSend (some d) g = (.ok, g') → HoldsWhole d (g'.queue g.qHead)) ∧
    (¬FitsIn cfg.txBufSize d.cmd ∨ ¬FitsIn (cfg.txBufSize * 2) d.body →
      (atSend (some d) g).1 ≠ .ok ∧ (atSend (some d) g).2 = g)

/-- What `at_send` refuses. -/
theorem atSend_refused {d : CmdDesc} {g : Engine cfg}
    (h : cstr (d.cmd.getD []) = [] ∨ cfg.cmdQueueDepth ≤ g.qCount) :
    (atSend (some d) g).1 ≠ .ok ∧ (atSend (some d) g).2 = g := by
  rw [atSend]
  by_cases hne : cstr (d.cmd.getD []) = []
  · rw [if_pos hne]
    exact ⟨by simp, rfl⟩
  · rw [if_neg hne, if_pos (h.resolve_left hne)]
    exact ⟨by simp, rfl⟩

/-- Anything else is accepted, and stored as far as it fits. -/
theorem atSend_accepted {d : CmdDesc} {g : Engine cfg} (hne : cstr (d.cmd.getD []) ≠ [])
    (hroom : g.qCount < cfg.cmdQueueDepth) :
    ∃ g', atSend (some d) g = (.ok, g') ∧ g'.queue g.qHead = cmdEntryOf cfg d := by
  refine ⟨(atSend (some d) g).2, ?_, ?_⟩
  · rw [atSend]
    rw [if_neg hne, if_neg (Nat.not_le_of_lt hroom)]
  · rw [atSend]
    rw [if_neg hne, if_neg (Nat.not_le_of_lt hroom)]
    exact Function.update_self _ _ _

/-- **`at_send` never shortens** a command if and only if it refuses it for
another reason, or the command and the body fit. -/
theorem neverShortens_iff (d : CmdDesc) (g : Engine cfg) :
    NeverShortens d g ↔ cstr (d.cmd.getD []) = [] ∨ cfg.cmdQueueDepth ≤ g.qCount ∨
      FitsIn cfg.txBufSize d.cmd ∧ FitsIn (cfg.txBufSize * 2) d.body := by
  constructor
  · rintro ⟨-, hlong⟩
    by_contra hno
    obtain ⟨hne, hno⟩ := not_or.mp hno
    obtain ⟨hroom, hfit⟩ := not_or.mp hno
    obtain ⟨g', hok, -⟩ := atSend_accepted hne (Nat.lt_of_not_le hroom)
    have hrefused := (hlong (Decidable.not_and_iff_or_not.mp hfit)).1
    rw [hok] at hrefused
    exact hrefused rfl
  · intro h
    by_cases hrefuse : cstr (d.cmd.getD []) = [] ∨ cfg.cmdQueueDepth ≤ g.qCount
    · refine ⟨fun g' hok => ?_, fun _ => atSend_refused hrefuse⟩
      have hno := (atSend_refused hrefuse).1
      rw [hok] at hno
      exact absurd rfl hno
    · obtain ⟨hcmd, hbody⟩ := (or_assoc.mpr h).resolve_left hrefuse
      refine ⟨fun g' hok => ?_, fun hlong => ?_⟩
      · rw [atSend_stored hok]
        exact .of_bytes ((strCopySafe_eq_iff cfg.tx_pos d.cmd).mpr hcmd)
          ((strCopySafe_eq_iff cfg.body_pos d.body).mpr hbody)
      · exact absurd hlong (not_or.mpr ⟨not_not.mpr hcmd, not_not.mpr hbody⟩)

/-- A command one character too long for its buffer. -/
def tooLong : CmdDesc := ⟨some (List.replicate 512 65), none, 0, .none, none, 0⟩

/-- It is accepted, and its last character is lost. -/
theorem tooLong_shortened : ∃ g', atSend (some tooLong) (atInit Config.default) = (.ok, g') ∧
    (g'.queue (atInit Config.default).qHead).cmd.bytes = List.replicate 511 65 ∧
    ¬NeverShortens tooLong (atInit Config.default) := by
  obtain ⟨g', hok, hstored⟩ := atSend_accepted (d := tooLong) (g := atInit Config.default)
    (by decide +kernel) (by decide)
  refine ⟨g', hok, ?_, ?_⟩
  · rw [hstored]
    decide +kernel
  · rintro ⟨-, hlong⟩
    have hrefused := (hlong (.inl (by decide +kernel))).1
    rw [hok] at hrefused
    exact hrefused rfl

end LibAt
