import LibAt.Lifecycle
import LibAt.Pdu

/-!
# Long messages and the queue

`at_gsm_send_long` puts the parts of a message into the queue one by one. Every
part that `at_gsm_part_count` counts can be built (`exists_partPdu`), so the
loop can only stop because the queue is full: `sendParts_ok` says when it does
not, `sendParts_full` what it leaves behind when it does. Since nothing tests
beforehand whether all parts fit, a message that fits partly is left in the
queue in fragments, and in no other case (`all_or_nothing_iff`).
-/

namespace LibAt

variable {cfg : Config}

/-! ## One part -/

section Parts

variable (stks : Nat → Stack) (cb : Option Ptr) (user : Ptr) (smsc : Option (List UInt8))
  (number text : List UInt8) (refId nParts : UInt8)

/-- The PDU that round `i` of the loop builds. -/
def partPdu (i : Nat) : Option (List UInt8) :=
  let offset := i * gsm7ConcatMax
  let segLen := strlen text - offset
  let segLen := if segLen > gsm7ConcatMax then gsm7ConcatMax else segLen
  concatPdu (stks i) smsc number (text.drop offset) segLen refId nParts (UInt8.ofNat (i + 1))

/-- The queue entry for a PDU of the loop. -/
def partEntry (i : Nat) (pdu : List UInt8) : CmdEntry cfg :=
  cmdEntryOf cfg ⟨some (cmdMem (stks i) pdu), some (hexEncode pdu 441), cfg.promptTimeoutMs, .sms,
    cb, user⟩

/-- The engine with one more part in the queue. -/
def addPart (i : Nat) (pdu : List UInt8) (g : Engine cfg) : Engine cfg :=
  { g with
    queue := Function.update g.queue g.qHead (partEntry stks cb user i pdu)
    qHead := nextSlot g.qHead
    qCount := (g.qCount + 1) % 256 }

variable {stks cb user smsc number text refId nParts}

/-- One round, with a part that can be built: it goes into the queue, or the
queue is full and the loop ends. -/
theorem sendParts_succ {rounds i : Nat} {g : Engine cfg} {pdu : List UInt8}
    (h : partPdu stks smsc number text refId nParts i = some pdu) :
    sendParts stks cb user smsc number text refId nParts (rounds + 1) i g =
      if g.qCount ≥ cfg.cmdQueueDepth then (.errBusy, g)
      else sendParts stks cb user smsc number text refId nParts rounds (i + 1)
        (addPart stks cb user i pdu g) := by
  dsimp only [partPdu] at h
  rw [sendParts, sendConcatPart, h]
  dsimp only
  rw [sendPdu_eq, atSend]
  dsimp only [Option.getD_some]
  rw [if_neg (cstr_cmdMem_ne_nil (stks i) pdu)]
  by_cases hfull : g.qCount ≥ cfg.cmdQueueDepth
  · rw [if_pos hfull, if_pos hfull]
  · rw [if_neg hfull, if_neg hfull]
    rfl

/-- A part that cannot be built ends the loop. -/
theorem sendParts_none {rounds i : Nat} {g : Engine cfg}
    (h : partPdu stks smsc number text refId nParts i = none) :
    sendParts stks cb user smsc number text refId nParts (rounds + 1) i g = (.errParam, g) := by
  dsimp only [partPdu] at h
  rw [sendParts, sendConcatPart, h]

/-- No part can be built for a number that is too long. -/
theorem partPdu_none {i : Nat} (h : 20 < strlen (skipPlus number)) :
    partPdu stks smsc number text refId nParts i = none := by
  rw [partPdu, concatPdu, if_pos h]

/-! ## The loop -/

/-- **With room for all parts, all of them go into the queue.** (A queue of 256
slots or more is never full for the 8-bit `q_count`.) -/
theorem sendParts_ok (rounds : Nat) : ∀ {i : Nat} {g : Engine cfg},
    (∀ j, i ≤ j → j < i + rounds →
      ∃ pdu, partPdu stks smsc number text refId nParts j = some pdu) →
    (256 ≤ cfg.cmdQueueDepth ∧ g.qCount < cfg.cmdQueueDepth ∨
      cfg.cmdQueueDepth ≤ 255 ∧ g.qCount + rounds ≤ cfg.cmdQueueDepth) →
    (sendParts stks cb user smsc number text refId nParts rounds i g).1 = .ok := by
  induction rounds with
  | zero => intros; rfl
  | succ rounds ih =>
    intro i g hparts hroom
    obtain ⟨pdu, hpdu⟩ := hparts i (Nat.le_refl _) (by omega)
    rw [sendParts_succ hpdu, if_neg (by omega)]
    apply ih
    · exact fun j hj hj' => hparts j (by omega) (by omega)
    · dsimp only [addPart]
      omega

/-- **Without it, the queue is filled up** and the call answers
`AT_ERR_BUSY`. -/
theorem sendParts_full (hdepth : cfg.cmdQueueDepth ≤ 255) (rounds : Nat) :
    ∀ {i : Nat} {g : Engine cfg},
      (∀ j, i ≤ j → j < i + rounds →
      ∃ pdu, partPdu stks smsc number text refId nParts j = some pdu) →
      g.qCount ≤ cfg.cmdQueueDepth → cfg.cmdQueueDepth < g.qCount + rounds →
      (sendParts stks cb user smsc number text refId nParts rounds i g).1 = .errBusy ∧
        (sendParts stks cb user smsc number text refId nParts rounds i g).2.qCount =
          cfg.cmdQueueDepth := by
  induction rounds with
  | zero =>
    intro i g _ hle hlt
    omega
  | succ rounds ih =>
    intro i g hparts hle hlt
    obtain ⟨pdu, hpdu⟩ := hparts i (Nat.le_refl _) (by omega)
    rw [sendParts_succ hpdu]
    by_cases hfull : g.qCount ≥ cfg.cmdQueueDepth
    · rw [if_pos hfull]
      exact ⟨rfl, Nat.le_antisymm hle hfull⟩
    · rw [if_neg hfull]
      apply ih
      · exact fun j hj hj' => hparts j (by omega) (by omega)
      · dsimp only [addPart]
        omega
      · dsimp only [addPart]
        omega

/-- With a queue that is full already nothing happens. -/
theorem sendParts_of_full {rounds i : Nat} {g : Engine cfg}
    (h : g.qCount ≥ cfg.cmdQueueDepth) :
    (sendParts stks cb user smsc number text refId nParts rounds i g).2 = g := by
  cases rounds with
  | zero => rfl
  | succ rounds =>
    rcases hp : partPdu stks smsc number text refId nParts i with _ | pdu
    · rw [sendParts_none hp]
    · rw [sendParts_succ hp, if_pos h]

/-- Every part of a text in the alphabet can be built. -/
theorem exists_partPdu {i : Nat} (hdig : strlen (skipPlus number) ≤ 20)
    (himg : (cstr text).all gsm7Image = true) (hi : i * 153 ≤ strlen text) :
    ∃ pdu, partPdu stks smsc number text refId nParts i = some pdu := by
  apply exists_concatPdu (stks i) hdig
  rw [gsm7ConcatMax, cstr_drop text hi, List.all_eq_true]
  exact fun c hc => List.all_eq_true.mp himg c (List.mem_of_mem_drop hc)

end Parts

/-! ## The whole message -/

/-- A text of several parts is in the alphabet, and the parts are not more than
its length asks for. -/
theorem of_partCount {text : List UInt8} (h : 2 ≤ (atGsmPartCount (some text)).toNat) :
    (cstr text).all gsm7Image = true ∧ 160 < strlen text ∧
      (atGsmPartCount (some text)).toNat * 153 ≤ strlen text + 152 := by
  rw [atGsmPartCount] at h ⊢
  split at h
  · exact absurd h (by decide)
  rename_i h0
  split at h
  · exact absurd h (by decide)
  rename_i himg
  split at h
  · exact absurd h (by decide)
  rename_i hlen
  rw [if_neg h0, if_neg himg, if_neg hlen]
  rw [gsm7SingleMax] at hlen
  refine ⟨by simpa using himg, by omega, ?_⟩
  -- the 8-bit count is at most the real one
  rw [UInt8.toNat_ofNat', gsm7ConcatMax]
  omega

/-- `at_gsm_cmgs_pdu` accepts, or changes nothing. -/
theorem atGsmCmgsPdu_rejected {stk : Stack} {cb : Option Ptr} {user : Ptr} {g : Engine cfg}
    {smsc number text : Option (List UInt8)}
    (h : (atGsmCmgsPdu stk cb user g smsc number text).1 ≠ .ok) :
    (atGsmCmgsPdu stk cb user g smsc number text).2 = g := by
  rw [atGsmCmgsPdu] at h ⊢
  rcases hp : cmgsPdu stk smsc number text with _ | pdu
  · rfl
  · rw [hp] at h
    dsimp only at h ⊢
    rw [sendPdu_eq] at h ⊢
    exact atSend_rejected Prod.mk.eta.symm fun d hok _ => h hok

/-- The parts of a message that can be built fit into the queue in part only. -/
def Fragments (g : Engine cfg) (number text : Option (List UInt8)) : Prop :=
  validatePhoneNumber number = true ∧ strlen (skipPlus (number.getD [])) ≤ 20 ∧
    2 ≤ (atGsmPartCount text).toNat ∧ cfg.cmdQueueDepth ≤ 255 ∧
    0 < cfg.cmdQueueDepth - g.qCount ∧
    cfg.cmdQueueDepth - g.qCount < (atGsmPartCount text).toNat

theorem SameQueue.of_eq {g g' : Engine cfg} (h : g' = g) : SameQueue g g' :=
  ⟨by rw [h], by rw [h], by rw [h], by rw [h]⟩

/-- The loop of a message of several parts. -/
theorem sendParts_all_or_nothing (stks : Nat → Stack) (cb : Option Ptr) (user : Ptr)
    (g : Engine cfg) (smsc : Option (List UInt8)) (number text : List UInt8)
    (refId nParts : UInt8) (himg : (cstr text).all gsm7Image = true) (h2 : 2 ≤ nParts.toNat)
    (hlen : nParts.toNat * 153 ≤ strlen text + 152) :
    ((sendParts stks cb user smsc number text refId nParts nParts.toNat 0 g).1 ≠ .ok →
        SameQueue g (sendParts stks cb user smsc number text refId nParts nParts.toNat 0 g).2) ↔
      ¬(strlen (skipPlus number) ≤ 20 ∧ cfg.cmdQueueDepth ≤ 255 ∧
        0 < cfg.cmdQueueDepth - g.qCount ∧ cfg.cmdQueueDepth - g.qCount < nParts.toNat) := by
  by_cases hdig : strlen (skipPlus number) ≤ 20
  swap
  · -- no part can be built
    obtain ⟨m, hm⟩ : ∃ m, nParts.toNat = m + 1 := ⟨nParts.toNat - 1, by omega⟩
    rw [hm, sendParts_none (partPdu_none (by omega))]
    exact iff_of_true (fun _ => .of_eq rfl) (fun h => hdig h.1)
  by_cases hfull : g.qCount ≥ cfg.cmdQueueDepth
  · rw [sendParts_of_full hfull]
    exact iff_of_true (fun _ => .of_eq rfl) (by omega)
  have hparts : ∀ j, 0 ≤ j → j < 0 + nParts.toNat →
      ∃ pdu, partPdu stks smsc number text refId nParts j = some pdu :=
    fun j _ hj => exists_partPdu hdig himg (by omega)
  by_cases hroom : 256 ≤ cfg.cmdQueueDepth ∨ g.qCount + nParts.toNat ≤ cfg.cmdQueueDepth
  · have hok : (sendParts stks cb user smsc number text refId nParts nParts.toNat 0 g).1 = .ok :=
      sendParts_ok _ hparts (by omega)
    exact iff_of_true (fun hr => absurd hok hr) (by omega)
  · -- some of the parts have gone into the queue
    obtain ⟨hbusy, hcount⟩ :
        (sendParts stks cb user smsc number text refId nParts nParts.toNat 0 g).1 = .errBusy ∧
          (sendParts stks cb user smsc number text refId nParts nParts.toNat 0 g).2.qCount =
            cfg.cmdQueueDepth :=
      sendParts_full (by omega) _ hparts (by omega) (by omega)
    refine iff_of_false (fun hr => ?_) (not_not_intro ⟨hdig, by omega⟩)
    have := (hr (by rw [hbusy]; decide)).qCount
    omega

/-- **All or nothing.** A call of `at_gsm_send_long` that fails leaves the
command queue as it was, except for a message of several parts of which some,
but not all, fit into the queue. -/
theorem all_or_nothing_iff (stks : Nat → Stack) (cb : Option Ptr) (user : Ptr) (g : Engine cfg)
    (smsc number text : Option (List UInt8)) (refId : UInt8) :
    ((atGsmSendLong stks cb user g smsc number text refId).1 ≠ .ok →
        SameQueue g (atGsmSendLong stks cb user g smsc number text refId).2) ↔
      ¬Fragments g number text := by
  obtain _ | number := number
  · exact iff_of_true (fun _ => .of_eq rfl) (fun h => nomatch h.1)
  obtain _ | text := text
  · exact iff_of_true (fun _ => .of_eq rfl) (fun h => absurd h.2.2.1 (by decide))
  rw [atGsmSendLong]
  dsimp only
  by_cases hvalid : validatePhoneNumber (some number) = true
  swap
  · rw [if_pos (by simpa using hvalid)]
    exact iff_of_true (fun _ => .of_eq rfl) (fun h => hvalid h.1)
  rw [if_neg (by simpa using hvalid)]
  by_cases h0 : atGsmPartCount (some text) = 0
  · rw [if_pos h0]
    exact iff_of_true (fun _ => .of_eq rfl) (fun h => absurd h.2.2.1 (by rw [h0]; decide))
  by_cases h1 : atGsmPartCount (some text) = 1
  · rw [if_neg h0, if_pos h1]
    exact iff_of_true (fun hr => .of_eq (atGsmCmgsPdu_rejected hr))
      (fun h => absurd h.2.2.1 (by rw [h1]; decide))
  rw [if_neg h0, if_neg h1]
  have h2 : 2 ≤ (atGsmPartCount (some text)).toNat := by
    have h0' : (atGsmPartCount (some text)).toNat ≠ 0 := fun h => h0 (UInt8.toNat_inj.mp h)
    have h1' : (atGsmPartCount (some text)).toNat ≠ 1 := fun h => h1 (UInt8.toNat_inj.mp h)
    omega
  obtain ⟨himg, -, hlen⟩ := of_partCount h2
  rw [sendParts_all_or_nothing stks cb user g smsc number text refId _ himg h2 hlen, Fragments]
  simp only [hvalid, h2, true_and, Option.getD_some]

/-- A queue with one free slot. -/
def oneSlotLeft : Engine Config.default :=
  (List.range 7).foldl (fun g _ => (atSendRaw (ascii "AT") 0 none 0 g).2) (atInit _)

/-- 161 characters, which take two parts. -/
def twoPartText : List UInt8 := List.replicate 161 65

/-- The first part of the message stays in the queue, although the call answers
that the queue cannot hold the message. -/
theorem fragment_left :
    (atGsmSendLong (fun _ => .zero) none 0 oneSlotLeft none (some (ascii "+491234"))
      (some twoPartText) 1).1 = .errBusy ∧
    ¬SameQueue oneSlotLeft (atGsmSendLong (fun _ => .zero) none 0 oneSlotLeft none
      (some (ascii "+491234")) (some twoPartText) 1).2 := by
  refine ⟨by decide +kernel, fun h => ?_⟩
  exact absurd h.qCount (by decide +kernel)

end LibAt
