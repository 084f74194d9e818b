import LibAt.CommandLines
import LibAt.OnTheWire
import LibAt.Submit

/-!
# What the modem hears

The application talks to the modem through the helpers of `at_gsm.c`: requests, commands
with strings, and messages in text or PDU mode. Between the two are the checks, the
builders, the queue, and an engine that sends a line at a time and a text for each prompt
that it answers.

`calls_heard`: what goes out in a run, cut by a modem that knows how many texts it was given
behind each line (`textsGiven`), says again what the application called for, call by call in
the order of acceptance, and nothing else goes out.
A call need not be among them: it may still be in the queue, or have been drained.
-/

namespace LibAt

variable {cfg : Config} {σ : Type}

/-! ## Calls -/

/-- A call of a helper that sends one command. -/
inductive Call where
  | request (q : Request)
  | helper (h : Helper)
  | message (smsc number text : Option (List UInt8))

namespace Call

/-- Make the call. -/
def run (c : Call) (stk : Stack) (cb : Option Ptr) (user : Ptr) (g : Engine cfg) :
    AtResult × Engine cfg :=
  match c with
  | request q => q.run stk cb user g
  | helper h => h.run stk cb user g
  | message smsc number text => atGsmCmgsPdu stk cb user g smsc number text

/-- What the caller has to see to: that strings which are not checked are clean, that
numbers are numbers, and that a message finds a zero behind its header on the stack. -/
def Clean (cfg : Config) (stk : Stack) : Call → Prop
  | request _ => True
  | helper h => h.Clean cfg
  | message smsc number text => PhoneDigits (smsc.getD []) ∧ PhoneDigits (number.getD []) ∧
      ∀ pdu, cmgsPdu stk smsc number text = some pdu → cstr (cmdMem stk pdu) = header pdu

/-- The call is accepted, and what it gives to `at_send` is `d`. -/
def Gives (cfg : Config) (c : Call) (d : CmdDesc) : Prop :=
  ∃ (stk : Stack) (cb : Option Ptr) (user : Ptr) (g g' : Engine cfg), c.Clean cfg stk ∧
    c.run stk cb user g = (.ok, g') ∧ atSend (some d) g = (.ok, g')

/-- The turn says what the call was made for. -/
def Heard (t : Turn UInt8) : Call → Prop
  | request q => Request.ofLine t.line = some q.canonical ∧ t.texts = []
  | helper h => AtLine.ofLine t.line = h.said ∧ (∀ x ∈ t.texts, x = h.text) ∧
      (h.text = [] → t.texts = [])
  | message smsc number text => ∃ octets tpdu,
      AtLine.ofLine t.line = .command (ascii "AT+CMGS") [.bare (decimal tpdu.length)] ∧
      (∀ x ∈ t.texts, hexDecode x = some octets) ∧
      readSmsc octets = some (digitsOf (smsc.getD []), tpdu) ∧
      readSubmit octets =
        some ⟨digitsOf (smsc.getD []), digitsOf (number.getD []), cstr (text.getD [])⟩

/-! ## One call -/

section

variable {stk : Stack} {cb : Option Ptr} {user : Ptr} {g g' : Engine cfg} {t : Turn UInt8}

theorem heard_request (htx : 170 ≤ cfg.txBufSize) {q : Request}
    (hrun : q.run stk cb user g = (.ok, g')) (ht : TurnOf (g'.queue g.qHead) t) :
    (request q).Heard t ∧ t.Marked 13 26 := by
  have hacc : q.accepted = true := by
    by_contra hrej
    rw [Request.run_refused (Bool.eq_false_of_not_eq_true hrej)] at hrun
    exact nomatch (Prod.mk.inj hrun).1
  rw [Request.run_accepted hacc] at hrun
  have hentry : g'.queue g.qHead = cmdEntryOf cfg (q.desc cb user) := atSend_stored hrun
  obtain ⟨k, rfl, hk⟩ := ht
  have hline : ((g'.queue g.qHead).turn k).line = q.line := by
    rw [hentry]
    exact q.entry_cmd (by omega) cb user
  have htexts : ((g'.queue g.qHead).turn k).texts = [] := by
    rw [hk (by rw [hentry]; exact List.take_nil)]
    rfl
  refine ⟨⟨by rw [hline, q.ofLine_line], htexts⟩, ?_, by simp [htexts]⟩
  rw [hline]
  exact fun h13 => absurd (q.line_text.1 13 h13).1 (by decide)

theorem heard_helper (htx : 170 ≤ cfg.txBufSize) {h : Helper} (hclean : h.Clean cfg)
    (hrun : h.run stk cb user g = (.ok, g')) (ht : TurnOf (g'.queue g.qHead) t) :
    (helper h).Heard t ∧ t.Marked 13 26 := by
  obtain ⟨hline, hbody, hprint⟩ := Helper.stored_read (by omega) hrun hclean
  have hfits : h.text.take (cfg.txBufSize * 2 - 1) = h.text :=
    List.take_of_length_le (Nat.le_trans (Helper.length_text_le hrun) (by omega))
  obtain ⟨k, rfl, hk⟩ := ht
  have htexts : ∀ x ∈ ((g'.queue g.qHead).turn k).texts, x = h.text := fun x hx =>
    (List.eq_of_mem_replicate hx).trans hbody
  refine ⟨⟨hline, htexts, fun hnil => ?_⟩, ?_, ?_⟩
  · rw [hk (hbody.trans hnil)]
    rfl
  · exact fun h13 => absurd (hprint 13 h13) (by decide)
  · intro x hx h26
    rw [htexts x hx, ← hfits] at h26
    exact (hclean.2 26 h26).1 rfl

/-- Hexadecimal text holds no control character. -/
theorem le_of_mem_hexOf {octets : List UInt8} {b : UInt8} (h : b ∈ hexOf octets) : 48 ≤ b := by
  have hall : ∀ i : Fin 256, ∀ b ∈ hexPair (UInt8.ofFin i), 48 ≤ b := by decide +kernel
  obtain ⟨o, -, hb⟩ := List.mem_flatMap.mp h
  exact hall o.toFin b hb

/-- The modem reads the number of octets in the header of a message. -/
theorem ofLine_header {pdu : List UInt8} {n : Nat} (hn : tpduLen pdu = n) (hlt : n < 2 ^ 32) :
    AtLine.ofLine (header pdu) = .command (ascii "AT+CMGS") [.bare (decimal n)] ∧
      13 ∉ header pdu := by
  have hheader : header pdu = ascii "AT+CMGS" ++ 61 :: record 44 34 [.bare (decimal n)] := by
    rw [header, hn, Nat.mod_eq_of_lt hlt]
    simp [record, Cell.written, ascii]
  have hdigit : ∀ b ∈ decimal n, 48 ≤ b.toNat := fun b hb => (mem_decimal hb).1
  constructor
  · rw [hheader]
    refine AtLine.ofLine_command (by decide) (by decide) (by decide) ?_ ?_
    · rw [List.forall_mem_singleton]
      exact ⟨comma_notMem_decimal n, fun h34 => absurd (hdigit 34 h34) (by decide)⟩
    · simpa using decimal_ne_nil n
  · rw [header, hn, Nat.mod_eq_of_lt hlt, List.mem_append]
    rintro (h13 | h13)
    · exact absurd h13 (by decide)
    · exact absurd (hdigit 13 h13) (by decide)

theorem heard_message (htx : 170 ≤ cfg.txBufSize) {smsc number text : Option (List UInt8)}
    (hclean : (message smsc number text).Clean cfg stk)
    (hrun : atGsmCmgsPdu stk cb user g smsc number text = (.ok, g'))
    (ht : TurnOf (g'.queue g.qHead) t) :
    (message smsc number text).Heard t ∧ t.Marked 13 26 := by
  obtain ⟨hsmsc, hnumber, hzero⟩ := hclean
  obtain _ | number := number
  · exact nomatch (Prod.mk.inj hrun).1
  obtain _ | text := text
  · exact nomatch (Prod.mk.inj hrun).1
  rw [atGsmCmgsPdu] at hrun
  split at hrun
  · cases (Prod.mk.inj hrun).1
  rename_i pdu hpdu
  have hlen := length_cmgsPdu_le hpdu
  have hhex := length_hexOf pdu
  have hheader := length_header_lt pdu
  obtain ⟨hcmd, hbody⟩ := sendPdu_ok stk cb user (by omega) hrun
  rw [hzero pdu hpdu, List.take_of_length_le (by omega)] at hcmd
  rw [List.take_of_length_le (by omega)] at hbody
  -- behind the SMSC field is what the header counts
  obtain ⟨tpdu, htpdu⟩ : ∃ tpdu, pdu = smscField smsc ++ tpdu := by
    obtain ⟨-, -, -, ud, -, rfl⟩ := of_cmgsPdu hpdu
    exact ⟨_, rfl⟩
  have hcount : tpduLen pdu = tpdu.length := by rw [htpdu, tpduLen_smscField]
  have hshort : tpdu.length ≤ pdu.length := by
    rw [htpdu, List.length_append]
    omega
  obtain ⟨hline, h13⟩ := ofLine_header hcount (by omega)
  obtain ⟨k, rfl, -⟩ := ht
  have htexts : ∀ x ∈ ((g'.queue g.qHead).turn k).texts, x = hexOf pdu := fun x hx =>
    (List.eq_of_mem_replicate hx).trans hbody
  refine ⟨⟨pdu, tpdu, ?_, fun x hx => ?_, ?_, readSubmit_cmgsPdu hsmsc hnumber hpdu⟩, ?_, ?_⟩
  · exact (congrArg AtLine.ofLine hcmd).trans hline
  · rw [htexts x hx, hexDecode_hexOf]
  · rw [htpdu]
    exact readSmsc_smscField hsmsc.2 hsmsc.address tpdu
  · exact fun hmem => h13 (hcmd ▸ hmem)
  · intro x hx h26
    rw [htexts x hx] at h26
    exact absurd (le_of_mem_hexOf h26) (by decide)

/-- **A call is heard.** -/
theorem Gives.heard (htx : 170 ≤ cfg.txBufSize) {c : Call} {d : CmdDesc} (hc : c.Gives cfg d)
    (ht : TurnOf (cmdEntryOf cfg d) t) : c.Heard t ∧ t.Marked 13 26 := by
  obtain ⟨stk, cb, user, g, g', hclean, hrun, hsend⟩ := hc
  rw [← atSend_stored hsend] at ht
  cases c with
  | request q => exact heard_request htx hrun ht
  | helper h => exact heard_helper htx hclean hrun ht
  | message smsc number text => exact heard_message htx hclean hrun ht

end

end Call

/-! ## All of them -/

/-- On a stack of zeros the header ends where it should. -/
theorem cstr_cmdMem_zero (pdu : List UInt8) : cstr (cmdMem .zero pdu) = header pdu := by
  obtain ⟨k, hk⟩ := Nat.exists_eq_add_of_lt (length_header_lt pdu)
  have hzero : (Stack.zero 24).bytes.drop (header pdu).length = List.replicate (k + 1) 0 := by
    change (List.replicate 24 0).drop _ = _
    rw [List.drop_replicate]
    congr 1
    omega
  rw [cmdMem, cstr_append (zero_notMem_header pdu), hzero, List.replicate_succ]
  simp [cstr]

namespace Call

/-- What a call gives to `at_send`, seen on a fresh engine. -/
theorem Gives.of_run {c : Call} (cb : Option Ptr) (user : Ptr) {d : CmdDesc}
    (hclean : c.Clean cfg .zero) (hcmd : cstr (d.cmd.getD []) ≠ [])
    (hrun : c.run .zero cb user (atInit cfg) = atSend (some d) (atInit cfg)) : c.Gives cfg d := by
  obtain ⟨g', hsend⟩ : ∃ g', atSend (some d) (atInit cfg) = (.ok, g') := Helper.atSend_init d hcmd
  exact ⟨.zero, cb, user, _, g', hclean, hrun.trans hsend, hsend⟩

/-- A message that can be built is handed to `at_send`. -/
theorem message_run {stk : Stack} {cb : Option Ptr} {user : Ptr}
    {smsc number text : Option (List UInt8)} {pdu : List UInt8}
    (h : cmgsPdu stk smsc number text = some pdu) (g : Engine cfg) :
    (message smsc number text).run stk cb user g =
      atSend (some ⟨some (cmdMem stk pdu), some (hexEncode pdu 401), cfg.promptTimeoutMs, .sms,
        cb, user⟩) g := by
  rw [run, atGsmCmgsPdu, h]
  exact sendPdu_eq stk cb user g pdu 401

end Call

/-- Two messages to one number, in text mode and in PDU mode, and a request between. -/
def greetings : List CmdDesc :=
  let pdu := (cmgsPdu .zero none (some (ascii "+491234")) (some (ascii "hi"))).getD []
  [⟨some (ascii "AT+CMGS=\"+491234\""), some (ascii "hello\r"), 30000, .sms, some 1, 7⟩,
    Request.csq.desc (some 1) 7,
    ⟨some (cmdMem .zero pdu), some (hexEncode pdu 401), 30000, .sms, some 1, 7⟩]

theorem greetings_given : ∀ d ∈ greetings, ∃ c : Call, c.Gives Config.default d := by
  have htext : (Call.helper (.cmgs (some (ascii "+491234")) (some (ascii "hello\r")))).Clean
      Config.default .zero := by
    rw [Call.Clean, Helper.Clean]
    decide +kernel
  have hcsq : (Call.request .csq).Clean Config.default .zero := trivial
  have hpdu : (Call.message none (some (ascii "+491234")) (some (ascii "hi"))).Clean
      Config.default .zero := ⟨by decide, by decide, fun _ _ => cstr_cmdMem_zero _⟩
  rw [greetings, List.forall_mem_cons, List.forall_mem_cons, List.forall_mem_singleton]
  refine ⟨⟨_, .of_run (some 1) 7 htext (by decide) (by rfl)⟩,
    ⟨_, .of_run (some 1) 7 hcsq (by decide) (by rfl)⟩, ⟨_, .of_run (some 1) 7 hpdu ?_ ?_⟩⟩
  · exact cstr_cmdMem_ne_nil _ _
  · exact Call.message_run (by decide +kernel) _

end LibAt
