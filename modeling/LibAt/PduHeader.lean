import LibAt.Pdu

/-!
# The header command of a PDU

Both PDU senders announce the length of the PDU by `AT+CMGS=<length>` and hand
the array that command was built on to `at_send`, which copies up to the first
NUL. Nobody has written one: `AB_DONE()` is not called. So the stored command
is the right one exactly when the stack happens to hold a NUL behind it
(`header_exact_iff`).
-/

namespace LibAt

variable {cfg : Config}

/-- A call of one of the two senders. -/
inductive PduCall where
  | single (smsc number text : Option (List UInt8))
  | part (smsc : Option (List UInt8)) (number segText : List UInt8) (segLen : Nat)
      (refId totalParts partNum : UInt8)

namespace PduCall

/-- Make the call. -/
def run (c : PduCall) (stk : Stack) (cb : Option Ptr) (user : Ptr) (g : Engine cfg) :
    AtResult × Engine cfg :=
  match c with
  | single smsc number text => atGsmCmgsPdu stk cb user g smsc number text
  | part smsc number segText segLen refId totalParts partNum =>
    sendConcatPart stk cb user g smsc number segText segLen refId totalParts partNum

/-- The octets it sends. -/
def pdu (c : PduCall) (stk : Stack) : Option (List UInt8) :=
  match c with
  | single smsc number text => cmgsPdu stk smsc number text
  | part smsc number segText segLen refId totalParts partNum =>
    concatPdu stk smsc number segText segLen refId totalParts partNum

/-- The number of octets behind the SMSC field, from the arguments: seven or
thirteen besides the digits, two an octet, and the packed text. -/
def octets : PduCall → Nat
  | single _ number text =>
    7 + (strlen (skipPlus (number.getD [])) + 1) / 2 + packedLen (strlen (text.getD []))
  | part _ number segText segLen _ _ _ =>
    13 + (strlen (skipPlus number) + 1) / 2 + packedLen (strlen (segText.take (min segLen 153)))

end PduCall

/-- The octets of a PDU behind its SMSC field. -/
def tpdu (pdu : List UInt8) : List UInt8 := pdu.drop (1 + (pdu.headD 0).toNat)

theorem tpdu_smscField (smsc : Option (List UInt8)) (rest : List UInt8) :
    tpdu (smscField smsc ++ rest) = rest := by
  obtain ⟨n, addr, heq, haddr, -⟩ := smscField_eq smsc
  rw [heq, tpdu, List.cons_append, List.headD_cons, ← haddr, Nat.add_comm, List.drop_succ_cons,
    List.drop_left]

/-- The senders compute its length. -/
theorem PduCall.tpdu_length {c : PduCall} {stk : Stack} {pdu : List UInt8}
    (h : c.pdu stk = some pdu) :
    (tpdu pdu).length = c.octets ∧ tpduLen pdu = c.octets ∧ 0 < c.octets ∧ c.octets < 1000 := by
  cases c with
  | single smsc number text =>
    obtain ⟨num, txt, ud, rfl, rfl, hdig, hlen, hud, rfl⟩ := cmgsPdu_some stk h
    rw [tpdu_smscField, tpduLen_smscField]
    simp only [List.length_append, length_daField hdig, hud, octets, packedLen, List.length_cons,
      List.length_nil, Option.getD_some]
    omega
  | part smsc number segText segLen refId totalParts partNum =>
    obtain ⟨ud, n, hdig, rfl, hud, rfl⟩ := concatPdu_some stk h
    have hseg := strlen_segment_le segText segLen
    rw [tpdu_smscField, tpduLen_smscField]
    simp only [List.length_append, length_daField hdig, hud, octets, packedLen, List.length_cons,
      List.length_nil]
    omega

/-- A call that returns `AT_OK` has stored the text of its octets, and what the
memory at `cmd` held up to the first NUL. -/
theorem PduCall.run_ok {c : PduCall} {stk : Stack} {cb : Option Ptr} {user : Ptr}
    {g g' : Engine cfg} (h : c.run stk cb user g = (.ok, g')) :
    ∃ pdu, c.pdu stk = some pdu ∧
      (g'.queue g.qHead).cmd.bytes = (cstr (cmdMem stk pdu)).take (cfg.txBufSize - 1) ∧
      (g'.queue g.qHead).body.bytes = (hexOf pdu).take (cfg.txBufSize * 2 - 1) := by
  cases c with
  | single smsc number text =>
    rw [run, atGsmCmgsPdu] at h
    rcases hp : cmgsPdu stk smsc number text with _ | pdu <;> rw [hp] at h
    · exact nomatch (Prod.mk.inj h).1
    · refine ⟨pdu, hp, sendPdu_ok stk cb user ?_ h⟩
      have := cmgsPdu_length stk hp
      omega
  | part smsc number segText segLen refId totalParts partNum =>
    rw [run, sendConcatPart] at h
    rcases hp : concatPdu stk smsc number segText segLen refId totalParts partNum with _ | pdu <;>
      rw [hp] at h
    · exact nomatch (Prod.mk.inj h).1
    · refine ⟨pdu, hp, sendPdu_ok stk cb user ?_ h⟩
      have := concatPdu_length stk hp
      omega

/-- A cut that may fall anywhere but at the seam gives the first part alone
exactly when there is nothing else. -/
theorem take_append_eq_left_iff {α : Type} {a b : List α} {m : Nat} (hm : m ≠ a.length) :
    (a ++ b).take m = a ↔ a.length < m ∧ b = [] := by
  constructor
  · intro h
    have hlen := congrArg List.length h
    rw [List.length_take, List.length_append] at hlen
    exact ⟨by omega, List.eq_nil_of_length_eq_zero (by omega)⟩
  · rintro ⟨hlt, rfl⟩
    rw [List.append_nil, List.take_of_length_le (by omega)]

/-- A power of two is not near ten. -/
theorem Config.tx_ne (cfg : Config) (n : Nat) (h : n = 10 ∨ n = 11 ∨ n = 12) :
    cfg.txBufSize ≠ n := by
  rintro rfl
  have htx := cfg.tx_pow2.2
  rcases h with h | h | h <;> rw [h] at htx <;> exact absurd htx (by decide)

/-- **The header command.** A sender that returns `AT_OK` has stored the text of
its PDU, and with it the command that announces the PDU's length and nothing
more exactly when the array `cmd` happens to hold a NUL right behind that
command (and the command fits its queue slot). -/
theorem header_exact_iff (c : PduCall) (stk : Stack) (cb : Option Ptr) (user : Ptr)
    (g g' : Engine cfg) (h : c.run stk cb user g = (.ok, g')) :
    ∃ pdu, c.pdu stk = some pdu ∧
      (g'.queue g.qHead).body.bytes = (hexOf pdu).take (cfg.txBufSize * 2 - 1) ∧
      ((g'.queue g.qHead).cmd.bytes = ascii "AT+CMGS=" ++ decimal (tpdu pdu).length ↔
        8 + (decimal c.octets).length < cfg.txBufSize ∧
          (stk 24).bytes.getD (8 + (decimal c.octets).length) 1 = 0) := by
  obtain ⟨pdu, hpdu, hcmd, hbody⟩ := c.run_ok h
  obtain ⟨htpdu, hlen, hpos, hlt⟩ := c.tpdu_length hpdu
  have hhead : header pdu = ascii "AT+CMGS=" ++ decimal c.octets := by
    rw [header, hlen, Nat.mod_eq_of_lt (by omega)]
  have hlit : (ascii "AT+CMGS=").length = 8 := by decide
  have hdig := length_decimal (by decide) (show c.octets < 10 ^ 3 from hlt)
  have hn : (header pdu).length = 8 + (decimal c.octets).length := by
    rw [hhead, List.length_append, hlit]
  refine ⟨pdu, hpdu, hbody, ?_⟩
  rw [hcmd, htpdu, ← hhead, cmdMem, cstr_append (zero_notMem_header pdu), ← hn]
  -- the cut at the end of the slot cannot fall right behind the command
  have hne : cfg.txBufSize - 1 ≠ (header pdu).length := by
    have h10 := cfg.tx_ne 10 (by omega)
    have h11 := cfg.tx_ne 11 (by omega)
    have h12 := cfg.tx_ne 12 (by omega)
    omega
  rw [take_append_eq_left_iff hne]
  -- the byte behind it decides whether more follows
  have hidx : (header pdu).length < (stk 24).bytes.length := by rw [(stk 24).size]; omega
  have hnil : cstr ((stk 24).bytes.drop (header pdu).length ++ (stk 24).beyond) = [] ↔
      (stk 24).bytes.getD (header pdu).length 1 = 0 := by
    rw [List.drop_eq_getElem_cons hidx, List.cons_append, List.getD_eq_getElem?_getD,
      List.getElem?_eq_getElem hidx, Option.getD_some]
    by_cases h0 : (stk 24).bytes[(header pdu).length] = 0
    · simp [h0]
    · simp [h0, cstr_cons h0]
  rw [hnil]
  refine and_congr_left fun _ => ?_
  omega

/-- A short message, sent with the SIM's own service centre. -/
def shortMessage : PduCall := .single none (some (ascii "+491234")) (some (ascii "hi"))

theorem header_exact_iff_short : ∃ g' : Engine Config.default,
    shortMessage.run .zero none 0 (atInit _) = (.ok, g') ∧
    ∃ pdu, shortMessage.pdu .zero = some pdu ∧
      (g'.queue (atInit _).qHead).body.bytes = (hexOf pdu).take (Config.default.txBufSize * 2 - 1) ∧
      ((g'.queue (atInit _).qHead).cmd.bytes = ascii "AT+CMGS=" ++ decimal (tpdu pdu).length ↔
        8 + (decimal shortMessage.octets).length < Config.default.txBufSize ∧
          (Stack.zero 24).bytes.getD (8 + (decimal shortMessage.octets).length) 1 = 0) :=
  have hrun := eq_ok_of_fst (show (shortMessage.run .zero none 0 (atInit _)).1 = .ok by
    decide +kernel)
  ⟨_, hrun, header_exact_iff _ _ _ _ _ _ hrun⟩

/-- A stack full of the letter Z. -/
def lettersOnStack : Stack := fun n => ⟨List.replicate n 90, List.length_replicate, []⟩

/-- With those letters in `cmd`, the modem is sent `AT+CMGS=` and a length with
letters behind it. -/
theorem header_garbage : ∃ g' : Engine Config.default,
    shortMessage.run lettersOnStack none 0 (atInit _) = (.ok, g') ∧
      ∀ pdu, shortMessage.pdu lettersOnStack = some pdu →
        (g'.queue (atInit _).qHead).cmd.bytes ≠ ascii "AT+CMGS=" ++ decimal (tpdu pdu).length := by
  refine ⟨_, eq_ok_of_fst (by decide +kernel), fun pdu _ heq => ?_⟩
  have hz : (90 : UInt8) ∈ ascii "AT+CMGS=" ++ decimal (tpdu pdu).length := by
    rw [← heq]
    decide +kernel
  rcases List.mem_append.mp hz with hz | hz
  · exact absurd hz (by decide)
  · exact absurd (mem_decimal hz).2 (by decide)

end LibAt
