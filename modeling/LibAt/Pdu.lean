import LibAt.Gsm
import LibAt.Gsm7
import LibAt.Hex
import LibAt.Transitions

/-!
# Messages in PDU mode (`at_gsm.c`)

`at_gsm_cmgs_pdu`, `at_gsm_part_count`, `send_concat_part` and
`at_gsm_send_long`. The two senders lay out the same fields, write them as
hexadecimal text, build the header command and call `at_send`; the common
parts are `smscField`, `daField` and `sendPdu`, and the octets of the PDU are
`cmgsPdu` and `concatPdu`, with `none` for `AT_ERR_PARAM`.

The PDU arrays are modelled by the octets written so far: they are written
from the front, never read behind that, and large enough (`cmgsPdu_length`,
`concatPdu_length`).
-/

namespace LibAt

variable {cfg : Config}

/-! ## Addresses and octets -/

/-- `if (*number == '+') number++;`. -/
def skipPlus : List UInt8 → List UInt8
  | 43 :: number => number
  | number => number

/-- The BCD loop of `encode_address`: `len` digits, two an octet, the last
half octet filled with F. -/
def bcdOctets (number : List UInt8) (len : Nat) : List UInt8 :=
  (List.range ((len + 1) / 2)).map fun i =>
    let lo := (number.getD (2 * i) 0 - 48) &&& 0x0F
    let hi := if 2 * i + 1 < len then (number.getD (2 * i + 1) 0 - 48) &&& 0x0F else 0x0F
    (hi <<< 4) ||| lo

/-- `encode_address`: the octets it writes. -/
def encodeAddress (number : List UInt8) : List UInt8 :=
  let number := cstr (skipPlus number)
  let len := if number.length > 20 then 20 else number.length
  0x91 :: bcdOctets number len

/-- One octet for the type, and at most ten for the digits. -/
theorem length_encodeAddress (number : List UInt8) :
    (encodeAddress number).length = 1 + (min (strlen (skipPlus number)) 20 + 1) / 2 := by
  rw [encodeAddress]
  simp only [bcdOctets, List.length_cons, List.length_map, List.length_range, strlen]
  split <;> omega

/-- The loop of `hex_encode`, with `out` characters written. -/
def hexEncodeFrom (bufSz : Nat) : List UInt8 → Nat → List UInt8
  | [], _ => []
  | b :: src, out =>
    if out + 2 < bufSz then hexPair b ++ hexEncodeFrom bufSz src (out + 2) else []

/-- `hex_encode`: the string it leaves in `buf`. -/
def hexEncode (src : List UInt8) (bufSz : Nat) : List UInt8 := hexEncodeFrom bufSz src 0

theorem hexEncodeFrom_eq (bufSz : Nat) (src : List UInt8) :
    ∀ out, out + 2 * src.length < bufSz → hexEncodeFrom bufSz src out = hexOf src := by
  induction src with
  | nil => intros; rfl
  | cons b src ih =>
    intro out h
    rw [List.length_cons] at h
    rw [hexEncodeFrom, if_pos (by omega), ih (out + 2) (by omega), hexOf_cons]

/-- A buffer that holds two characters for each octet and a terminator gets the
whole text. -/
theorem hexEncode_eq {src : List UInt8} {bufSz : Nat} (h : 2 * src.length < bufSz) :
    hexEncode src bufSz = hexOf src :=
  hexEncodeFrom_eq bufSz src 0 (by omega)

/-! ## The fields of a PDU -/

/-- The SMSC field: a zero octet, or length and address. -/
def smscField (smsc : Option (List UInt8)) : List UInt8 :=
  if cstr (smsc.getD []) = [] then [0x00]
  else
    let smscAddr := encodeAddress (smsc.getD [])
    UInt8.ofNat smscAddr.length :: smscAddr

/-- The SMSC field begins with the number of octets that follow. -/
theorem smscField_eq (smsc : Option (List UInt8)) :
    ∃ n addr, smscField smsc = n :: addr ∧ addr.length = n.toNat ∧ n.toNat ≤ 11 := by
  rw [smscField]
  split
  · exact ⟨0, [], rfl, rfl, by decide⟩
  · have hlen := length_encodeAddress (smsc.getD [])
    have hn : (UInt8.ofNat (encodeAddress (smsc.getD [])).length).toNat =
        (encodeAddress (smsc.getD [])).length := by
      rw [UInt8.toNat_ofNat']
      omega
    exact ⟨_, _, rfl, hn.symm, by omega⟩

/-- The destination address: the number of digits, and the address. -/
def daField (number : List UInt8) : List UInt8 :=
  UInt8.ofNat (strlen (skipPlus number)) :: encodeAddress number

/-- A number of at most 20 digits: their number, the type, and the digits two
an octet. -/
theorem daField_eq {number : List UInt8} (h : strlen (skipPlus number) ≤ 20) :
    ∃ n bcd, daField number = n :: 0x91 :: bcd ∧ n.toNat = strlen (skipPlus number) ∧
      bcd.length = (n.toNat + 1) / 2 := by
  have hn : (UInt8.ofNat (strlen (skipPlus number))).toNat = strlen (skipPlus number) := by
    rw [UInt8.toNat_ofNat']
    omega
  have hlen := length_encodeAddress number
  rw [encodeAddress, List.length_cons] at hlen
  refine ⟨_, _, rfl, hn, ?_⟩
  rw [hn]
  omega

/-- The number of octets behind the SMSC field, as both senders compute it. -/
def tpduLen (pdu : List UInt8) : Nat :=
  let smscFieldLen := (pdu.headD 0).toNat
  let smscPrefixLen := 1 + if smscFieldLen = 0 then 0 else smscFieldLen
  pdu.length - smscPrefixLen

theorem tpduLen_cons (n : UInt8) (l : List UInt8) : tpduLen (n :: l) = l.length - n.toNat := by
  have h : tpduLen (n :: l) = l.length + 1 - (1 + if n.toNat = 0 then 0 else n.toNat) := rfl
  rw [h]
  split <;> omega

/-- It is the length of what follows the SMSC field. -/
theorem tpduLen_smscField (smsc : Option (List UInt8)) (rest : List UInt8) :
    tpduLen (smscField smsc ++ rest) = rest.length := by
  obtain ⟨n, addr, heq, haddr, -⟩ := smscField_eq smsc
  rw [heq, List.cons_append, tpduLen_cons, List.length_append, haddr]
  omega

/-- The header command for a PDU. -/
def header (pdu : List UInt8) : List UInt8 :=
  ascii "AT+CMGS=" ++ decimal (tpduLen pdu % 2 ^ 32)

theorem zero_notMem_header (pdu : List UInt8) : (0 : UInt8) ∉ header pdu := by
  rw [header, List.mem_append]
  rintro (h | h)
  · exact absurd h (by decide)
  · exact zero_notMem_decimal _ h

theorem header_ne_nil (pdu : List UInt8) : header pdu ≠ [] := by simp [header, ascii]

/-- It fits the array it is built on. -/
theorem length_header_lt (pdu : List UInt8) : (header pdu).length < 24 := by
  have hmod : tpduLen pdu % 2 ^ 32 < 10 ^ 10 :=
    Nat.lt_trans (Nat.mod_lt _ (by decide)) (by decide)
  have hlit : (ascii "AT+CMGS=").length = 8 := by decide
  have hdig := length_decimal (by decide) hmod
  rw [header, List.length_append]
  omega

section Senders

variable (stk : Stack) (cb : Option Ptr) (user : Ptr) (g : Engine cfg)

/-- What both senders do with the octets: hexadecimal text, the header command,
`at_send`. The command is the array itself: `AB_DONE()` is not called. -/
def sendPdu (pdu : List UInt8) (hexSz : Nat) : AtResult × Engine cfg :=
  let hex := hexEncode pdu hexSz
  let b := (Ab.init (stk 24).bytes).appends
    [.str (ascii "AT+CMGS="), .u32 (UInt32.ofNat (tpduLen pdu))]
  if !b.ok then (.errParam, g)
  else atSend (some ⟨some (b.mem.buf ++ (stk 24).beyond), some hex, cfg.promptTimeoutMs, .sms,
    cb, user⟩) g

/-- What `at_send` finds at `cmd`: the header command, and then whatever the
stack held behind it. -/
def cmdMem (pdu : List UInt8) : List UInt8 :=
  header pdu ++ ((stk 24).bytes.drop (header pdu).length ++ (stk 24).beyond)

/-- A PDU is always handed to `at_send`. -/
theorem sendPdu_eq (pdu : List UInt8) (hexSz : Nat) :
    sendPdu stk cb user g pdu hexSz =
      atSend (some ⟨some (cmdMem stk pdu), some (hexEncode pdu hexSz), cfg.promptTimeoutMs, .sms,
        cb, user⟩) g := by
  have htexts : AbItem.texts [.str (ascii "AT+CMGS="), .u32 (UInt32.ofNat (tpduLen pdu))] =
      header pdu := by
    simp [header, AbItem.text, UInt32.toNat_ofNat', ascii]
  have hspec := Ab.spec_of_init (by decide) (stk 24)
    [.str (ascii "AT+CMGS="), .u32 (UInt32.ofNat (tpduLen pdu))]
  rw [htexts] at hspec
  have hok := (Ab.appends_ok_iff (by decide) (stk 24) _).mpr (htexts ▸ length_header_lt pdu)
  rw [sendPdu, hok, if_neg (by decide), hspec.buf hok, cmdMem, List.append_assoc]

theorem cstr_cmdMem_ne_nil (pdu : List UInt8) : cstr (cmdMem stk pdu) ≠ [] := by
  rw [cmdMem, cstr_append (zero_notMem_header pdu)]
  exact List.append_ne_nil_of_left_ne_nil (header_ne_nil pdu) _

/-- With a free slot, it is accepted. -/
theorem sendPdu_accepted {g : Engine cfg} (hroom : g.qCount < cfg.cmdQueueDepth)
    (pdu : List UInt8) (hexSz : Nat) : ∃ g', sendPdu stk cb user g pdu hexSz = (.ok, g') := by
  rw [sendPdu_eq, atSend]
  dsimp only [Option.getD_some]
  rw [if_neg (cstr_cmdMem_ne_nil stk pdu), if_neg (Nat.not_le_of_lt hroom)]
  exact ⟨_, rfl⟩

/-- What `sendPdu` stores: the string at `cmd`, cut to its slot, and the text of
the octets. -/
theorem sendPdu_ok {g g' : Engine cfg} {pdu : List UInt8} {hexSz : Nat}
    (hsz : 2 * pdu.length < hexSz) (h : sendPdu stk cb user g pdu hexSz = (.ok, g')) :
    (g'.queue g.qHead).cmd.bytes = (cstr (cmdMem stk pdu)).take (cfg.txBufSize - 1) ∧
      (g'.queue g.qHead).body.bytes = (hexOf pdu).take (cfg.txBufSize * 2 - 1) := by
  rw [sendPdu_eq, hexEncode_eq hsz] at h
  rw [atSend_stored h]
  refine ⟨rfl, ?_⟩
  exact congrArg (List.take _) (cstr_eq_self (zero_notMem_hexOf pdu))

/-! ## A single message -/

/-- The PDU that `at_gsm_cmgs_pdu` builds. -/
def cmgsPdu (smsc number text : Option (List UInt8)) : Option (List UInt8) :=
  match number, text with
  | some number, some text =>
    if !validatePhoneNumber (some number) then none
    else if strlen (skipPlus number) > 20 then none
    else
      match atGsm7Encode (some text) (some (stk 140).bytes) with
      | .error _ => none
      | .ok (ud, udLen, nChars) =>
        some (smscField smsc ++ [0x01, 0x00] ++ daField number ++ [0x00, 0x00] ++
          [UInt8.ofNat nChars] ++ ud.take udLen)
  | _, _ => none

/-- The single PDU is built of its two arguments, behind a text that was encoded. -/
theorem cmgsPdu_encodes {smsc number text : Option (List UInt8)} {pdu : List UInt8}
    (h : cmgsPdu stk smsc number text = some pdu) :
    ∃ num txt ud udLen nChars, number = some num ∧ text = some txt ∧
      strlen (skipPlus num) ≤ 20 ∧
      atGsm7Encode (some txt) (some (stk 140).bytes) = .ok (ud, udLen, nChars) ∧
      pdu = smscField smsc ++ ([0x01, 0x00] ++ daField num ++ [0x00, 0x00] ++
        [UInt8.ofNat nChars] ++ ud.take udLen) := by
  obtain _ | num := number
  · exact nomatch h
  obtain _ | txt := text
  · exact nomatch h
  rw [cmgsPdu] at h
  split at h
  · exact nomatch h
  split at h
  · exact nomatch h
  rename_i hdig
  split at h
  · exact nomatch h
  rename_i ud udLen nChars henc
  refine ⟨num, txt, ud, udLen, nChars, rfl, rfl, by omega, henc, ?_⟩
  rw [← Option.some.inj h]
  simp only [List.append_assoc]

/-- What the single PDU consists of, and of which arguments it is built. -/
theorem cmgsPdu_some {smsc number text : Option (List UInt8)} {pdu : List UInt8}
    (h : cmgsPdu stk smsc number text = some pdu) :
    ∃ num txt ud, number = some num ∧ text = some txt ∧ strlen (skipPlus num) ≤ 20 ∧
      strlen txt ≤ 160 ∧ ud.length = packedLen (strlen txt) ∧
      pdu = smscField smsc ++ ([0x01, 0x00] ++ daField num ++ [0x00, 0x00] ++
        [UInt8.ofNat (strlen txt)] ++ ud) := by
  obtain ⟨num, txt, ud, udLen, nChars, hnum, htxt, hdig, henc, hpdu⟩ := cmgsPdu_encodes stk h
  obtain ⟨hlen, hud, rfl, rfl⟩ := atGsm7Encode_some henc
  exact ⟨num, txt, _, hnum, htxt, hdig, hlen, hud, hpdu⟩

theorem length_daField {number : List UInt8} (h : strlen (skipPlus number) ≤ 20) :
    (daField number).length = 2 + (strlen (skipPlus number) + 1) / 2 := by
  obtain ⟨n, bcd, heq, hn, hbcd⟩ := daField_eq h
  rw [heq, List.length_cons, List.length_cons, hbcd, hn]
  omega

theorem length_smscField_le (smsc : Option (List UInt8)) : (smscField smsc).length ≤ 12 := by
  obtain ⟨n, addr, heq, haddr, hle⟩ := smscField_eq smsc
  rw [heq, List.length_cons, haddr]
  omega

/-- `pdu[200]` holds the PDU. -/
theorem cmgsPdu_length {smsc number text : Option (List UInt8)} {pdu : List UInt8}
    (h : cmgsPdu stk smsc number text = some pdu) : pdu.length < 200 := by
  obtain ⟨num, txt, ud, -, -, hdig, hlen, hud, rfl⟩ := cmgsPdu_some stk h
  have hsmsc := length_smscField_le smsc
  simp only [List.length_append, length_daField hdig, hud, packedLen, List.length_cons,
    List.length_nil]
  omega

/-- `at_gsm_cmgs_pdu`. -/
def atGsmCmgsPdu (smsc number text : Option (List UInt8)) : AtResult × Engine cfg :=
  match cmgsPdu stk smsc number text with
  | none => (.errParam, g)
  | some pdu => sendPdu stk cb user g pdu 401

/-! ## Concatenated messages -/

/-- `GSM7_SINGLE_MAX` -/
def gsm7SingleMax : Nat := 160

/-- `GSM7_CONCAT_MAX` -/
def gsm7ConcatMax : Nat := 153

/-- `at_gsm_part_count`. -/
def atGsmPartCount (text : Option (List UInt8)) : UInt8 :=
  match text with
  | none => 0
  | some text =>
    let len := strlen text
    if len = 0 then 1
    else if !(cstr text).all gsm7Image then 0
    else if len ≤ gsm7SingleMax then 1
    else UInt8.ofNat ((len + gsm7ConcatMax - 1) / gsm7ConcatMax)

/-- The PDU that `send_concat_part` builds: the user data header stands before
the length octet. -/
def concatPdu (smsc : Option (List UInt8)) (number segText : List UInt8) (segLen : Nat)
    (refId totalParts partNum : UInt8) : Option (List UInt8) :=
  if strlen (skipPlus number) > 20 then none
  else
    let segLen := if segLen > gsm7ConcatMax then gsm7ConcatMax else segLen
    match atGsm7Encode (some (segText.take segLen)) (some (stk 153).bytes) with
    | .error _ => none
    | .ok (ud, udLen, nChars) =>
      some (smscField smsc ++ [0x41, 0x00] ++ daField number ++ [0x00, 0x00] ++
        [0x05, 0x00, 0x03, refId, totalParts, partNum] ++ [UInt8.ofNat (7 + nChars)] ++
        ud.take udLen)

/-- No segment is longer than a part holds. -/
theorem segLen_eq (segLen : Nat) :
    (if segLen > gsm7ConcatMax then gsm7ConcatMax else segLen) = min segLen 153 := by
  rw [gsm7ConcatMax]
  split <;> omega

theorem strlen_segment_le (segText : List UInt8) (segLen : Nat) :
    strlen (segText.take (min segLen 153)) ≤ 153 := by
  rw [strlen, cstr_take]
  exact Nat.le_trans (List.length_take_le _ _) (Nat.min_le_right _ _)

/-- The PDU of a part is built of its arguments, behind a segment that was encoded. -/
theorem concatPdu_encodes {smsc : Option (List UInt8)} {number segText : List UInt8} {segLen : Nat}
    {refId totalParts partNum : UInt8} {pdu : List UInt8}
    (h : concatPdu stk smsc number segText segLen refId totalParts partNum = some pdu) :
    ∃ ud udLen nChars, strlen (skipPlus number) ≤ 20 ∧
      atGsm7Encode (some (segText.take (min segLen 153))) (some (stk 153).bytes) =
        .ok (ud, udLen, nChars) ∧
      pdu = smscField smsc ++ ([0x41, 0x00] ++ daField number ++ [0x00, 0x00] ++
        [0x05, 0x00, 0x03, refId, totalParts, partNum] ++ [UInt8.ofNat (7 + nChars)] ++
        ud.take udLen) := by
  rw [concatPdu] at h
  split at h
  · exact nomatch h
  rename_i hdig
  dsimp only at h
  rw [segLen_eq] at h
  split at h
  · exact nomatch h
  rename_i ud udLen nChars henc
  refine ⟨ud, udLen, nChars, by omega, henc, ?_⟩
  rw [← Option.some.inj h]
  simp only [List.append_assoc]

/-- What the PDU of a part consists of. -/
theorem concatPdu_some {smsc : Option (List UInt8)} {number segText : List UInt8} {segLen : Nat}
    {refId totalParts partNum : UInt8} {pdu : List UInt8}
    (h : concatPdu stk smsc number segText segLen refId totalParts partNum = some pdu) :
    ∃ ud n, strlen (skipPlus number) ≤ 20 ∧ n = strlen (segText.take (min segLen 153)) ∧
      ud.length = packedLen n ∧
      pdu = smscField smsc ++ ([0x41, 0x00] ++ daField number ++ [0x00, 0x00] ++
        [0x05, 0x00, 0x03, refId, totalParts, partNum] ++ [UInt8.ofNat (7 + n)] ++ ud) := by
  obtain ⟨ud, udLen, nChars, hdig, henc, hpdu⟩ := concatPdu_encodes stk h
  obtain ⟨-, hud, rfl, rfl⟩ := atGsm7Encode_some henc
  exact ⟨_, _, hdig, rfl, hud, hpdu⟩

/-- A part is built when the number is short enough and its characters are in
the alphabet. -/
theorem exists_concatPdu {smsc : Option (List UInt8)} {number segText : List UInt8} {segLen : Nat}
    {refId totalParts partNum : UInt8} (hdig : strlen (skipPlus number) ≤ 20)
    (himg : (cstr segText).all gsm7Image = true) :
    ∃ pdu, concatPdu stk smsc number segText segLen refId totalParts partNum = some pdu := by
  have hlen := strlen_segment_le segText segLen
  have hall : (cstr (segText.take (min segLen 153))).all gsm7Image = true := by
    rw [cstr_take, List.all_eq_true]
    exact fun c hc => List.all_eq_true.mp himg c (List.mem_of_mem_take hc)
  have hfit : packedLen (strlen (segText.take (min segLen 153))) ≤ (stk 153).bytes.length := by
    rw [(stk 153).size, packedLen]
    omega
  obtain ⟨ud, -, henc⟩ := atGsm7Encode_eq_ok (by omega) hall hfit
  rw [concatPdu, if_neg (by omega)]
  dsimp only
  rw [segLen_eq, henc]
  exact ⟨_, rfl⟩

/-- `pdu[220]` holds the PDU. -/
theorem concatPdu_length {smsc : Option (List UInt8)} {number segText : List UInt8} {segLen : Nat}
    {refId totalParts partNum : UInt8} {pdu : List UInt8}
    (h : concatPdu stk smsc number segText segLen refId totalParts partNum = some pdu) :
    pdu.length < 220 := by
  obtain ⟨ud, n, hdig, hn, hud, rfl⟩ := concatPdu_some stk h
  have hsmsc := length_smscField_le smsc
  have hseg := strlen_segment_le segText segLen
  simp only [List.length_append, length_daField hdig, hud, packedLen, List.length_cons,
    List.length_nil]
  omega

/-- `send_concat_part`. -/
def sendConcatPart (smsc : Option (List UInt8)) (number segText : List UInt8) (segLen : Nat)
    (refId totalParts partNum : UInt8) : AtResult × Engine cfg :=
  match concatPdu stk smsc number segText segLen refId totalParts partNum with
  | none => (.errParam, g)
  | some pdu => sendPdu stk cb user g pdu 441

end Senders

/-! ## The loop over the parts -/

section Long

variable (stks : Nat → Stack) (cb : Option Ptr) (user : Ptr) (smsc : Option (List UInt8))
  (number text : List UInt8) (refId nParts : UInt8)

/-- The loop of `at_gsm_send_long`, with `rounds` parts to go. Each call of
`send_concat_part` finds a stack of its own. -/
def sendParts : (rounds i : Nat) → Engine cfg → AtResult × Engine cfg
  | 0, _, g => (.ok, g)
  | rounds + 1, i, g =>
    let offset := i * gsm7ConcatMax
    let segLen := strlen text - offset
    let segLen := if segLen > gsm7ConcatMax then gsm7ConcatMax else segLen
    match sendConcatPart (stks i) cb user g smsc number (text.drop offset) segLen refId nParts
      (UInt8.ofNat (i + 1)) with
    | (.ok, g') => sendParts rounds (i + 1) g'
    | (rc, g') => (rc, g')

end Long

/-- `at_gsm_send_long`. -/
def atGsmSendLong (stks : Nat → Stack) (cb : Option Ptr) (user : Ptr) (g : Engine cfg)
    (smsc number text : Option (List UInt8)) (refId : UInt8) : AtResult × Engine cfg :=
  match number, text with
  | some number, some text =>
    if !validatePhoneNumber (some number) then (.errParam, g)
    else
      let nParts := atGsmPartCount (some text)
      if nParts = 0 then (.errParam, g)
      else if nParts = 1 then atGsmCmgsPdu (stks 0) cb user g smsc (some number) (some text)
      else sendParts stks cb user smsc number text refId nParts nParts.toNat 0 g
  | _, _ => (.errParam, g)

end LibAt
