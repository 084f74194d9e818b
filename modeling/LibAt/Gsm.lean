import LibAt.Builder
import LibAt.Engine

/-!
# Command helpers (`at_gsm.c`)

The helpers that take strings from the caller. Each checks what it checks,
builds its command on a local array, and hands it to `at_send` or
`at_send_raw`. `stk` is what the local arrays hold before.

The loops over `const char *p` that reject a string are tests on all bytes
before its terminator.
-/

namespace LibAt

variable {cfg : Config}

/-! ## Checks -/

/-- `validate_phone_number`: the test on one character. -/
def isDialChar (c : UInt8) : Bool :=
  isDigit c || c == 43 || c == 42 || c == 35 || c == 44 || c == 59

/-- `validate_phone_number`. -/
def validatePhoneNumber : Option (List UInt8) → Bool
  | none => false
  | some number => cstr number != [] && (cstr number).all isDialChar

/-- The check loop that `cscs_set`, `cpbs_set`, `cpol_write` and `cpms` share:
no control character and no double quote. -/
def isPrintable (m : List UInt8) : Bool :=
  (cstr m).all fun c => !(c < 0x20 || c == 34 || c == 13 || c == 10)

/-- The check loop of `vts`. -/
def isDtmf (m : List UInt8) : Bool :=
  (cstr m).all fun c =>
    isDigit c || c == 42 || c == 35 || (65 ≤ c && c ≤ 68) || (97 ≤ c && c ≤ 100)

/-- The check loop of `crsm`. -/
def isHex (m : List UInt8) : Bool :=
  (cstr m).all fun c => isDigit c || (65 ≤ c && c ≤ 70) || (97 ≤ c && c ≤ 102)

/-! ## Building and sending -/

/-- `if (!AB_OK()) return AT_ERR_PARAM; return at_send_raw(AB_DONE(), ...);`
behind a chain of appends on `buf`. -/
def sendBuilt {n : Nat} (buf : Local n) (items : List AbItem) (timeoutMs : Nat)
    (cb : Option Ptr) (user : Ptr) (g : Engine cfg) : AtResult × Engine cfg :=
  let b := (Ab.init buf.bytes).appends items
  if b.ok then atSendRaw b.done timeoutMs cb user g else (.errParam, g)

/-- `if (s && s[0]) { AB_CHAR(','); AB_QSTR(s); }`. -/
def optQstr : Option (List UInt8) → List AbItem
  | none => []
  | some m => if cstr m = [] then [] else [.char 44, .qstr m]

section Helpers

variable (stk : Stack) (cb : Option Ptr) (user : Ptr) (g : Engine cfg)

/-! ## Character set and phonebook -/

/-- `at_gsm_cscs_set`. -/
def atGsmCscsSet (charset : Option (List UInt8)) : AtResult × Engine cfg :=
  match charset with
  | none => (.errParam, g)
  | some charset =>
    if cstr charset = [] then (.errParam, g)
    else if !isPrintable charset then (.errParam, g)
    else sendBuilt (stk 24) [.str (ascii "AT+CSCS=\""), .str charset, .char 34] 0 cb user g

/-- `at_gsm_cpbs_set`. -/
def atGsmCpbsSet (storage : Option (List UInt8)) : AtResult × Engine cfg :=
  match storage with
  | none => (.errParam, g)
  | some storage =>
    if cstr storage = [] then (.errParam, g)
    else if !isPrintable storage then (.errParam, g)
    else sendBuilt (stk 20) [.str (ascii "AT+CPBS=\""), .str storage, .char 34] 0 cb user g

/-! ## SIM and security -/

/-- `at_gsm_cpin_enter`. -/
def atGsmCpinEnter (pin : Option (List UInt8)) : AtResult × Engine cfg :=
  match pin with
  | none => (.errParam, g)
  | some pin =>
    if strlen pin > 8 then (.errParam, g)
    else sendBuilt (stk 20) [.str (ascii "AT+CPIN="), .qstr pin] 5000 cb user g

/-- `at_gsm_cpin_puk`. -/
def atGsmCpinPuk (puk newPin : Option (List UInt8)) : AtResult × Engine cfg :=
  match puk, newPin with
  | some puk, some newPin =>
    sendBuilt (stk 32) [.str (ascii "AT+CPIN="), .qstr puk, .char 44, .qstr newPin] 5000 cb user g
  | _, _ => (.errParam, g)

/-- `at_gsm_clck_query`. -/
def atGsmClckQuery (fac : Option (List UInt8)) : AtResult × Engine cfg :=
  match fac with
  | none => (.errParam, g)
  | some fac =>
    sendBuilt (stk 20) [.str (ascii "AT+CLCK="), .qstr fac, .str (ascii ",2")] 0 cb user g

/-- `at_gsm_clck_set`. -/
def atGsmClckSet (fac : Option (List UInt8)) (mode : UInt8) (passwd : Option (List UInt8)) :
    AtResult × Engine cfg :=
  match fac with
  | none => (.errParam, g)
  | some fac =>
    sendBuilt (stk 40)
      ([.str (ascii "AT+CLCK="), .qstr fac, .char 44, .u8 mode] ++ optQstr passwd) 30000 cb user g

/-- `at_gsm_cpwd`. -/
def atGsmCpwd (fac oldPw newPw : Option (List UInt8)) : AtResult × Engine cfg :=
  match fac, oldPw, newPw with
  | some fac, some oldPw, some newPw =>
    sendBuilt (stk 56)
      [.str (ascii "AT+CPWD="), .qstr fac, .char 44, .qstr oldPw, .char 44, .qstr newPw] 0 cb user g
  | _, _, _ => (.errParam, g)

/-! ## Network -/

/-- `at_gsm_cops_manual`. -/
def atGsmCopsManual (oper : Option (List UInt8)) (act : UInt8) : AtResult × Engine cfg :=
  match oper with
  | none => (.errParam, g)
  | some oper =>
    sendBuilt (stk 40) [.str (ascii "AT+COPS=1,2,"), .qstr oper, .char 44, .u8 act] 180000 cb user g

/-- `at_gsm_cpol_write`. -/
def atGsmCpolWrite (idx fmt : UInt8) (oper : Option (List UInt8)) : AtResult × Engine cfg :=
  match oper with
  | none => (.errParam, g)
  | some oper =>
    if cstr oper = [] then (.errParam, g)
    else if fmt > 2 then (.errParam, g)
    else if !isPrintable oper then (.errParam, g)
    else sendBuilt (stk 48)
      [.str (ascii "AT+CPOL="), .u8 idx, .char 44, .u8 fmt, .char 44, .qstr oper] 0 cb user g

/-- `at_gsm_cclk_set`. -/
def atGsmCclkSet (timeStr : Option (List UInt8)) : AtResult × Engine cfg :=
  match timeStr with
  | none => (.errParam, g)
  | some timeStr => sendBuilt (stk 40) [.str (ascii "AT+CCLK="), .qstr timeStr] 0 cb user g

/-- `at_cgdcont_t`. -/
structure Cgdcont where
  cid : UInt8
  pdpType : CString 8
  apn : CString 64
  addr : CString 40

/-- `at_gsm_cgdcont`. -/
def atGsmCgdcont (ctx : Option Cgdcont) : AtResult × Engine cfg :=
  match ctx with
  | none => (.errParam, g)
  | some ctx =>
    sendBuilt (stk 160)
      ([.str (ascii "AT+CGDCONT="), .u8 ctx.cid, .char 44, .qstr ctx.pdpType.bytes, .char 44,
        .qstr ctx.apn.bytes] ++ optQstr (some ctx.addr.bytes)) 0 cb user g

/-! ## Short messages -/

/-- `at_gsm_cmgs`. -/
def atGsmCmgs (number text : Option (List UInt8)) : AtResult × Engine cfg :=
  match number, text with
  | some number, some text =>
    if !validatePhoneNumber (some number) then (.errParam, g)
    else if strlen number > 15 then (.errParam, g)
    else if strlen text > 160 then (.errParam, g)
    else
      let b := (Ab.init (stk 32).bytes).appends [.str (ascii "AT+CMGS="), .qstr number]
      if b.ok then
        atSend (some ⟨some b.done, some text, cfg.promptTimeoutMs, .sms, cb, user⟩) g
      else (.errParam, g)
  | _, _ => (.errParam, g)

/-- `at_gsm_cpms`: only `mem1` is checked. -/
def atGsmCpms (mem1 mem2 mem3 : Option (List UInt8)) : AtResult × Engine cfg :=
  match mem1 with
  | none => (.errParam, g)
  | some mem1 =>
    if cstr mem1 = [] then (.errParam, g)
    else if !isPrintable mem1 then (.errParam, g)
    else sendBuilt (stk 48)
      ([.str (ascii "AT+CPMS="), .qstr mem1] ++ optQstr mem2 ++ optQstr mem3) 0 cb user g

/-! ## Voice calls -/

/-- `at_gsm_dial`. -/
def atGsmDial (number : Option (List UInt8)) (voice : Bool) : AtResult × Engine cfg :=
  match number with
  | none => (.errParam, g)
  | some number =>
    if !validatePhoneNumber (some number) then (.errParam, g)
    else sendBuilt (stk 32)
      ([.str (ascii "ATD"), .str number] ++ if voice then [.char 59] else []) 30000 cb user g

/-- `at_gsm_vts`. -/
def atGsmVts (tones : Option (List UInt8)) : AtResult × Engine cfg :=
  match tones with
  | none => (.errParam, g)
  | some tones =>
    if cstr tones = [] then (.errParam, g)
    else if !isDtmf tones then (.errParam, g)
    else sendBuilt (stk 32) [.str (ascii "AT+VTS="), .str tones] 0 cb user g

/-! ## Supplementary services and SIM files -/

/-- The digits `at_gsm_crsm` writes for `fileid`:
`do { fid[--pos] = '0' + v % 10; v /= 10; } while (v);` backwards from `fid[7]`. -/
def fileidDigits (fileid : UInt16) : List UInt8 :=
  (asciiDigit (fileid.toNat % 10) :: lsdDigits 6 (fileid.toNat / 10)).reverse

/-- `at_gsm_crsm`. -/
def atGsmCrsm (command : UInt8) (fileid : UInt16) (p1 p2 p3 : UInt8)
    (data : Option (List UInt8)) : AtResult × Engine cfg :=
  if !isHex (data.getD []) then (.errParam, g)
  else sendBuilt (stk 96)
    ([.str (ascii "AT+CRSM="), .u8 command, .char 44, .str (fileidDigits fileid), .char 44,
      .u8 p1, .char 44, .u8 p2, .char 44, .u8 p3] ++ optQstr data) 0 cb user g

/-- `at_gsm_cusd`. -/
def atGsmCusd (ussdStr : Option (List UInt8)) (dcs : UInt8) : AtResult × Engine cfg :=
  match ussdStr with
  | none => (.errParam, g)
  | some ussdStr =>
    sendBuilt (stk 80) [.str (ascii "AT+CUSD=1,"), .qstr ussdStr, .char 44, .u8 dcs] 30000 cb user g

end Helpers

end LibAt
