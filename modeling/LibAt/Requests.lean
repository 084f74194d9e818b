import LibAt.Gsm
import LibAt.Numerals
import LibAt.OwnAnswer

/-!
# Command helpers without strings (`at_gsm.c`)

The helpers whose arguments are numbers, or that have none: a fixed text for
`at_send_raw`, or a text built on a local array from a name and numerals.

A `Request` is a call of one of them. `Request.run_eq` says what all of them do:
a request that passes its check hands its line and its timeout to `at_send_raw`,
whatever the stack held, and any other changes nothing. A line is an AT name and
a list of numerals, so the modem can read it back (`Request.ofLine_line`), and no
two different requests look the same to it.
-/

namespace LibAt

variable {cfg : Config}

/-! ## The helpers -/

section Helpers

variable (stk : Stack) (cb : Option Ptr) (user : Ptr) (g : Engine cfg)

/-! ### General and identification -/

/-- `at_gsm_at`. -/
def atGsmAt : AtResult × Engine cfg := atSendRaw (ascii "AT") 0 cb user g

/-- `at_gsm_atz`. -/
def atGsmAtz : AtResult × Engine cfg := atSendRaw (ascii "ATZ") 2000 cb user g

/-- `at_gsm_gcap`. -/
def atGsmGcap : AtResult × Engine cfg := atSendRaw (ascii "AT+GCAP") 0 cb user g

/-- `at_gsm_echo`. -/
def atGsmEcho (enable : Bool) : AtResult × Engine cfg :=
  atSendRaw (if enable then ascii "ATE1" else ascii "ATE0") 0 cb user g

/-- `at_gsm_cmee`. -/
def atGsmCmee (mode : UInt8) : AtResult × Engine cfg :=
  sendBuilt (stk 12) [.str (ascii "AT+CMEE="), .u8 mode] 0 cb user g

/-- `at_gsm_imei`. -/
def atGsmImei : AtResult × Engine cfg := atSendRaw (ascii "AT+CGSN") 0 cb user g

/-- `at_gsm_cgsn`. -/
def atGsmCgsn : AtResult × Engine cfg := atSendRaw (ascii "AT+CGSN") 0 cb user g

/-- `at_gsm_imsi`. -/
def atGsmImsi : AtResult × Engine cfg := atSendRaw (ascii "AT+CIMI") 0 cb user g

/-- `at_gsm_cgmi`. -/
def atGsmCgmi : AtResult × Engine cfg := atSendRaw (ascii "AT+CGMI") 0 cb user g

/-- `at_gsm_cgmm`. -/
def atGsmCgmm : AtResult × Engine cfg := atSendRaw (ascii "AT+CGMM") 0 cb user g

/-- `at_gsm_cgmr`. -/
def atGsmCgmr : AtResult × Engine cfg := atSendRaw (ascii "AT+CGMR") 0 cb user g

/-- `at_gsm_ccid`. -/
def atGsmCcid : AtResult × Engine cfg := atSendRaw (ascii "AT+CCID") 0 cb user g

/-- `at_gsm_cnum`. -/
def atGsmCnum : AtResult × Engine cfg := atSendRaw (ascii "AT+CNUM") 0 cb user g

/-- `at_gsm_cscs_query`. -/
def atGsmCscsQuery : AtResult × Engine cfg := atSendRaw (ascii "AT+CSCS?") 0 cb user g

/-- `at_gsm_cpbs_query`. -/
def atGsmCpbsQuery : AtResult × Engine cfg := atSendRaw (ascii "AT+CPBS?") 0 cb user g

/-! ### Power and SIM -/

/-- `at_gsm_cfun`. -/
def atGsmCfun (fun_ rst : UInt8) : AtResult × Engine cfg :=
  sendBuilt (stk 16)
    ([.str (ascii "AT+CFUN="), .u8 fun_] ++ if rst ≠ 0 then [.char 44, .u8 rst] else [])
    (if fun_ = 1 ∧ rst = 1 then 10000 else 0) cb user g

/-- `at_gsm_cpin_query`. -/
def atGsmCpinQuery : AtResult × Engine cfg := atSendRaw (ascii "AT+CPIN?") 0 cb user g

/-! ### Network -/

/-- `at_gsm_creg_set`. -/
def atGsmCregSet (n : UInt8) : AtResult × Engine cfg :=
  sendBuilt (stk 12) [.str (ascii "AT+CREG="), .u8 n] 0 cb user g

/-- `at_gsm_cgreg_set`. -/
def atGsmCgregSet (n : UInt8) : AtResult × Engine cfg :=
  sendBuilt (stk 13) [.str (ascii "AT+CGREG="), .u8 n] 0 cb user g

/-- `at_gsm_cgreg_query`. -/
def atGsmCgregQuery : AtResult × Engine cfg := atSendRaw (ascii "AT+CGREG?") 0 cb user g

/-- `at_gsm_cereg_set`. -/
def atGsmCeregSet (n : UInt8) : AtResult × Engine cfg :=
  sendBuilt (stk 13) [.str (ascii "AT+CEREG="), .u8 n] 0 cb user g

/-- `at_gsm_cereg_query`. -/
def atGsmCeregQuery : AtResult × Engine cfg := atSendRaw (ascii "AT+CEREG?") 0 cb user g

/-- `at_gsm_cops_query`. -/
def atGsmCopsQuery : AtResult × Engine cfg := atSendRaw (ascii "AT+COPS?") 0 cb user g

/-- `at_gsm_cops_auto`. -/
def atGsmCopsAuto : AtResult × Engine cfg := atSendRaw (ascii "AT+COPS=0") 180000 cb user g

/-- `at_gsm_cpol_read`. -/
def atGsmCpolRead : AtResult × Engine cfg := atSendRaw (ascii "AT+CPOL?") 0 cb user g

/-- `at_gsm_csq`. -/
def atGsmCsq : AtResult × Engine cfg := atSendRaw (ascii "AT+CSQ") 0 cb user g

/-- `at_gsm_cesq`. -/
def atGsmCesq : AtResult × Engine cfg := atSendRaw (ascii "AT+CESQ") 0 cb user g

/-- `at_gsm_cclk_query`. -/
def atGsmCclkQuery : AtResult × Engine cfg := atSendRaw (ascii "AT+CCLK?") 0 cb user g

/-- `at_gsm_ctzu_set`. -/
def atGsmCtzuSet (enable : UInt8) : AtResult × Engine cfg :=
  if enable > 1 then (.errParam, g)
  else sendBuilt (stk 12) [.str (ascii "AT+CTZU="), .u8 enable] 0 cb user g

/-- `at_gsm_ctzu_query`. -/
def atGsmCtzuQuery : AtResult × Engine cfg := atSendRaw (ascii "AT+CTZU?") 0 cb user g

/-! ### Packet data -/

/-- `at_gsm_cgact`. -/
def atGsmCgact (cid : UInt8) (activate : Bool) : AtResult × Engine cfg :=
  sendBuilt (stk 20)
    [.str (ascii "AT+CGACT="), .u8 (if activate then 1 else 0), .char 44, .u8 cid]
    150000 cb user g

/-- `at_gsm_cgpaddr`. -/
def atGsmCgpaddr (cid : UInt8) : AtResult × Engine cfg :=
  sendBuilt (stk 18) [.str (ascii "AT+CGPADDR="), .u8 cid] 0 cb user g

/-- `at_gsm_cgatt`. -/
def atGsmCgatt (attach : UInt8) : AtResult × Engine cfg :=
  if attach > 1 then (.errParam, g)
  else sendBuilt (stk 14) [.str (ascii "AT+CGATT="), .u8 attach] 75000 cb user g

/-- `at_gsm_cgatt_query`. -/
def atGsmCgattQuery : AtResult × Engine cfg := atSendRaw (ascii "AT+CGATT?") 0 cb user g

/-! ### Short messages -/

/-- `at_gsm_cmgf`. -/
def atGsmCmgf (mode : UInt8) : AtResult × Engine cfg :=
  sendBuilt (stk 12) [.str (ascii "AT+CMGF="), .u8 mode] 0 cb user g

/-- `at_gsm_cmgr`. -/
def atGsmCmgr (index : UInt8) : AtResult × Engine cfg :=
  sendBuilt (stk 14) [.str (ascii "AT+CMGR="), .u8 index] 0 cb user g

/-- `at_gsm_cmgd`. -/
def atGsmCmgd (index delflag : UInt8) : AtResult × Engine cfg :=
  sendBuilt (stk 18) [.str (ascii "AT+CMGD="), .u8 index, .char 44, .u8 delflag] 25000 cb user g

/-- `at_gsm_cmgl`. -/
def atGsmCmgl (stat : UInt8) : AtResult × Engine cfg :=
  if stat > 4 then (.errParam, g)
  else sendBuilt (stk 16) [.str (ascii "AT+CMGL="), .u8 stat] 0 cb user g

/-- `at_gsm_cnmi`. -/
def atGsmCnmi (mode mt bm ds bfr : UInt8) : AtResult × Engine cfg :=
  sendBuilt (stk 24)
    [.str (ascii "AT+CNMI="), .u8 mode, .char 44, .u8 mt, .char 44, .u8 bm, .char 44, .u8 ds,
      .char 44, .u8 bfr] 0 cb user g

/-! ### Voice calls and supplementary services -/

/-- `at_gsm_answer`. -/
def atGsmAnswer : AtResult × Engine cfg := atSendRaw (ascii "ATA") 30000 cb user g

/-- `at_gsm_hangup`. -/
def atGsmHangup : AtResult × Engine cfg := atSendRaw (ascii "ATH") 0 cb user g

/-- `at_gsm_clcc`. -/
def atGsmClcc : AtResult × Engine cfg := atSendRaw (ascii "AT+CLCC") 0 cb user g

/-- `at_gsm_chld`. -/
def atGsmChld (n : UInt8) : AtResult × Engine cfg :=
  if n > 4 then (.errParam, g)
  else sendBuilt (stk 12) [.str (ascii "AT+CHLD="), .u8 n] 0 cb user g

/-- `at_gsm_clip_set`. -/
def atGsmClipSet (mode : UInt8) : AtResult × Engine cfg :=
  if mode > 1 then (.errParam, g)
  else sendBuilt (stk 12) [.str (ascii "AT+CLIP="), .u8 mode] 0 cb user g

/-- `at_gsm_clip_query`. -/
def atGsmClipQuery : AtResult × Engine cfg := atSendRaw (ascii "AT+CLIP?") 0 cb user g

/-- `at_gsm_clir_set`. -/
def atGsmClirSet (mode : UInt8) : AtResult × Engine cfg :=
  if mode > 2 then (.errParam, g)
  else sendBuilt (stk 12) [.str (ascii "AT+CLIR="), .u8 mode] 0 cb user g

/-- `at_gsm_clir_query`. -/
def atGsmClirQuery : AtResult × Engine cfg := atSendRaw (ascii "AT+CLIR?") 0 cb user g

/-- `at_gsm_ccwa_set`. -/
def atGsmCcwaSet (enable mode classX : UInt8) : AtResult × Engine cfg :=
  sendBuilt (stk 20)
    [.str (ascii "AT+CCWA="), .u8 enable, .char 44, .u8 mode, .char 44, .u8 classX] 0 cb user g

/-- `at_gsm_ccwa_query`. -/
def atGsmCcwaQuery : AtResult × Engine cfg := atSendRaw (ascii "AT+CCWA?") 0 cb user g

/-- `at_gsm_cusd_cancel`. -/
def atGsmCusdCancel : AtResult × Engine cfg := atSendRaw (ascii "AT+CUSD=2") 0 cb user g

/-- `at_gsm_clac`. -/
def atGsmClac : AtResult × Engine cfg := atSendRaw (ascii "AT+CLAC") 0 cb user g

/-- `at_gsm_ceer`. -/
def atGsmCeer : AtResult × Engine cfg := atSendRaw (ascii "AT+CEER") 0 cb user g

end Helpers

/-! ## Requests -/

/-- A call of one of these helpers. -/
inductive Request where
  | at | atz | gcap | echo (enable : Bool) | cmee (mode : UInt8)
  | imei | cgsn | imsi | cgmi | cgmm | cgmr | ccid | cnum | cscsQuery | cpbsQuery
  | cfun (fun_ rst : UInt8) | cpinQuery
  | cregSet (n : UInt8) | cregQuery | cgregSet (n : UInt8) | cgregQuery
  | ceregSet (n : UInt8) | ceregQuery
  | copsQuery | copsAuto | cpolRead | csq | cesq | cclkQuery
  | ctzuSet (enable : UInt8) | ctzuQuery
  | cgact (cid : UInt8) (activate : Bool) | cgpaddr (cid : UInt8)
  | cgatt (attach : UInt8) | cgattQuery
  | cmgf (mode : UInt8) | cmgr (index : UInt8) | cmgd (index delflag : UInt8)
  | cmgl (stat : UInt8) | cnmi (mode mt bm ds bfr : UInt8)
  | answer | hangup | clcc | chld (n : UInt8)
  | clipSet (mode : UInt8) | clipQuery | clirSet (mode : UInt8) | clirQuery
  | ccwaSet (enable mode classX : UInt8) | ccwaQuery | cusdCancel | clac | ceer
  deriving DecidableEq, Repr

namespace Request

/-- Make the call. -/
def run (q : Request) (stk : Stack) (cb : Option Ptr) (user : Ptr) (g : Engine cfg) :
    AtResult × Engine cfg :=
  match q with
  | .at => atGsmAt cb user g
  | atz => atGsmAtz cb user g
  | gcap => atGsmGcap cb user g
  | echo enable => atGsmEcho cb user g enable
  | cmee mode => atGsmCmee stk cb user g mode
  | imei => atGsmImei cb user g
  | cgsn => atGsmCgsn cb user g
  | imsi => atGsmImsi cb user g
  | cgmi => atGsmCgmi cb user g
  | cgmm => atGsmCgmm cb user g
  | cgmr => atGsmCgmr cb user g
  | ccid => atGsmCcid cb user g
  | cnum => atGsmCnum cb user g
  | cscsQuery => atGsmCscsQuery cb user g
  | cpbsQuery => atGsmCpbsQuery cb user g
  | cfun fun_ rst => atGsmCfun stk cb user g fun_ rst
  | cpinQuery => atGsmCpinQuery cb user g
  | cregSet n => atGsmCregSet stk cb user g n
  | cregQuery => atGsmCregQuery cb user g
  | cgregSet n => atGsmCgregSet stk cb user g n
  | cgregQuery => atGsmCgregQuery cb user g
  | ceregSet n => atGsmCeregSet stk cb user g n
  | ceregQuery => atGsmCeregQuery cb user g
  | copsQuery => atGsmCopsQuery cb user g
  | copsAuto => atGsmCopsAuto cb user g
  | cpolRead => atGsmCpolRead cb user g
  | csq => atGsmCsq cb user g
  | cesq => atGsmCesq cb user g
  | cclkQuery => atGsmCclkQuery cb user g
  | ctzuSet enable => atGsmCtzuSet stk cb user g enable
  | ctzuQuery => atGsmCtzuQuery cb user g
  | cgact cid activate => atGsmCgact stk cb user g cid activate
  | cgpaddr cid => atGsmCgpaddr stk cb user g cid
  | cgatt attach => atGsmCgatt stk cb user g attach
  | cgattQuery => atGsmCgattQuery cb user g
  | cmgf mode => atGsmCmgf stk cb user g mode
  | cmgr index => atGsmCmgr stk cb user g index
  | cmgd index delflag => atGsmCmgd stk cb user g index delflag
  | cmgl stat => atGsmCmgl stk cb user g stat
  | cnmi mode mt bm ds bfr => atGsmCnmi stk cb user g mode mt bm ds bfr
  | answer => atGsmAnswer cb user g
  | hangup => atGsmHangup cb user g
  | clcc => atGsmClcc cb user g
  | chld n => atGsmChld stk cb user g n
  | clipSet mode => atGsmClipSet stk cb user g mode
  | clipQuery => atGsmClipQuery cb user g
  | clirSet mode => atGsmClirSet stk cb user g mode
  | clirQuery => atGsmClirQuery cb user g
  | ccwaSet enable mode classX => atGsmCcwaSet stk cb user g enable mode classX
  | ccwaQuery => atGsmCcwaQuery cb user g
  | cusdCancel => atGsmCusdCancel cb user g
  | clac => atGsmClac cb user g
  | ceer => atGsmCeer cb user g

/-! ### What a request says -/

/-- The AT name, up to the first number. -/
def verb : Request → List UInt8
  | .at => ascii "AT"
  | atz => ascii "ATZ"
  | gcap => ascii "AT+GCAP"
  | echo _ => ascii "ATE"
  | cmee _ => ascii "AT+CMEE="
  | imei | cgsn => ascii "AT+CGSN"
  | imsi => ascii "AT+CIMI"
  | cgmi => ascii "AT+CGMI"
  | cgmm => ascii "AT+CGMM"
  | cgmr => ascii "AT+CGMR"
  | ccid => ascii "AT+CCID"
  | cnum => ascii "AT+CNUM"
  | cscsQuery => ascii "AT+CSCS?"
  | cpbsQuery => ascii "AT+CPBS?"
  | cfun _ _ => ascii "AT+CFUN="
  | cpinQuery => ascii "AT+CPIN?"
  | cregSet _ => ascii "AT+CREG="
  | cregQuery => ascii "AT+CREG?"
  | cgregSet _ => ascii "AT+CGREG="
  | cgregQuery => ascii "AT+CGREG?"
  | ceregSet _ => ascii "AT+CEREG="
  | ceregQuery => ascii "AT+CEREG?"
  | copsQuery => ascii "AT+COPS?"
  | copsAuto => ascii "AT+COPS="
  | cpolRead => ascii "AT+CPOL?"
  | csq => ascii "AT+CSQ"
  | cesq => ascii "AT+CESQ"
  | cclkQuery => ascii "AT+CCLK?"
  | ctzuSet _ => ascii "AT+CTZU="
  | ctzuQuery => ascii "AT+CTZU?"
  | cgact _ _ => ascii "AT+CGACT="
  | cgpaddr _ => ascii "AT+CGPADDR="
  | cgatt _ => ascii "AT+CGATT="
  | cgattQuery => ascii "AT+CGATT?"
  | cmgf _ => ascii "AT+CMGF="
  | cmgr _ => ascii "AT+CMGR="
  | cmgd _ _ => ascii "AT+CMGD="
  | cmgl _ => ascii "AT+CMGL="
  | cnmi .. => ascii "AT+CNMI="
  | answer => ascii "ATA"
  | hangup => ascii "ATH"
  | clcc => ascii "AT+CLCC"
  | chld _ => ascii "AT+CHLD="
  | clipSet _ => ascii "AT+CLIP="
  | clipQuery => ascii "AT+CLIP?"
  | clirSet _ => ascii "AT+CLIR="
  | clirQuery => ascii "AT+CLIR?"
  | ccwaSet .. => ascii "AT+CCWA="
  | ccwaQuery => ascii "AT+CCWA?"
  | cusdCancel => ascii "AT+CUSD="
  | clac => ascii "AT+CLAC"
  | ceer => ascii "AT+CEER"

/-- The numbers behind it. -/
def args : Request → List UInt8
  | echo enable => [if enable then 1 else 0]
  | cfun fun_ rst => if rst ≠ 0 then [fun_, rst] else [fun_]
  | copsAuto => [0]
  | cgact cid activate => [if activate then 1 else 0, cid]
  | cusdCancel => [2]
  | cmee v | cregSet v | cgregSet v | ceregSet v | ctzuSet v | cgpaddr v | cgatt v | cmgf v
  | cmgr v | cmgl v | chld v | clipSet v | clirSet v => [v]
  | cmgd index delflag => [index, delflag]
  | cnmi mode mt bm ds bfr => [mode, mt, bm, ds, bfr]
  | ccwaSet enable mode classX => [enable, mode, classX]
  | _ => []

theorem args_cfun {fun_ rst : UInt8} (h : rst ≠ 0) : (cfun fun_ rst).args = [fun_, rst] :=
  if_pos h

theorem args_cfun_zero {fun_ rst : UInt8} (h : rst = 0) : (cfun fun_ rst).args = [fun_] :=
  if_neg (not_not.mpr h)

/-- The command line of a request. -/
def line (q : Request) : List UInt8 := q.verb ++ numerals (q.args.map UInt8.toNat)

/-- The timeout a request asks for; 0 is the default. -/
def timeoutMs : Request → Nat
  | atz => 2000
  | cfun fun_ rst => if fun_ = 1 ∧ rst = 1 then 10000 else 0
  | copsAuto => 180000
  | cgact _ _ => 150000
  | cgatt _ => 75000
  | cmgd _ _ => 25000
  | answer => 30000
  | _ => 0

/-- The checks of the arguments. Of the lines, only that of `cnmi` can be too long
for the array it is built in. -/
def accepted : Request → Bool
  | ctzuSet v | cgatt v | clipSet v => decide (v ≤ 1)
  | clirSet v => decide (v ≤ 2)
  | cmgl v | chld v => decide (v ≤ 4)
  | cnmi mode mt bm ds bfr => decide ((cnmi mode mt bm ds bfr).line.length < 24)
  | _ => true

end Request

/-! ## What a request does -/

section

variable {cb : Option Ptr} {user : Ptr} {g : Engine cfg}

/-- `at_send_raw` reads its argument up to the terminator. -/
theorem atSendRaw_cstr {m m' : List UInt8} (h : cstr m = cstr m') (t : Nat) :
    atSendRaw m t cb user g = atSendRaw m' t cb user g := by
  have hcopy : strCopySafe cfg.tx_pos m = strCopySafe cfg.tx_pos m' := by
    simp only [strCopySafe, CString.copy, h]
  have hentry : cmdEntryOf cfg (rawDesc m t cb user) = cmdEntryOf cfg (rawDesc m' t cb user) :=
    congrArg (fun c => { cmdEntryOf cfg (rawDesc m' t cb user) with cmd := c }) hcopy
  simp only [atSendRaw, atSend, hentry]
  simp only [rawDesc, Option.getD_some, h]
  rfl

/-- A text built on a local array is sent if it fits. -/
theorem sendBuilt_eq {n : Nat} (hn : 0 < n) (buf : Local n) {items : List AbItem}
    (hwf : AbItem.char 0 ∉ items) {m : List UInt8} (hm : AbItem.texts items = m) (t : Nat) :
    sendBuilt buf items t cb user g =
      if m.length < n then atSendRaw m t cb user g else (.errParam, g) := by
  have hok := Ab.appends_ok_iff hn buf items
  rw [hm] at hok
  rw [sendBuilt]
  by_cases hlt : m.length < n
  · have hdone := Ab.appends_done hn hwf (hok.mpr hlt)
    have h0 : (0 : UInt8) ∉ m := hm ▸ AbItem.zero_notMem_texts hwf
    rw [if_pos (hok.mpr hlt), if_pos hlt]
    exact atSendRaw_cstr (by rw [hdone, hm, cstr_eq_self h0]) t
  · rw [if_neg (mt hok.mp hlt), if_neg hlt]

namespace Request

/-- Each number takes up to three digits, and a comma between it and the next one. -/
theorem length_line_lt {q : Request} (hargs : q.args ≠ []) :
    q.line.length < q.verb.length + 4 * q.args.length := by
  have hlt : (numerals (q.args.map UInt8.toNat)).length < 4 * (q.args.map UInt8.toNat).length := by
    refine length_numerals_lt (fun hnil => hargs (List.map_eq_nil_iff.mp hnil)) fun v hv => ?_
    obtain ⟨b, -, rfl⟩ := List.mem_map.mp hv
    exact b.toNat_lt
  rw [List.length_map] at hlt
  rw [line, List.length_append]
  omega

/-- The items behind a name: the numbers, with commas between them. -/
def numberItems : List UInt8 → List AbItem
  | [] => []
  | [v] => [.u8 v]
  | v :: w :: vs => .u8 v :: .char 44 :: numberItems (w :: vs)

theorem texts_numberItems (vs : List UInt8) :
    AbItem.texts (numberItems vs) = numerals (vs.map UInt8.toNat) := by
  induction vs using numberItems.induct with
  | case1 => rfl
  | case2 v => simp [numberItems, AbItem.text]
  | case3 v w vs ih =>
    rw [numberItems, AbItem.texts_cons, AbItem.texts_cons, ih]
    simp [AbItem.text, numerals_cons_cons]

theorem zero_notMem_numberItems (vs : List UInt8) : AbItem.char 0 ∉ numberItems vs := by
  induction vs using numberItems.induct with
  | case1 => exact List.not_mem_nil
  | case2 v => simp [numberItems]
  | case3 v w vs ih => simp [numberItems, ih]

/-- A line with numbers is the name and the numbers. -/
theorem texts_line (q : Request) (name vs : List UInt8) (hverb : q.verb = name)
    (hargs : q.args = vs) (h0 : (0 : UInt8) ∉ name) :
    AbItem.texts (.str name :: numberItems vs) = q.line := by
  rw [AbItem.texts_cons, texts_numberItems, AbItem.text, cstr_eq_self h0, line, hverb, hargs]

/-- A line with numbers, on an array that is long enough for any numbers. -/
theorem sendBuilt_numbers (q : Request) (name vs : List UInt8) (hverb : q.verb = name)
    (hargs : q.args = vs) (hne : vs ≠ []) (h0 : (0 : UInt8) ∉ name) {n : Nat}
    (hfits : name.length + 4 * vs.length ≤ n) (buf : Local n) (t : Nat) :
    sendBuilt buf (.str name :: numberItems vs) t cb user g = atSendRaw q.line t cb user g := by
  have hlt := length_line_lt (q := q) (hargs ▸ hne)
  rw [hverb, hargs] at hlt
  rw [sendBuilt_eq (by omega) buf (by simp [zero_notMem_numberItems])
    (texts_line q name vs hverb hargs h0), if_pos (by omega)]

/-- A line with one number. -/
theorem sendBuilt_number (q : Request) {name : List UInt8} {v : UInt8} (hverb : q.verb = name)
    (hargs : q.args = [v]) (h0 : (0 : UInt8) ∉ name) {n : Nat} (hfits : name.length + 4 ≤ n)
    (buf : Local n) (t : Nat) :
    sendBuilt buf [.str name, .u8 v] t cb user g = atSendRaw q.line t cb user g :=
  sendBuilt_numbers q name [v] hverb hargs (List.cons_ne_nil _ _) h0 hfits buf t

/-- A helper that refuses arguments above a bound. -/
theorem unguarded {α : Type} {v bound : UInt8} (h : decide (v ≤ bound) = true) {x y y' : α}
    (hy : y = y') : (if v > bound then x else y) = y' :=
  (if_neg (UInt8.not_lt.mpr (of_decide_eq_true h))).trans hy

theorem guarded {α : Type} {v bound : UInt8} (h : decide (v ≤ bound) = false) (x y : α) :
    (if v > bound then x else y) = x :=
  if_pos (UInt8.not_le.mp (of_decide_eq_false h))

/-- A request that passes its check is one `at_send_raw`, whatever the stack held. -/
theorem run_accepted {q : Request} (h : q.accepted = true) (stk : Stack) :
    q.run stk cb user g = atSendRaw q.line q.timeoutMs cb user g := by
  cases q with
  | cnmi mode mt bm ds bfr =>
    -- the one array that is too short for some numbers
    have hline := texts_line (cnmi mode mt bm ds bfr) (ascii "AT+CNMI=") [mode, mt, bm, ds, bfr]
      (by rfl) (by rfl) (by decide)
    refine (sendBuilt_eq (by decide) _ ?_ hline 0).trans (if_pos (of_decide_eq_true h))
    simp [zero_notMem_numberItems]
  | cfun fun_ rst =>
    by_cases h : rst = 0
    · rw [run, atGsmCfun, if_neg (not_not.mpr h)]
      exact sendBuilt_number (cfun fun_ rst) (by rfl) (args_cfun_zero h) (by decide) (by decide) _ _
    · rw [run, atGsmCfun, if_pos h]
      exact sendBuilt_numbers (cfun fun_ rst) (ascii "AT+CFUN=") [fun_, rst] (by rfl)
        (args_cfun h) (List.cons_ne_nil _ _) (by decide) (Nat.le_of_ble_eq_true rfl) _ _
  | cgact cid activate =>
    exact sendBuilt_numbers (cgact cid activate) (ascii "AT+CGACT=") [if activate then 1 else 0, cid]
      (by rfl) (by rfl) (List.cons_ne_nil _ _) (by decide) (Nat.le_of_ble_eq_true rfl) _ _
  | cmgd index delflag =>
    exact sendBuilt_numbers (cmgd index delflag) (ascii "AT+CMGD=") [index, delflag]
      (by rfl) (by rfl) (List.cons_ne_nil _ _) (by decide) (Nat.le_of_ble_eq_true rfl) _ _
  | ccwaSet enable mode classX =>
    exact sendBuilt_numbers (ccwaSet enable mode classX) (ascii "AT+CCWA=") [enable, mode, classX]
      (by rfl) (by rfl) (List.cons_ne_nil _ _) (by decide) (Nat.le_of_ble_eq_true rfl) _ _
  | ctzuSet v =>
    refine unguarded h ?_
    exact sendBuilt_number (ctzuSet v) (by rfl) (by rfl) (by decide) (by decide) _ _
  | cgatt v =>
    refine unguarded h ?_
    exact sendBuilt_number (cgatt v) (by rfl) (by rfl) (by decide) (by decide) _ _
  | cmgl v =>
    refine unguarded h ?_
    exact sendBuilt_number (cmgl v) (by rfl) (by rfl) (by decide) (by decide) _ _
  | chld v =>
    refine unguarded h ?_
    exact sendBuilt_number (chld v) (by rfl) (by rfl) (by decide) (by decide) _ _
  | clipSet v =>
    refine unguarded h ?_
    exact sendBuilt_number (clipSet v) (by rfl) (by rfl) (by decide) (by decide) _ _
  | clirSet v =>
    refine unguarded h ?_
    exact sendBuilt_number (clirSet v) (by rfl) (by rfl) (by decide) (by decide) _ _
  | cmee v => exact sendBuilt_number (cmee v) (by rfl) (by rfl) (by decide) (by decide) _ _
  | cregSet v => exact sendBuilt_number (cregSet v) (by rfl) (by rfl) (by decide) (by decide) _ _
  | cgregSet v => exact sendBuilt_number (cgregSet v) (by rfl) (by rfl) (by decide) (by decide) _ _
  | ceregSet v => exact sendBuilt_number (ceregSet v) (by rfl) (by rfl) (by decide) (by decide) _ _
  | cgpaddr v => exact sendBuilt_number (cgpaddr v) (by rfl) (by rfl) (by decide) (by decide) _ _
  | cmgf v => exact sendBuilt_number (cmgf v) (by rfl) (by rfl) (by decide) (by decide) _ _
  | cmgr v => exact sendBuilt_number (cmgr v) (by rfl) (by rfl) (by decide) (by decide) _ _
  | echo enable => cases enable <;> rfl
  | _ => rfl

/-- A request that fails its check changes nothing. -/
theorem run_refused {q : Request} (h : q.accepted = false) (stk : Stack) :
    q.run stk cb user g = (.errParam, g) := by
  cases q with
  | cnmi mode mt bm ds bfr =>
    have hline := texts_line (cnmi mode mt bm ds bfr) (ascii "AT+CNMI=") [mode, mt, bm, ds, bfr]
      (by rfl) (by rfl) (by decide)
    refine (sendBuilt_eq (by decide) _ ?_ hline 0).trans (if_neg (of_decide_eq_false h))
    simp [zero_notMem_numberItems]
  | ctzuSet v | cgatt v | cmgl v | chld v | clipSet v | clirSet v => exact guarded h _ _
  | _ => cases h

/-- **What the helpers do.** A request that passes its check is one `at_send_raw` of
its line with its timeout, whatever the stack held; any other changes nothing. -/
theorem run_eq (q : Request) (stk : Stack) (cb : Option Ptr) (user : Ptr) (g : Engine cfg) :
    q.run stk cb user g =
      if q.accepted then atSendRaw q.line q.timeoutMs cb user g else (.errParam, g) := by
  split
  · rename_i h
    exact run_accepted h stk
  · rename_i h
    exact run_refused (Bool.eq_false_of_not_eq_true h) stk

end Request

end

/-! ## What the modem reads -/

namespace Request

/-- A request without numbers. -/
def plain (q : Request) : List UInt8 → Option Request
  | [] => some q
  | _ => none

/-- A request with one number. -/
def number (f : UInt8 → Request) : List UInt8 → Option Request
  | [v] => some (f v)
  | _ => none

/-- The names, and what is requested by each with the numbers behind it. -/
def names : List (List UInt8 × (List UInt8 → Option Request)) :=
  [(ascii "AT", plain .at),
   (ascii "ATZ", plain atz),
   (ascii "AT+GCAP", plain gcap),
   (ascii "AT+CGSN", plain imei),
   (ascii "AT+CIMI", plain imsi),
   (ascii "AT+CGMI", plain cgmi),
   (ascii "AT+CGMM", plain cgmm),
   (ascii "AT+CGMR", plain cgmr),
   (ascii "AT+CCID", plain ccid),
   (ascii "AT+CNUM", plain cnum),
   (ascii "AT+CSCS?", plain cscsQuery),
   (ascii "AT+CPBS?", plain cpbsQuery),
   (ascii "AT+CPIN?", plain cpinQuery),
   (ascii "AT+CREG?", plain cregQuery),
   (ascii "AT+CGREG?", plain cgregQuery),
   (ascii "AT+CEREG?", plain ceregQuery),
   (ascii "AT+COPS?", plain copsQuery),
   (ascii "AT+CPOL?", plain cpolRead),
   (ascii "AT+CSQ", plain csq),
   (ascii "AT+CESQ", plain cesq),
   (ascii "AT+CCLK?", plain cclkQuery),
   (ascii "AT+CTZU?", plain ctzuQuery),
   (ascii "AT+CGATT?", plain cgattQuery),
   (ascii "ATA", plain answer),
   (ascii "ATH", plain hangup),
   (ascii "AT+CLCC", plain clcc),
   (ascii "AT+CLIP?", plain clipQuery),
   (ascii "AT+CLIR?", plain clirQuery),
   (ascii "AT+CCWA?", plain ccwaQuery),
   (ascii "AT+CLAC", plain clac),
   (ascii "AT+CEER", plain ceer),
   (ascii "AT+CMEE=", number cmee),
   (ascii "AT+CREG=", number cregSet),
   (ascii "AT+CGREG=", number cgregSet),
   (ascii "AT+CEREG=", number ceregSet),
   (ascii "AT+CTZU=", number ctzuSet),
   (ascii "AT+CGPADDR=", number cgpaddr),
   (ascii "AT+CGATT=", number cgatt),
   (ascii "AT+CMGF=", number cmgf),
   (ascii "AT+CMGR=", number cmgr),
   (ascii "AT+CMGL=", number cmgl),
   (ascii "AT+CHLD=", number chld),
   (ascii "AT+CLIP=", number clipSet),
   (ascii "AT+CLIR=", number clirSet),
   (ascii "ATE", number fun v => echo (v == 1)),
   (ascii "AT+CFUN=", fun | [v] => some (cfun v 0) | [v, rst] => some (cfun v rst) | _ => none),
   (ascii "AT+COPS=", fun | [0] => some copsAuto | _ => none),
   (ascii "AT+CUSD=", fun | [2] => some cusdCancel | _ => none),
   (ascii "AT+CGACT=", fun | [act, cid] => some (cgact cid (act == 1)) | _ => none),
   (ascii "AT+CMGD=", fun | [index, delflag] => some (cmgd index delflag) | _ => none),
   (ascii "AT+CNMI=", fun | [mode, mt, bm, ds, bfr] => some (cnmi mode mt bm ds bfr) | _ => none),
   (ascii "AT+CCWA=", fun | [a, mode, classX] => some (ccwaSet a mode classX) | _ => none)]

/-- The request that a command line makes. -/
def ofLine (m : List UInt8) : Option Request :=
  let (name, vs) := readLine m
  if vs.all (· < 256) then (names.lookup name).bind (· (vs.map UInt8.ofNat)) else none

/-- `at_gsm_cgsn` is another name for `at_gsm_imei`. -/
def canonical : Request → Request
  | cgsn => imei
  | q => q

/-- Each name is found in the table. -/
theorem lookup_verb (q : Request) : (names.lookup q.verb).bind (· q.args) = some q.canonical := by
  cases q with
  | echo enable | cgact cid enable => cases enable <;> rfl
  | cfun fun_ rst =>
    by_cases h : rst = 0
    · rw [args_cfun_zero h, h]
      rfl
    · rw [args_cfun h]
      rfl
  | _ => rfl

/-- **The modem can read every request**, so that it can tell any two apart, except for
the two names of one. -/
theorem ofLine_line (q : Request) : ofLine q.line = some q.canonical := by
  have hname : q.verb.all noDigit = true := by
    cases q <;> rfl
  have hargs : (q.args.map UInt8.toNat).map UInt8.ofNat = q.args := by
    simp [List.map_map, Function.comp_def]
  have hsmall : (q.args.map UInt8.toNat).all (· < 256) = true := by
    rw [List.all_map, List.all_eq_true]
    exact fun b _ => decide_eq_true b.toNat_lt
  rw [ofLine, line, readLine_line hname]
  dsimp only
  rw [if_pos hsmall, hargs, lookup_verb]

end Request

end LibAt
