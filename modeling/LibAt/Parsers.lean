import LibAt.Builder
import LibAt.Engine
import LibAt.Faults

/-!
# The response parsers, checked

The parsers of `at_gsm.c` and the integer parsers of `at_fmt.h` that they are made
of, with every access to memory and every signed operation checked (`Checked.M`).
They take whatever a modem has answered: a line is a NUL-terminated string, and
`resp->lines[i]` is the pointer to its first byte.

A `char **p` parameter is a pointer that is taken and given back. `!resp` and
`!out` are the pointers that are `none`, and `out` comes back as the parser leaves
it, whether it returns `true` or `false`.
-/

namespace LibAt

/-! ## Parsed structures -/

/-- `at_csq_t`. -/
structure Csq where
  rssiDbm : Int16
  ber : UInt8
  deriving DecidableEq

/-- `at_cesq_t`. -/
structure Cesq where
  rxlev : Int16
  ber : UInt8
  rscp : Int16
  ecno : Int16
  rsrq : Int16
  rsrp : Int16
  deriving DecidableEq

/-- `at_cpin_t`. -/
inductive AtCpin where
  | ready | simPin | simPuk | phSimPin | phFsimPin | phFsimPuk | simPin2 | simPuk2 | phNetPin
  | phNetPuk | phNetsubPin | phNetsubPuk | phSpPin | phSpPuk | phCorpPin | phCorpPuk | unknown
  deriving DecidableEq

/-- `at_cops_t`. -/
structure Cops where
  mode : UInt8
  format : UInt8
  oper : Vector UInt8 24
  act : UInt8
  deriving DecidableEq

/-- `at_sms_t`. -/
structure Sms where
  oa : Vector UInt8 20
  scts : Vector UInt8 24
  text : Vector UInt8 161
  index : UInt8
  stat : UInt8
  deriving DecidableEq

/-- `at_scts_t`. -/
structure Scts where
  year : UInt8
  month : UInt8
  day : UInt8
  hour : UInt8
  minute : UInt8
  second : UInt8
  tzQuarter : Int8
  deriving DecidableEq

namespace Checked

/-! ## Integer parsers (`at_fmt.h`) -/

/-- One digit of `at__parse_int`. -/
def intDigit (v : Int) (b : UInt8) : M Int :=
  if v ≤ (0x7FFFFFFF - 9) / 10 then do int32 ((← int32 (v * 10)) + ((b.toNat : Int) - 48))
  else pure 0x7FFFFFFF

/-- The digit loop of `at__parse_int`. -/
def parseIntDigits : Int → List UInt8 → M (Int × List UInt8)
  | _, [] => throw .read
  | v, b :: p => if isDigit b then do parseIntDigits (← intDigit v b) p else pure (v, b :: p)

/-- The sign of `at__parse_int`. -/
def parseSign (p : List UInt8) : M (Bool × List UInt8) := do
  let c ← deref p
  if c = 45 then return (true, ← advance 1 p)
  else if c = 43 then return (false, ← advance 1 p)
  else return (false, p)

/-- `at__parse_int`. -/
def atParseInt (p : List UInt8) : M (Int × List UInt8) := do
  let p ← skipWhile (fun b => b == 32 || b == 9) p
  let (neg, p) ← parseSign p
  let (v, p) ← parseIntDigits 0 p
  if neg then return (← int32 (-v), p) else return (v, p)

/-- The digit loop of `at__parse_uint`; the arithmetic is unsigned. -/
def parseUintDigits : UInt32 → List UInt8 → M (UInt32 × List UInt8)
  | _, [] => throw .read
  | v, b :: p =>
    if isDigit b then
      parseUintDigits
        (if v ≤ (0xFFFFFFFF - 9) / 10 then v * 10 + (b - 48).toUInt32 else 0xFFFFFFFF) p
    else pure (v, b :: p)

/-- `at__parse_uint`. -/
def atParseUint (p : List UInt8) : M (UInt32 × List UInt8) := parseUintDigits 0 p

/-- `at__skip_comma`; the `Bool` is the return value. -/
def atSkipComma (p : List UInt8) : M (Bool × List UInt8) := do
  let p ← skipWhile (· == 32) p
  if (← deref p) ≠ 44 then return (false, p)
  else
    let p ← advance 1 p
    return (true, ← skipWhile (· == 32) p)

/-! ## Lines and quoted texts -/

/-- `resp->lines[i]`. -/
def line (resp : Response) (i : Nat) : M (List UInt8) :=
  match resp.lines[i]? with
  | some l => pure (cursor l)
  | none => throw .read

/-- A `for (uint8_t i = 0; i < resp->num_lines; i++)` loop. -/
def eachLine {β : Type} (resp : Response) (body : List UInt8 → M (Option β)) : M (Option β) :=
  countedLoop 256 resp.numLines fun i => do body (← line resp i)

/-- `resp_find_value`. -/
def respFindValue (resp : Response) (pre : List UInt8) : M (Option (List UInt8)) := do
  let plen ← strlen (cursor pre)
  eachLine resp fun l => do
    if !(← strncmpEq l (cursor pre) plen) then return none
    else
      let l ← advance plen l
      let l ← skipIf 58 l
      let l ← skipIf 32 l
      return some l

/-- `buf_sz - 1U`, in `size_t`. -/
def sizePred (n : Nat) : Nat := if n = 0 then 0xFFFFFFFFFFFFFFFF else n - 1

/-- `if (len >= buf_sz) len = buf_sz - 1U;` and the copy with its terminator. -/
def copyText {n : Nat} (buf : Vector UInt8 n) (p : List UInt8) (len : Nat) :
    M (Vector UInt8 n) := do
  let len := if len ≥ n then sizePred n else len
  let buf ← memcpy buf p len
  store buf len 0

/-- `parse_quoted`; the `Bool` is the return value. -/
def parseQuoted {n : Nat} (p : List UInt8) (buf : Vector UInt8 n) :
    M (Bool × List UInt8 × Vector UInt8 n) := do
  if (← deref p) ≠ 34 then return (false, p, buf)
  else
    let start ← advance 1 p
    let p ← skipWhile (fun b => b != 0 && b != 34) start
    let len := start.length - p.length
    let p ← skipIf 34 p
    return (true, p, ← copyText buf start len)

/-! ## Parsers (`at_gsm.c`) -/

/-- `if (!resp || !out || resp->status != AT_OK) return false;` and what follows. -/
def withArgs {α : Type} (resp : Option Response) (out : Option α)
    (body : Response → α → M (Bool × Option α)) : M (Bool × Option α) :=
  match resp, out with
  | some r, some o => if r.status ≠ .ok then pure (false, out) else body r o
  | _, _ => pure (false, out)

/-- `(rssi == 99U) ? -999 : (int16_t)(-113 + (int16_t)(rssi * 2U))`. -/
def rssiDbm (rssi : UInt32) : M Int16 :=
  if rssi = 99 then pure (-999)
  else do return Int16.ofInt (← int32 (-113 + (rssi * 2).toUInt16.toInt16.toInt))

/-- `at_parse_csq`. -/
def atParseCsq (resp : Option Response) (out : Option Csq) : M (Bool × Option Csq) :=
  withArgs resp out fun resp csq => do
    let some p ← respFindValue resp (ascii "+CSQ") | return (false, out)
    let (rssi, p) ← atParseUint p
    let (comma, p) ← atSkipComma p
    if !comma then return (false, out)
    else
      let (ber, _) ← atParseUint p
      let csq := { csq with ber := if ber > 99 then 99 else ber.toUInt8 }
      return (true, some { csq with rssiDbm := ← rssiDbm rssi })

/-- `(int16_t)at__parse_int(&p); at__skip_comma(&p);` -/
def parseField (p : List UInt8) : M (Int16 × List UInt8) := do
  let (v, p) ← atParseInt p
  let (_, p) ← atSkipComma p
  return (Int16.ofInt v, p)

/-- `at_parse_cesq`. -/
def atParseCesq (resp : Option Response) (out : Option Cesq) : M (Bool × Option Cesq) :=
  withArgs resp out fun resp cesq => do
    let some p ← respFindValue resp (ascii "+CESQ") | return (false, out)
    let (rxlev, p) ← parseField p
    let (ber, p) ← atParseUint p
    let (_, p) ← atSkipComma p
    let (rscp, p) ← parseField p
    let (ecno, p) ← parseField p
    let (rsrq, p) ← parseField p
    let (rsrp, _) ← atParseInt p
    return (true, some { cesq with
      rxlev := rxlev
      ber := ber.toUInt8
      rscp := rscp
      ecno := ecno
      rsrq := rsrq
      rsrp := Int16.ofInt rsrp })

/-- `if (!p) p = resp_find_value(resp, pre);` -/
def orFindValue (resp : Response) (pre : List UInt8) :
    Option (List UInt8) → M (Option (List UInt8))
  | some p => pure (some p)
  | none => respFindValue resp pre

/-- `at_parse_creg`. An `at_reg_status_t` can hold every 32-bit value. -/
def atParseCreg (resp : Option Response) (out : Option UInt32) : M (Bool × Option UInt32) :=
  withArgs resp out fun resp _ => do
    let p ← respFindValue resp (ascii "+CREG")
    let p ← orFindValue resp (ascii "+CGREG") p
    let p ← orFindValue resp (ascii "+CEREG") p
    let some p := p | return (false, out)
    let (a, p) ← atParseUint p
    let (comma, p) ← atSkipComma p
    if comma then return (true, some (← atParseUint p).1) else return (true, some a)

/-- The table of `at_parse_cpin`. -/
def cpinMap : List (List UInt8 × Nat × AtCpin) :=
  [(ascii "READY", 5, .ready), (ascii "SIM PIN", 7, .simPin), (ascii "SIM PUK", 7, .simPuk),
    (ascii "SIM PIN2", 8, .simPin2), (ascii "SIM PUK2", 8, .simPuk2),
    (ascii "PH-SIM PIN", 10, .phSimPin), (ascii "PH-NET PIN", 10, .phNetPin),
    (ascii "PH-NET PUK", 10, .phNetPuk)]

/-- The loop over the table. -/
def cpinLookup (p : List UInt8) : List (List UInt8 × Nat × AtCpin) → M AtCpin
  | [] => pure .unknown
  | (str, len, val) :: map => do
    if ← strncmpEq p (cursor str) len then return val else cpinLookup p map

/-- `at_parse_cpin`. -/
def atParseCpin (resp : Option Response) (out : Option AtCpin) : M (Bool × Option AtCpin) :=
  withArgs resp out fun resp _ => do
    let some p ← respFindValue resp (ascii "+CPIN") | return (false, out)
    return (true, some (← cpinLookup p cpinMap))

/-- `while (*p && *p != ',' && d < end) *d++ = *p++;`, with `d` and `end` counted
from the start of the array. -/
def copyField {n : Nat} (stop : Nat) :
    Vector UInt8 n → Nat → List UInt8 → M (Vector UInt8 n × Nat × List UInt8)
  | _, _, [] => throw .read
  | buf, d, b :: p =>
    if b ≠ 0 ∧ b ≠ 44 ∧ d < stop then do copyField stop (← store buf d b) (d + 1) p
    else pure (buf, d, b :: p)

/-- The operator name, in quotes or without. -/
def copsOper (p : List UInt8) (oper : Vector UInt8 24) : M (List UInt8 × Vector UInt8 24) := do
  if (← deref p) = 34 then
    let (_, p, oper) ← parseQuoted p oper
    return (p, oper)
  else
    let (oper, d, p) ← copyField (24 - 1) oper 0 p
    return (p, ← store oper d 0)

/-- `at_parse_cops`. -/
def atParseCops (resp : Option Response) (out : Option Cops) : M (Bool × Option Cops) :=
  withArgs resp out fun resp cops => do
    let some p ← respFindValue resp (ascii "+COPS") | return (false, out)
    let (mode, p) ← atParseUint p
    let cops := { cops with mode := mode.toUInt8 }
    let (comma, p) ← atSkipComma p
    if !comma then
      return (true, some { cops with format := 0, oper := ← store cops.oper 0 0, act := 0xFF })
    else
      let (format, p) ← atParseUint p
      let cops := { cops with format := format.toUInt8 }
      let (comma, p) ← atSkipComma p
      if !comma then
        return (true, some { cops with oper := ← store cops.oper 0 0, act := 0xFF })
      else
        let (p, oper) ← copsOper p cops.oper
        let cops := { cops with oper := oper }
        let (comma, p) ← atSkipComma p
        if comma then return (true, some { cops with act := (← atParseUint p).1.toUInt8 })
        else return (true, some { cops with act := 0xFF })

/-- The address of a `+CGPADDR` line, in quotes or without. -/
def cgpaddrText {n : Nat} (l : List UInt8) (ipBuf : Vector UInt8 n) : M (Vector UInt8 n) := do
  if (← deref l) = 34 then return (← parseQuoted l ipBuf).2.2
  else copyText ipBuf l (← strlen l)

/-- One round of the loop in `at_parse_cgpaddr`: `none` for `continue`. -/
def cgpaddrLine {n : Nat} (cid : UInt8) (ipBuf : Vector UInt8 n) (l : List UInt8) :
    M (Option (Bool × Vector UInt8 n)) := do
  if !(← strncmpEq l (cursor (ascii "+CGPADDR:")) 9) then return none
  else
    let l ← advance 9 l
    let l ← skipIf 32 l
    let (v, l) ← atParseUint l
    if v.toUInt8 ≠ cid then return none
    else
      let (comma, l) ← atSkipComma l
      if !comma then return some (false, ipBuf)
      else return some (true, ← cgpaddrText l ipBuf)

/-- `at_parse_cgpaddr`; `ip_buf_sz` is the size of the array. -/
def atParseCgpaddr {n : Nat} (resp : Option Response) (cid : UInt8)
    (ipBuf : Option (Vector UInt8 n)) : M (Bool × Option (Vector UInt8 n)) :=
  withArgs resp ipBuf fun resp buf => do
    match ← eachLine resp (cgpaddrLine cid buf) with
    | some (ok, buf) => return (ok, some buf)
    | none => return (false, ipBuf)

/-- The status of a message, from its text in a local array. -/
def smsStat (ss : List UInt8) : M UInt8 := do
  if ← strncmpEq ss (cursor (ascii "REC UNREAD")) 10 then return 0
  else if ← strncmpEq ss (cursor (ascii "REC READ")) 8 then return 1
  else if ← strncmpEq ss (cursor (ascii "STO UNSENT")) 10 then return 2
  else return 3

/-- The status field of a `+CMGR` line, in text or as a number. -/
def smsStatField (stk : Stack) (l : List UInt8) : M (UInt8 × List UInt8) := do
  if (← deref l) = 34 then
    let ss : Vector UInt8 16 := ⟨(stk 16).bytes.toArray, (stk 16).size⟩
    let (_, l, ss) ← parseQuoted l ss
    let stat ← smsStat ss.toList
    let (_, l) ← atSkipComma l
    return (stat, l)
  else
    let (v, l) ← atParseUint l
    let (_, l) ← atSkipComma l
    return (v.toUInt8, l)

/-- `if (*l == '"') { while (*l && *l != ',') l++; }` -/
def skipAlpha (l : List UInt8) : M (List UInt8) := do
  if (← deref l) = 34 then skipWhile (fun b => b != 0 && b != 44) l else return l

/-- `at_parse_sms_read`. -/
def atParseSmsRead (stk : Stack) (resp : Option Response) (out : Option Sms) :
    M (Bool × Option Sms) :=
  withArgs resp out fun resp sms => do
    if resp.numLines < 2 then return (false, out)
    else
      let l ← line resp 0
      if !(← strncmpEq l (cursor (ascii "+CMGR:")) 6) then return (false, out)
      else
        let l ← advance 6 l
        let l ← skipIf 32 l
        let (stat, l) ← smsStatField stk l
        let (_, l, oa) ← parseQuoted l sms.oa
        let (_, l) ← atSkipComma l
        let l ← skipAlpha l
        let (_, l) ← atSkipComma l
        let (_, _, scts) ← parseQuoted l sms.scts
        let text ← line resp 1
        let text ← copyText sms.text text (← strlen text)
        return (true, some { sms with stat := stat, oa := oa, scts := scts, text := text })

/-- `at_parse_cmgs`. -/
def atParseCmgs (resp : Option Response) (mrOut : Option UInt8) : M (Bool × Option UInt8) :=
  withArgs resp mrOut fun resp _ => do
    let some p ← respFindValue resp (ascii "+CMGS") | return (false, mrOut)
    let (mr, _) ← atParseUint p
    return (true, some mr.toUInt8)

/-! ## Timestamps -/

/-- `parse_scts_field`; `none` is the return value `false`. -/
def parseSctsField (p : List UInt8) : M (Option (UInt8 × List UInt8)) := do
  let a ← deref p
  if a - 48 > 9 then return none
  else
    let b ← deref (← advance 1 p)
    if b - 48 > 9 then return none
    else
      let tens ← int32 (((a.toNat : Int) - 48) * 10)
      let v ← int32 (tens + ((b.toNat : Int) - 48))
      return some (UInt8.ofNat v.toNat, ← advance 2 p)

/-- `if (*p++ != c) return false;`, with `none` for the `return`. -/
def expect (c : UInt8) (p : List UInt8) : M (Option (List UInt8)) := do
  let b ← deref p
  let p ← advance 1 p
  if b ≠ c then return none else return some p

/-- The time zone at the end of a timestamp, as a multiple of a quarter of an hour:
`none` is the return value `false`. -/
def sctsZone (p : List UInt8) : M (Option Int8) := do
  let c ← deref p
  if c = 43 ∨ c = 45 then
    let p ← advance 1 p
    let some (raw, _) ← parseSctsField p | return none
    if raw > 48 then return none
    else return some (Int8.ofInt (← int32 ((if c = 43 then 1 else -1) * raw.toInt8.toInt)))
  else return some 0

/-- `at_parse_scts`. -/
def atParseScts (sctsStr : Option (List UInt8)) (out : Option Scts) : M (Bool × Option Scts) := do
  let some str := sctsStr | return (false, out)
  let some t := out | return (false, out)
  let some (year, p) ← parseSctsField (cursor str) | return (false, some t)
  let t := { t with year := year }
  let some p ← expect 47 p | return (false, some t)
  let some (month, p) ← parseSctsField p | return (false, some t)
  let t := { t with month := month }
  if month < 1 ∨ month > 12 then return (false, some t) else
  let some p ← expect 47 p | return (false, some t)
  let some (day, p) ← parseSctsField p | return (false, some t)
  let t := { t with day := day }
  if day < 1 ∨ day > 31 then return (false, some t) else
  let some p ← expect 44 p | return (false, some t)
  let some (hour, p) ← parseSctsField p | return (false, some t)
  let t := { t with hour := hour }
  if hour > 23 then return (false, some t) else
  let some p ← expect 58 p | return (false, some t)
  let some (minute, p) ← parseSctsField p | return (false, some t)
  let t := { t with minute := minute }
  if minute > 59 then return (false, some t) else
  let some p ← expect 58 p | return (false, some t)
  let some (second, p) ← parseSctsField p | return (false, some t)
  let t := { t with second := second }
  if second > 59 then return (false, some t) else
  let some zone ← sctsZone p | return (false, some t)
  return (true, some { t with tzQuarter := zone })

end Checked

end LibAt
