import LibAt.ClosedLoop
import LibAt.OperatorNames
import LibAt.ParserSafety
import LibAt.PdpAddress
import LibAt.PinStatus

/-!
# From the report of a modem to the value in a callback

A modem writes what it reports into the lines of its answer. The engine hands these to a
callback, and a parser there takes the values out again. `Report` lists what the parsers
of `at_gsm.c` are for: `Report.lines` is what a modem writes for it, `Report.Read` that the
parser returns `true` and exactly these values.

`reports_read` puts the two ends together: in the closed loop, whatever is going on
besides, a report that stands in a successful answer is read by the callback of the
command that was answered.
-/

namespace LibAt

/-! ## Reports -/

/-- Numbers with commas between them. -/
def octets (vs : List OctetNumber) : List UInt8 := [44].intercalate (vs.map OctetNumber.digits)

/-- The services at which a modem registers. -/
inductive RegDomain where
  | circuit
  | packet
  | eps

/-- The name of the report. -/
def RegDomain.name : RegDomain → List UInt8
  | circuit => ascii "+CREG"
  | packet => ascii "+CGREG"
  | eps => ascii "+CEREG"

/-- What a modem reports. -/
inductive Report where
  | csq (rssi ber : OctetNumber)
  | cesq (rxlev ber rscp ecno rsrq rsrp : OctetNumber)
  /-- `mode` says which changes are reported; in an unsolicited report it is left out -/
  | reg (domain : RegDomain) (mode : Option OctetNumber) (stat : OctetNumber)
  | cpin (status : List UInt8 × AtCpin)
  | cops (ans : OperatorAnswer)
  | cgpaddr (cid : OctetNumber) (addr : List UInt8)
  | cmgs (mr : OctetNumber)
  | cmgr (msg : TextMessage)

namespace Report

/-- The lines of a report. -/
def lines : Report → List (List UInt8)
  | csq rssi ber => [ascii "+CSQ" ++ (ascii ": " ++ octets [rssi, ber])]
  | cesq rxlev ber rscp ecno rsrq rsrp =>
    [ascii "+CESQ" ++ (ascii ": " ++ octets [rxlev, ber, rscp, ecno, rsrq, rsrp])]
  | reg domain mode stat => [domain.name ++ (ascii ": " ++ octets (mode.toList ++ [stat]))]
  | cpin status => [ascii "+CPIN" ++ (ascii ": " ++ status.1)]
  | cops ans => [ascii "+COPS" ++ ans.quoted]
  | cgpaddr cid addr => [ascii "+CGPADDR:" ++ 32 :: (cid.digits ++ 44 :: inQuotes addr)]
  | cmgs mr => [ascii "+CMGS" ++ (ascii ": " ++ octets [mr])]
  | cmgr msg => [msg.header, msg.text]

/-- Another line of the same answer, at which the parser does not stop. -/
def Passes (l : List UInt8) : Report → Prop
  | csq .. => ¬ascii "+CSQ" <+: l
  | cesq .. => ¬ascii "+CESQ" <+: l
  | reg .. => ∀ domain : RegDomain, ¬domain.name <+: l
  | cpin _ => ¬ascii "+CPIN" <+: l
  | cops _ => ¬ascii "+COPS" <+: l
  | cgpaddr cid _ => ¬ascii "+CGPADDR:" <+: l ∨
      ∃ cid' addr, cid'.value ≠ cid.value ∧ l ∈ (cgpaddr cid' addr).lines
  | cmgs _ => ¬ascii "+CMGS" <+: l
  | cmgr _ => False

/-- The report is among the lines of an answer. -/
def StandsIn (q : Report) (ls : List (List UInt8)) : Prop :=
  ∃ before after, ls = before ++ q.lines ++ after ∧ ∀ l ∈ before ++ after, q.Passes l

/-- The parsers read the report: not where one status string is the beginning of another,
or where the alpha text of a message has a comma. -/
def Readable : Report → Prop
  | cpin status => status ∈ cpinTable ∧ ¬PrefixTable.Extending cpinTable status
  | cgpaddr _ addr => Quotable addr
  | cmgr msg => msg.AlphaSkipped
  | _ => True

open Checked in
/-- The parser takes the values of the report out of the response, whatever was in the
output before. -/
def Read (r : Response) : Report → Prop
  | csq rssi ber => ∀ out, ∃ v, atParseCsq (some r) (some out) = .ok (true, some v) ∧
      v.rssiDbm.toInt = (if rssi.value = 99 then -999 else -113 + 2 * (rssi.value.toNat : Int)) ∧
      v.ber.toNat = min ber.value.toNat 99
  | cesq rxlev ber rscp ecno rsrq rsrp =>
      ∀ out, ∃ v, atParseCesq (some r) (some out) = .ok (true, some v) ∧
        v.rxlev.toInt = rxlev.value.toNat ∧ v.ber = ber.value ∧ v.rscp.toInt = rscp.value.toNat ∧
        v.ecno.toInt = ecno.value.toNat ∧ v.rsrq.toInt = rsrq.value.toNat ∧
        v.rsrp.toInt = rsrp.value.toNat
  | reg _ _ stat =>
      ∀ out, Checked.atParseCreg (some r) (some out) = .ok (true, some stat.value.toUInt32)
  | cpin status => ∀ out, atParseCpin (some r) (some out) = .ok (true, some status.2)
  | cops ans => ∀ out, ∃ v, atParseCops (some r) (some out) = .ok (true, some v) ∧
      v.mode = ans.mode.value ∧ v.format = ans.format.value ∧ Holds v.oper (ans.oper.take 23) ∧
      v.act = ans.act.value
  | cgpaddr cid addr => ∀ n (buf : Vector UInt8 n), addr.length < n →
      ∃ buf', atParseCgpaddr (some r) cid.value (some buf) = .ok (true, some buf') ∧
        Holds buf' addr
  | cmgs mr => ∀ out, atParseCmgs (some r) (some out) = .ok (true, some mr.value)
  | cmgr msg => ∀ stk out, ∃ v, atParseSmsRead stk (some r) (some out) = .ok (true, some v) ∧
      v.stat = msg.stat.code ∧ Holds v.oa msg.oa ∧ Holds v.scts msg.scts ∧ Holds v.text msg.text

end Report

/-! ## Numbers -/

namespace OctetNumber

variable (v : OctetNumber) {rest : List UInt8}

theorem value_toNat : v.value.toNat = digitsValue v.digits := by
  have hle := v.le
  rw [value, UInt8.toNat_ofNat']
  omega

/-- The run of digits ends with the number. -/
theorem run (hrest : rest.takeWhile isDigit = []) :
    runValue (v.digits ++ rest) = v.value.toNat ∧ (v.digits ++ rest).dropWhile isDigit = rest := by
  refine ⟨?_, (v.read rest hrest).2⟩
  rw [runValue, List.takeWhile_append_of_pos v.all_digits, hrest, List.append_nil, v.value_toNat]

/-- A number of eight bits is read as it is, -/
theorem uintAt_append (hrest : rest.takeWhile isDigit = []) :
    uintAt (v.digits ++ rest) = v.value.toUInt32 := by
  have hlt := v.value.toNat_lt
  rw [← UInt32.toNat_inj, toNat_uintAt, (v.run hrest).1, saturateUint, if_pos (by omega),
    UInt8.toNat_toUInt32]

/-- A number has no blanks before it and no sign. -/
theorem unsigned_append : Checked.unsigned (skipBlanks (v.digits ++ rest)) = v.digits ++ rest ∧
    (skipBlanks (v.digits ++ rest)).headD 0 ≠ 45 := by
  obtain ⟨b, bs, hdigits⟩ := List.exists_cons_of_ne_nil v.nonempty
  have hb := Checked.isDigit_bounds (v.all_digits b (hdigits ▸ List.mem_cons_self))
  have hblank : ¬(b == 32 || b == 9) = true := by
    simp only [Bool.or_eq_true, beq_iff_eq, not_or]
    constructor <;> rintro rfl <;> exact absurd hb.1 (by decide)
  have hskip : skipBlanks (v.digits ++ rest) = v.digits ++ rest := by
    rw [skipBlanks, hdigits, List.cons_append, List.dropWhile_cons, if_neg hblank]
  have hsign : (v.digits ++ rest).headD 0 ≠ 45 ∧ (v.digits ++ rest).headD 0 ≠ 43 := by
    rw [hdigits]
    constructor <;> rintro rfl <;> exact absurd hb.1 (by decide)
  rw [hskip]
  exact ⟨if_neg (not_or.mpr hsign), hsign.1⟩

/-- with or without a sign being possible. -/
theorem intAt_append (hrest : rest.takeWhile isDigit = []) :
    intAt (v.digits ++ rest) = v.value.toNat ∧ behindInt (v.digits ++ rest) = rest := by
  have hlt := v.value.toNat_lt
  obtain ⟨hsign, hminus⟩ := @unsigned_append v rest
  obtain ⟨hrun, hbehind⟩ := v.run hrest
  constructor
  · rw [intAt, atParseInt_value, if_neg hminus, hsign, hrun, saturateInt, if_pos (by omega)]
  · rw [behindInt, hsign, hbehind]

end OctetNumber

theorem octets_singleton (v : OctetNumber) : octets [v] = v.digits := by
  simp [octets, List.intercalate]

/-- Numbers come with commas between them. -/
theorem octets_cons_cons (v u : OctetNumber) (vs : List OctetNumber) :
    octets (v :: u :: vs) = v.digits ++ 44 :: octets (u :: vs) := by
  simp [octets, List.intercalate]

/-- A list of numbers is one number, and what does not go on with it. -/
theorem octets_cons (v : OctetNumber) (vs : List OctetNumber) :
    ∃ rest, octets (v :: vs) = v.digits ++ rest ∧ rest.takeWhile isDigit = [] := by
  cases vs with
  | nil => exact ⟨[], by rw [octets_singleton, List.append_nil], rfl⟩
  | cons u vs => exact ⟨_, octets_cons_cons v u vs, rfl⟩

section

variable (v u : OctetNumber) (vs : List OctetNumber)

theorem uintAt_octets : uintAt (octets (v :: vs)) = v.value.toUInt32 := by
  obtain ⟨rest, heq, hrest⟩ := octets_cons v vs
  rw [heq, v.uintAt_append hrest]

theorem intAt_octets : intAt (octets (v :: vs)) = v.value.toNat := by
  obtain ⟨rest, heq, hrest⟩ := octets_cons v vs
  rw [heq, (v.intAt_append hrest).1]

theorem behindComma_octets : behindComma (44 :: octets (v :: vs)) = octets (v :: vs) := by
  obtain ⟨rest, heq, -⟩ := octets_cons v vs
  rw [heq]
  exact behindComma_of_head (v.head_append rest)

theorem behindUint_octets : behindUint (octets (v :: u :: vs)) = 44 :: octets (u :: vs) := by
  rw [octets_cons_cons]
  exact (v.run rfl).2

/-- The next field, behind a number without a sign or behind any number. -/
theorem nextField_octets : behindComma (behindUint (octets (v :: u :: vs))) = octets (u :: vs) ∧
    behindComma (behindInt (octets (v :: u :: vs))) = octets (u :: vs) := by
  rw [behindUint_octets, behindComma_octets, octets_cons_cons, (v.intAt_append rfl).2,
    behindComma_octets]
  exact ⟨rfl, rfl⟩

end

/-! ## Reading a report -/

/-- The lines that a response counts. -/
def Response.counted (r : Response) : List (List UInt8) := r.lines.take r.numLines

/-- What of a response the parsers need. -/
structure Response.Success (r : Response) : Prop where
  valid : r.Valid
  ok : r.status = .ok
  nul : ∀ l ∈ r.counted, (0 : UInt8) ∉ l

variable {r : Response} {pre rest : List UInt8} {before after : List (List UInt8)}

theorem Response.Success.firstLine (h : r.Success)
    (hls : r.counted = before ++ [pre ++ rest] ++ after) (hno : ∀ l ∈ before ++ after, ¬pre <+: l) :
    FirstLine r pre rest := by
  refine ⟨before, after, ?_, fun l hl => ?_⟩
  · rw [← Response.counted, hls, List.append_assoc]
    rfl
  · rw [cstr_eq_self (h.nul l (by simp [hls, hl]))]
    exact hno l (List.mem_append_left _ hl)

/-- The value of a report, behind the name, a colon and a space. -/
theorem Response.Success.find (h : r.Success) (h0 : (0 : UInt8) ∉ pre)
    (hls : r.counted = before ++ [pre ++ (ascii ": " ++ rest)] ++ after)
    (hno : ∀ l ∈ before ++ after, ¬pre <+: l) : findValue r pre = some rest := by
  rw [findValue_firstLine h0 (h.firstLine hls hno)]
  rfl

/-- A name that no line begins with is not found. -/
theorem Response.Success.find_none (h : r.Success) (h0 : (0 : UInt8) ∉ pre)
    (hno : ∀ l ∈ r.counted, ¬pre <+: l) : findValue r pre = none := by
  refine List.findSome?_eq_none_iff.mpr fun l hl => if_neg ?_
  rw [strlen, cstr_eq_self h0, strncmpEq_length_iff h0, cstr_eq_self (h.nul l hl)]
  exact hno l hl

theorem outcome_some {α : Type} (out v : α) : outcome out (some v) = (true, some v) := rfl

namespace Report

/-- The signal strength that is meant by a number. -/
theorem toInt_dbmOf_octet (rssi : UInt8) : (dbmOf rssi.toUInt32).toInt =
    if rssi = 99 then -999 else -113 + 2 * (rssi.toNat : Int) := by
  have hlt := rssi.toNat_lt
  have hcast : rssi.toUInt32 = 99 ↔ rssi = 99 := by
    rw [← UInt32.toNat_inj, ← UInt8.toNat_inj, UInt8.toNat_toUInt32]
    rfl
  by_cases h99 : rssi = 99
  · rw [if_pos h99, h99]
    rfl
  · rw [if_neg h99, toInt_dbmOf (mt hcast.mp h99), toInt_low, UInt8.toNat_toUInt32]
    split <;> omega

/-- Each report is read. The number for the signal strength is one of eight bits, so that
nothing is lost. -/
theorem read_csq (h : r.Success) {rssi ber : OctetNumber} (hq : StandsIn (csq rssi ber) r.counted) :
    Read r (csq rssi ber) := by
  obtain ⟨before, after, hls, hno⟩ := hq
  have hlt := ber.value.toNat_lt
  intro out
  refine ⟨_, by rw [Checked.atParseCsq_eq h.valid h.ok, h.find (by decide) hls hno,
    Option.bind_some, readCsq, behindUint_octets, if_pos (hasComma_comma _), uintAt_octets,
    behindComma_octets, uintAt_octets, outcome_some], toInt_dbmOf_octet _, ?_⟩
  dsimp only
  split
  · next hbig =>
    have : 99 < ber.value.toUInt32.toNat := UInt32.lt_iff_toNat_lt.mp hbig
    rw [UInt8.toNat_toUInt32] at this
    exact (Nat.min_eq_right (Nat.le_of_lt this)).symm
  · next hsmall =>
    have : ¬99 < ber.value.toUInt32.toNat := fun hbig => hsmall (UInt32.lt_iff_toNat_lt.mpr hbig)
    rw [UInt8.toNat_toUInt32] at this
    rw [UInt8.toUInt8_toUInt32, Nat.min_eq_left (Nat.le_of_not_lt this)]

/-- A field of the extended signal quality. -/
theorem toInt_intAt_octets (v : OctetNumber) (vs : List OctetNumber) :
    (Int16.ofInt (intAt (octets (v :: vs)))).toInt = v.value.toNat := by
  have hlt := v.value.toNat_lt
  rw [intAt_octets, toInt_low]
  split <;> omega

/-- Six numbers. -/
theorem read_cesq (h : r.Success) {rxlev ber rscp ecno rsrq rsrp : OctetNumber}
    (hq : StandsIn (cesq rxlev ber rscp ecno rsrq rsrp) r.counted) :
    Read r (cesq rxlev ber rscp ecno rsrq rsrp) := by
  obtain ⟨before, after, hls, hno⟩ := hq
  have hber : cesqBer (octets [rxlev, ber, rscp, ecno, rsrq, rsrp]) =
      octets [ber, rscp, ecno, rsrq, rsrp] := (nextField_octets ..).2
  have hrscp : cesqRscp (octets [rxlev, ber, rscp, ecno, rsrq, rsrp]) =
      octets [rscp, ecno, rsrq, rsrp] := by rw [cesqRscp, hber, (nextField_octets ..).1]
  have hecno : cesqEcno (octets [rxlev, ber, rscp, ecno, rsrq, rsrp]) =
      octets [ecno, rsrq, rsrp] := by rw [cesqEcno, hrscp, (nextField_octets ..).2]
  have hrsrq : cesqRsrq (octets [rxlev, ber, rscp, ecno, rsrq, rsrp]) =
      octets [rsrq, rsrp] := by rw [cesqRsrq, hecno, (nextField_octets ..).2]
  have hrsrp : cesqRsrp (octets [rxlev, ber, rscp, ecno, rsrq, rsrp]) =
      octets [rsrp] := by rw [cesqRsrp, hrsrq, (nextField_octets ..).2]
  intro out
  refine ⟨_, by rw [Checked.atParseCesq_eq h.valid h.ok, h.find (by decide) hls hno,
    Option.map_some, outcome_some], ?_⟩
  simp only [readCesq, hber, hrscp, hecno, hrsrq, hrsrp, toInt_intAt_octets, uintAt_octets,
    UInt8.toUInt8_toUInt32, and_self]

/-- No name of a registration report begins with another one. -/
theorem name_apart {domain domain' : RegDomain} (hne : domain ≠ domain') (rest : List UInt8) :
    ¬domain.name <+: domain'.name ++ (ascii ": " ++ rest) := by
  cases domain <;> cases domain' <;> first | exact absurd rfl hne | skip
  all_goals
    rintro ⟨t, ht⟩
    simp [RegDomain.name, ascii] at ht

/-- The value of a registration report is looked for under all three names. -/
theorem find_reg (h : r.Success) {domain : RegDomain} {mode : Option OctetNumber}
    {stat : OctetNumber} (hq : StandsIn (reg domain mode stat) r.counted) :
    regValue r = some (octets (mode.toList ++ [stat])) := by
  obtain ⟨before, after, hls, hno⟩ := hq
  have hnul (domain : RegDomain) : (0 : UInt8) ∉ domain.name := by
    cases domain <;> decide
  have hfound : findValue r domain.name = some (octets (mode.toList ++ [stat])) :=
    h.find (hnul domain) hls fun l hl => hno l hl domain
  have hother (domain' : RegDomain) (hne : domain' ≠ domain) :
      findValue r domain'.name = none := by
    refine h.find_none (hnul domain') fun l hl => ?_
    rw [hls, lines, List.append_assoc, List.mem_append, List.mem_append, List.mem_singleton] at hl
    rcases hl with hl | rfl | hl
    · exact hno l (List.mem_append_left _ hl) domain'
    · exact name_apart hne _
    · exact hno l (List.mem_append_right _ hl) domain'
  change (findValue r RegDomain.circuit.name).or ((findValue r RegDomain.packet.name).or
    (findValue r RegDomain.eps.name)) = _
  cases domain with
  | circuit => rw [hfound, Option.some_or]
  | packet => rw [hother .circuit (by simp), hfound, Option.none_or, Option.some_or]
  | eps => rw [hother .circuit (by simp), hother .packet (by simp), hfound, Option.none_or,
      Option.none_or]

/-- The last number is the status. -/
theorem readCreg_octets (mode : Option OctetNumber) (stat : OctetNumber) :
    readCreg (octets (mode.toList ++ [stat])) = stat.value.toUInt32 := by
  rw [readCreg]
  cases mode with
  | none =>
    have hbehind : behindUint (octets [stat]) = [] := by
      rw [octets_singleton]
      have hrun := (@OctetNumber.run stat [] rfl).2
      rwa [List.append_nil] at hrun
    have hcomma : hasComma (behindUint (octets [stat])) = false := by
      rw [hbehind]
      rfl
    simp only [Option.toList_none, List.nil_append, hcomma, Bool.false_eq_true, if_false]
    exact uintAt_octets stat []
  | some v =>
    have hcomma : hasComma (behindUint (octets [v, stat])) = true := by
      rw [behindUint_octets]
      exact hasComma_comma _
    simp only [Option.toList_some, List.cons_append, List.nil_append, hcomma, if_true,
      (nextField_octets v stat []).1]
    exact uintAt_octets stat []

/-- With or without the mode. -/
theorem read_reg (h : r.Success) {domain : RegDomain} {mode : Option OctetNumber}
    {stat : OctetNumber} (hq : StandsIn (reg domain mode stat) r.counted) :
    Read r (reg domain mode stat) := by
  intro out
  rw [Checked.atParseCreg_eq h.valid h.ok, find_reg h hq, Option.map_some, outcome_some,
    readCreg_octets]

/-- Where no other status begins with this one, the first entry of the table that fits is the
right one. -/
theorem read_cpin (h : r.Success) {status : List UInt8 × AtCpin} (hr : Readable (cpin status))
    (hq : StandsIn (cpin status) r.counted) : Read r (cpin status) := by
  obtain ⟨before, after, hls, hno⟩ := hq
  obtain ⟨hmem, hext⟩ := hr
  have htable : ∀ e ∈ cpinTable, ¬PrefixTable.Extending cpinTable e →
      readCpin (cstr e.1) = e.2 := by decide
  intro out
  rw [Checked.atParseCpin_eq h.valid h.ok, h.find (by decide) hls hno, Option.map_some,
    outcome_some, htable status hmem hext]

/-- The name is cut to what its array holds. -/
theorem read_cops (h : r.Success) {ans : OperatorAnswer} (hq : StandsIn (cops ans) r.counted) :
    Read r (cops ans) := by
  obtain ⟨before, after, hls, hno⟩ := hq
  intro out
  refine ⟨ans.stored out ans.act.value, ?_, rfl, rfl, Checked.holds_oper ans _, rfl⟩
  rw [Checked.atParseCops_line h.valid h.ok (h.firstLine hls hno), ans.readCops_quoted]

theorem read_cmgs (h : r.Success) {mr : OctetNumber} (hq : StandsIn (cmgs mr) r.counted) :
    Read r (cmgs mr) := by
  obtain ⟨before, after, hls, hno⟩ := hq
  intro out
  rw [Checked.atParseCmgs_eq h.valid h.ok, h.find (by decide) hls hno, Option.map_some,
    outcome_some, uintAt_octets, UInt8.toUInt8_toUInt32]

/-- Header and text are the two lines of the answer. -/
theorem read_cmgr (h : r.Success) {msg : TextMessage} (hr : Readable (cmgr msg))
    (hq : StandsIn (cmgr msg) r.counted) : Read r (cmgr msg) := by
  obtain ⟨before, after, hls, hno⟩ := hq
  have hbefore : before = [] := List.eq_nil_iff_forall_not_mem.mpr fun l hl =>
    hno l (List.mem_append_left _ hl)
  rw [hbefore, List.nil_append, lines, Response.counted] at hls
  have htwo : 2 ≤ r.numLines := by
    have hlen := congrArg List.length hls
    rw [List.length_take, List.length_append] at hlen
    simp only [List.length_cons] at hlen
    omega
  have hget (i : Nat) (hi : i < 2) : r.lines[i]? = ([msg.header, msg.text] ++ after)[i]? := by
    rw [← hls, List.getElem?_take_of_lt (by omega)]
  exact Checked.roundTrips_of_skipped hr r h.valid h.ok htwo (hget 0 (by decide))
    (hget 1 (by decide))

/-! The lines of an answer about addresses. -/

/-- What is behind the name is taken apart in a loop, -/
theorem cgpaddrValue_line (cid : OctetNumber) (addr : List UInt8) :
    cgpaddrValue (ascii "+CGPADDR:" ++ 32 :: (cid.digits ++ 44 :: inQuotes addr)) =
      some (cid.digits ++ 44 :: inQuotes addr) := by
  rw [cgpaddrValue]
  exact if_pos rfl

/-- and lines of another name are passed over, -/
theorem cgpaddrValue_none {l : List UInt8} (h0 : (0 : UInt8) ∉ l)
    (hno : ¬ascii "+CGPADDR:" <+: l) : cgpaddrValue l = none := by
  refine if_neg fun hpre => hno ?_
  have := (strncmpEq_length_iff (l := l) (s := ascii "+CGPADDR:") (by decide)).mp hpre
  rwa [cstr_eq_self h0] at this

/-- as are those of another context. -/
theorem isTaken_line {cid : UInt8} (v : OctetNumber) (rest : List UInt8) :
    IsTaken cid (v.digits ++ 44 :: rest) ↔ v.value = cid := by
  rw [IsTaken, v.uintAt_append rfl, UInt8.toUInt8_toUInt32]

/-- So the address is that of the context that was asked for. -/
theorem read_cgpaddr (h : r.Success) {cid : OctetNumber} {addr : List UInt8}
    (hr : Readable (cgpaddr cid addr)) (hq : StandsIn (cgpaddr cid addr) r.counted) :
    Read r (cgpaddr cid addr) := by
  obtain ⟨before, after, hls, hno⟩ := hq
  have hquotable : Quotable addr := hr
  intro n buf hn
  have hbefore : (before.filterMap cgpaddrValue).find? (fun m => IsTaken cid.value m) = none := by
    rw [List.find?_eq_none]
    intro m hm
    obtain ⟨l, hl, hvalue⟩ := List.mem_filterMap.mp hm
    rcases hno l (List.mem_append_left _ hl) with hpre | ⟨cid', addr', hne, hline⟩
    · rw [cgpaddrValue_none (h.nul l (by simp [hls, hl])) hpre] at hvalue
      cases hvalue
    · rw [List.mem_singleton.mp hline, cgpaddrValue_line] at hvalue
      rw [← Option.some.inj hvalue, decide_eq_true_iff, isTaken_line]
      exact hne
  have htaken : firstTaken r cid.value = some (cid.digits ++ 44 :: inQuotes addr) := by
    rw [firstTaken, cgpaddrValues, ← Response.counted, hls, lines, List.filterMap_append,
      List.filterMap_append, List.append_assoc, List.find?_append, hbefore, Option.none_or,
      List.filterMap_cons, cgpaddrValue_line]
    exact List.find?_cons_of_pos (decide_eq_true ((isTaken_line cid _).mpr rfl))
  have hbehind : behindUint (cid.digits ++ 44 :: inQuotes addr) = 44 :: inQuotes addr :=
    (cid.run rfl).2
  have haddr : addressOf (cid.digits ++ 44 :: inQuotes addr) = addr := by
    have hquoted := behindComma_inQuotes addr []
    have htext := @quotedText_inQuotes addr [] hquotable
    rw [List.append_nil] at hquoted htext
    rw [addressOf, hbehind, hquoted, htext]
    exact if_pos rfl
  have hcomma : hasComma (behindUint (cid.digits ++ 44 :: inQuotes addr)) = true := by
    rw [hbehind]
    exact hasComma_comma _
  refine ⟨put buf addr, ?_, Checked.holds_put hn hquotable.2 buf⟩
  rw [Checked.atParseCgpaddr_eq h.valid h.ok, htaken]
  dsimp only
  rw [Checked.onTaken_comma (by omega) hcomma, haddr, List.take_of_length_le (by omega)]
  rfl

/-- **A parser reads the report** that stands in a response. -/
theorem read (h : r.Success) {q : Report} (hr : q.Readable) (hq : q.StandsIn r.counted) :
    q.Read r := by
  cases q with
  | csq => exact read_csq h hq
  | cesq => exact read_cesq h hq
  | reg => exact read_reg h hq
  | cpin => exact read_cpin h hr hq
  | cops => exact read_cops h hq
  | cgpaddr => exact read_cgpaddr h hr hq
  | cmgs => exact read_cmgs h hq
  | cmgr => exact read_cmgr h hr hq

end Report

/-! ## In the loop -/

variable {cfg : Config} {σ : Type} {table : Fin cfg.urcTableSize → UrcEntry cfg}
  {w₀ w : World cfg σ} {out : List (Message cfg)} {unfed : List UInt8}

/-- A modem in the loop gives answers only. -/
theorem Loop.answers (h : Loop table w₀ out unfed w) {e : CmdEntry cfg} {a : Reply}
    (hmem : .reply e a ∈ out) : a.Answers e table := by
  induction h with
  | init => cases hmem
  | app _ _ ih => exact ih hmem
  | send _ _ ih => exact ih hmem
  | tick _ _ ih => exact ih hmem
  | feed _ _ _ ih => exact ih hmem
  | news l _ _ ih =>
    rcases List.mem_append.mp hmem with hmem | hmem
    · exact ih hmem
    · cases List.mem_singleton.mp hmem
  | process _ _ _ replies _ _ _ _ _ _ hreplies ih =>
    rcases List.mem_append.mp hmem with hmem | hmem
    · exact ih hmem
    · obtain ⟨p, hp, heq⟩ := List.mem_map.mp hmem
      obtain ⟨rfl, rfl⟩ := Message.reply.inj heq
      exact (hreplies p hp).1

/-- The lines that a callback gets of an answer. -/
def Reply.told (a : Reply) (e : CmdEntry cfg) (table : Fin cfg.urcTableSize → UrcEntry cfg) :
    List (List UInt8) :=
  kept table (unechoed e.cmd.bytes a.init)

/-- A response to a command that was successful is one for the parsers. -/
theorem Reply.Answers.success (hfit : cfg.Fits) {a : Reply} {e : CmdEntry cfg}
    (h : a.Answers e table) (hok : a.last = ascii "OK") :
    (a.response e table).Success ∧ (a.response e table).counted = a.told e table := by
  have hresponse : a.response e table = ⟨.ok, 0, (a.told e table).length, a.told e table⟩ := by
    rw [Reply.response, hok]
    rfl
  have hcounted : (a.response e table).counted = a.told e table := by
    rw [hresponse]
    exact List.take_length
  have hroom : (a.told e table).length ≤ cfg.respLinesMax := h.payload.room
  have hlines := hfit.lines
  refine ⟨⟨?_, by rw [hresponse], fun l hl => ?_⟩, hcounted⟩
  · rw [hresponse]
    exact ⟨show (a.told e table).length < 256 by omega, Nat.le_refl _⟩
  · rw [hcounted] at hl
    exact (h.payload.text l (List.mem_of_mem_eraseP (List.mem_of_mem_filter hl))).nul

end LibAt
