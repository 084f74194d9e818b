import LibAt.Gsm
import LibAt.Transitions

/-!
# Injection through caller strings

The command that a helper of `at_gsm.c` puts into the queue, with the origin of
every byte: written by the helper itself, or part of a caller string that the
helper has checked, or part of one that it has not (`Helper.format`).

* `Helper.run_ok`: a helper that returns `AT_OK` has stored exactly the bytes of
  its format (`Built`), and what it checked holds no control character and no
  double quote (`Vetted`);
* `intact_iff`: so the stored command is one line with the intended fields
  exactly when the strings that were not checked are clean themselves.
-/

namespace LibAt

variable {cfg : Config}

/-! ## Bytes with their origin -/

/-- Where a byte of a command comes from: the helper, a caller string that it
checks, a caller string that it does not check. -/
inductive Origin where
  | own | checked | unchecked
  deriving DecidableEq, Repr

/-- Text whose bytes carry their origin. -/
abbrev Labelled := List (UInt8 × Origin)

/-- All of one origin. -/
def lbl (o : Origin) (m : List UInt8) : Labelled := m.map fun b => (b, o)

/-- A caller string between the helper's quotes. -/
def quoted (o : Origin) (m : List UInt8) : Labelled :=
  lbl .own [34] ++ lbl o (cstr m) ++ lbl .own [34]

/-- An optional last field. -/
def optQuoted (o : Origin) (m : Option (List UInt8)) : Labelled :=
  if cstr (m.getD []) = [] then [] else lbl .own [44] ++ quoted o (m.getD [])

/-- The helper's own bytes are no control characters, and checked strings hold
neither those nor quotes. -/
def Vetted (l : Labelled) : Prop :=
  ∀ p ∈ l, p.2 ≠ .unchecked → 32 ≤ p.1 ∧ (p.2 = .checked → p.1 ≠ 34)

/-- The label changes no byte. -/
@[simp] theorem lbl_map_fst (o : Origin) (m : List UInt8) : (lbl o m).map Prod.fst = m := by
  simp [lbl, Function.comp_def]

/-- What is put together is vetted part by part: by its origin, a byte may be none of the
control characters, -/
@[simp] theorem vetted_append (a b : Labelled) : Vetted (a ++ b) ↔ Vetted a ∧ Vetted b :=
  List.forall_mem_append

@[simp] theorem vetted_own (m : List UInt8) : Vetted (lbl .own m) ↔ ∀ b ∈ m, 32 ≤ b := by
  simp [Vetted, lbl]

/-- and no quote either, -/
@[simp] theorem vetted_checked (m : List UInt8) :
    Vetted (lbl .checked m) ↔ ∀ b ∈ m, 32 ≤ b ∧ b ≠ 34 := by
  simp [Vetted, lbl]

/-- or anything. -/
@[simp] theorem vetted_unchecked (m : List UInt8) : Vetted (lbl .unchecked m) := by
  simp [Vetted, lbl]

/-- Quotes around a vetted string are the builder's own. -/
theorem vetted_quoted {o : Origin} {m : List UInt8} (h : Vetted (lbl o (cstr m))) :
    Vetted (quoted o m) := by
  simp only [quoted, vetted_append, vetted_own]
  exact ⟨⟨by decide +kernel, h⟩, by decide +kernel⟩

/-- A string that is missing leaves nothing. -/
theorem vetted_optQuoted {o : Origin} {m : Option (List UInt8)}
    (h : Vetted (lbl o (cstr (m.getD [])))) : Vetted (optQuoted o m) := by
  rw [optQuoted]
  split
  · exact List.forall_mem_nil _
  · rw [vetted_append]
    exact ⟨(vetted_own _).mpr (by decide +kernel), vetted_quoted h⟩

/-- Digits are no control characters. -/
@[simp high] theorem vetted_decimal (v : Nat) : Vetted (lbl .own (decimal v)) := by
  rw [vetted_own]
  intro b hb
  rw [UInt8.le_iff_toNat_le]
  exact Nat.le_trans (by decide) (mem_decimal hb).1

/-! ## What the checks give -/

/-- A check of every character that admits only clean ones. -/
theorem vetted_of_all {p : UInt8 → Bool} {m : List UInt8}
    (hp : ∀ i : Fin 256, p (UInt8.ofFin i) = true → 32 ≤ i.val ∧ i.val ≠ 34)
    (h : (cstr m).all p = true) : Vetted (lbl .checked (cstr m)) := by
  rw [vetted_checked]
  intro b hb
  obtain ⟨hlo, hne⟩ := hp b.toFin (List.all_eq_true.mp h b hb)
  exact ⟨UInt8.le_iff_toNat_le.mpr hlo, fun h34 => hne (congrArg UInt8.toNat h34)⟩

/-- What each check of a string is good for: it lets through nothing that would break the line.
-/
theorem vetted_isPrintable {m : List UInt8} (h : isPrintable m = true) :
    Vetted (lbl .checked (cstr m)) :=
  vetted_of_all (by decide +kernel) h

theorem vetted_validatePhoneNumber {m : List UInt8} (h : validatePhoneNumber (some m) = true) :
    Vetted (lbl .checked (cstr m)) :=
  vetted_of_all (by decide +kernel) (Bool.and_eq_true_iff.mp h).2

theorem vetted_isDtmf {m : List UInt8} (h : isDtmf m = true) :
    Vetted (lbl .checked (cstr m)) :=
  vetted_of_all (by decide +kernel) h

theorem vetted_isHex {m : List UInt8} (h : isHex m = true) :
    Vetted (lbl .checked (cstr m)) :=
  vetted_of_all (by decide +kernel) h

/-! ## The helpers -/

/-- A call of one of the helpers that take caller strings. -/
inductive Helper where
  | cscsSet (charset : Option (List UInt8))
  | cpbsSet (storage : Option (List UInt8))
  | cpinEnter (pin : Option (List UInt8))
  | cpinPuk (puk newPin : Option (List UInt8))
  | clckQuery (fac : Option (List UInt8))
  | clckSet (fac : Option (List UInt8)) (mode : UInt8) (passwd : Option (List UInt8))
  | cpwd (fac oldPw newPw : Option (List UInt8))
  | copsManual (oper : Option (List UInt8)) (act : UInt8)
  | cpolWrite (idx fmt : UInt8) (oper : Option (List UInt8))
  | cclkSet (timeStr : Option (List UInt8))
  | cgdcont (ctx : Option Cgdcont)
  | cmgs (number text : Option (List UInt8))
  | cpms (mem1 mem2 mem3 : Option (List UInt8))
  | dial (number : Option (List UInt8)) (voice : Bool)
  | vts (tones : Option (List UInt8))
  | crsm (command : UInt8) (fileid : UInt16) (p1 p2 p3 : UInt8) (data : Option (List UInt8))
  | cusd (ussdStr : Option (List UInt8)) (dcs : UInt8)

namespace Helper

/-- Make the call. -/
def run (h : Helper) (stk : Stack) (cb : Option Ptr) (user : Ptr) (g : Engine cfg) :
    AtResult × Engine cfg :=
  match h with
  | cscsSet charset => atGsmCscsSet stk cb user g charset
  | cpbsSet storage => atGsmCpbsSet stk cb user g storage
  | cpinEnter pin => atGsmCpinEnter stk cb user g pin
  | cpinPuk puk newPin => atGsmCpinPuk stk cb user g puk newPin
  | clckQuery fac => atGsmClckQuery stk cb user g fac
  | clckSet fac mode passwd => atGsmClckSet stk cb user g fac mode passwd
  | cpwd fac oldPw newPw => atGsmCpwd stk cb user g fac oldPw newPw
  | copsManual oper act => atGsmCopsManual stk cb user g oper act
  | cpolWrite idx fmt oper => atGsmCpolWrite stk cb user g idx fmt oper
  | cclkSet timeStr => atGsmCclkSet stk cb user g timeStr
  | cgdcont ctx => atGsmCgdcont stk cb user g ctx
  | cmgs number text => atGsmCmgs stk cb user g number text
  | cpms mem1 mem2 mem3 => atGsmCpms stk cb user g mem1 mem2 mem3
  | dial number voice => atGsmDial stk cb user g number voice
  | vts tones => atGsmVts stk cb user g tones
  | crsm command fileid p1 p2 p3 data => atGsmCrsm stk cb user g command fileid p1 p2 p3 data
  | cusd ussdStr dcs => atGsmCusd stk cb user g ussdStr dcs

/-- The bytes before the first caller string. -/
def opening : Helper → List UInt8
  | cscsSet _ => ascii "AT+CSCS="
  | cpbsSet _ => ascii "AT+CPBS="
  | cpinEnter _ | cpinPuk .. => ascii "AT+CPIN="
  | clckQuery _ | clckSet .. => ascii "AT+CLCK="
  | cpwd .. => ascii "AT+CPWD="
  | copsManual .. => ascii "AT+COPS=1,2,"
  | cpolWrite .. => ascii "AT+CPOL="
  | cclkSet _ => ascii "AT+CCLK="
  | cgdcont _ => ascii "AT+CGDCONT="
  | cmgs .. => ascii "AT+CMGS="
  | cpms .. => ascii "AT+CPMS="
  | dial .. => ascii "ATD"
  | vts _ => ascii "AT+VTS="
  | crsm .. => ascii "AT+CRSM="
  | cusd .. => ascii "AT+CUSD=1,"

/-- The fields behind the opening, each with its origin. -/
def fields : Helper → Labelled
  | cscsSet s | cpbsSet s => quoted .checked (s.getD [])
  | cpinEnter s | cclkSet s => quoted .unchecked (s.getD [])
  | cpinPuk puk newPin =>
    quoted .unchecked (puk.getD []) ++ lbl .own [44] ++ quoted .unchecked (newPin.getD [])
  | clckQuery fac => quoted .unchecked (fac.getD []) ++ lbl .own [44, 50]
  | clckSet fac mode passwd =>
    quoted .unchecked (fac.getD []) ++ lbl .own [44] ++ lbl .own (decimal mode.toNat) ++
      optQuoted .unchecked passwd
  | cpwd fac oldPw newPw =>
    quoted .unchecked (fac.getD []) ++ lbl .own [44] ++ quoted .unchecked (oldPw.getD []) ++
      lbl .own [44] ++ quoted .unchecked (newPw.getD [])
  | copsManual s n | cusd s n =>
    quoted .unchecked (s.getD []) ++ lbl .own [44] ++ lbl .own (decimal n.toNat)
  | cpolWrite idx fmt oper =>
    lbl .own (decimal idx.toNat) ++ lbl .own [44] ++ lbl .own (decimal fmt.toNat) ++
      lbl .own [44] ++ quoted .checked (oper.getD [])
  | cgdcont none => []
  | cgdcont (some ctx) =>
    lbl .own (decimal ctx.cid.toNat) ++ lbl .own [44] ++ quoted .unchecked ctx.pdpType.bytes ++
      lbl .own [44] ++ quoted .unchecked ctx.apn.bytes ++
      optQuoted .unchecked (some ctx.addr.bytes)
  | cmgs number _ => quoted .checked (number.getD [])
  | cpms mem1 mem2 mem3 =>
    quoted .checked (mem1.getD []) ++ optQuoted .unchecked mem2 ++ optQuoted .unchecked mem3
  | dial number voice =>
    lbl .checked (cstr (number.getD [])) ++ lbl .own (if voice then [59] else [])
  | vts tones => lbl .checked (cstr (tones.getD []))
  | crsm command fileid p1 p2 p3 data =>
    lbl .own (decimal command.toNat) ++ lbl .own [44] ++ lbl .own (decimal fileid.toNat) ++
      lbl .own [44] ++ lbl .own (decimal p1.toNat) ++ lbl .own [44] ++
      lbl .own (decimal p2.toNat) ++ lbl .own [44] ++ lbl .own (decimal p3.toNat) ++
      optQuoted .checked data

/-- The command line a helper is meant to send. -/
def format (h : Helper) : Labelled := lbl .own h.opening ++ h.fields

/-- The message text a helper sends behind the command. -/
def text : Helper → List UInt8
  | cmgs _ text => cstr (text.getD [])
  | _ => []

/-- A line from vetted fields is vetted. -/
theorem vetted_format {h : Helper} (hv : Vetted h.fields) : Vetted h.format := by
  have hop : ∀ b ∈ h.opening, 32 ≤ b := by
    cases h <;> simp only [opening] <;> decide +kernel
  exact (vetted_append _ _).mpr ⟨(vetted_own _).mpr hop, hv⟩

end Helper

/-! ## What a helper stores -/

/-- A builder that returns `AT_OK` has stored the texts of its items. -/
theorem sendBuilt_ok {n : Nat} (hn : 0 < n) {buf : Local n} {items : List AbItem} {t : Nat}
    {cb : Option Ptr} {user : Ptr} {g g' : Engine cfg} (hwf : AbItem.char 0 ∉ items)
    (h : sendBuilt buf items t cb user g = (.ok, g')) :
    (g'.queue g.qHead).cmd.bytes = (AbItem.texts items).take (cfg.txBufSize - 1) ∧
      (g'.queue g.qHead).body.bytes = [] := by
  rw [sendBuilt] at h
  split at h
  · rename_i hok
    rw [atSend_stored h]
    refine ⟨?_, List.take_nil⟩
    exact congrArg (List.take _) (Ab.appends_done hn hwf hok)
  · exact nomatch (Prod.mk.inj h).1

/-- What a helper that returned `AT_OK` has put into the queue. -/
structure Helper.Built (h : Helper) (e : CmdEntry cfg) : Prop where
  cmd : e.cmd.bytes = (h.format.map Prod.fst).take (cfg.txBufSize - 1)
  body : e.body.bytes = h.text.take (cfg.txBufSize * 2 - 1)
  vetted : Vetted h.format

/-- A helper that ends in `sendBuilt` stores its format, when its items spell
it. -/
theorem Helper.built_of_sendBuilt {h : Helper} {n : Nat} (hn : 0 < n) {buf : Local n}
    {items : List AbItem} {t : Nat} {cb : Option Ptr} {user : Ptr} {g g' : Engine cfg}
    (hrun : sendBuilt buf items t cb user g = (.ok, g')) (hwf : AbItem.char 0 ∉ items)
    (htexts : AbItem.texts items = h.format.map Prod.fst) (htext : h.text = [])
    (hv : Vetted h.fields) : h.Built (g'.queue g.qHead) := by
  obtain ⟨hcmd, hbody⟩ := sendBuilt_ok hn hwf hrun
  exact ⟨by rw [hcmd, htexts], by rw [hbody, htext, List.take_nil], vetted_format hv⟩

/-- What the builder puts into the line is the string in its quotes. -/
theorem texts_optQstr (o : Origin) (m : Option (List UInt8)) :
    AbItem.texts (optQstr m) = (optQuoted o m).map Prod.fst := by
  cases m with
  | none => simp [optQstr, optQuoted, cstr]
  | some m =>
    rw [optQstr, optQuoted]
    split <;> simp_all [AbItem.text, quoted]

/-- And no terminator. -/
theorem optQstr_wf (m : Option (List UInt8)) : AbItem.char 0 ∉ optQstr m := by
  cases m with
  | none => exact List.not_mem_nil
  | some m =>
    rw [optQstr]
    split <;> simp

/-- `at_gsm_crsm` writes its file identifier in decimal. -/
theorem fileidDigits_eq (v : UInt16) : fileidDigits v = decimal v.toNat := by
  have hlt := v.toNat_lt
  rcases Nat.eq_zero_or_pos v.toNat with h0 | hpos
  · rw [fileidDigits, h0]
    decide
  · rw [← lsdDigits_reverse (show v.toNat < 10 ^ 7 by omega) (by omega), lsdDigits, if_neg (by omega)]
    rfl

/-- A check of the arguments that a call has passed. -/
theorem of_bool_guard {b : Bool} {g g' : Engine cfg} {k : AtResult × Engine cfg}
    (h : (if !b then (AtResult.errParam, g) else k) = (.ok, g')) : b = true ∧ k = (.ok, g') := by
  obtain ⟨hb, hk⟩ := of_guard (by decide) h
  exact ⟨by simpa using hb, hk⟩

namespace Helper

section Calls

variable {stk : Stack} {cb : Option Ptr} {user : Ptr} {g g' : Engine cfg}

-- each of these: the NULL pointers, the checks, then what the chain of appends spells

/-- Each helper, where it accepts its arguments, has built what its format says. -/
theorem cscsSet_ok {s : Option (List UInt8)}
    (hrun : atGsmCscsSet stk cb user g s = (.ok, g')) :
    (cscsSet s).Built (g'.queue g.qHead) := by
  obtain _ | s := s
  · exact nomatch (Prod.mk.inj hrun).1
  obtain ⟨-, hrun⟩ := of_guard (by decide) hrun
  obtain ⟨hs, hrun⟩ := of_bool_guard hrun
  refine built_of_sendBuilt (by decide) hrun (by simp) ?_ rfl
    (vetted_quoted (vetted_isPrintable hs))
  simp [format, opening, fields, quoted, AbItem.text, ascii]

theorem cpbsSet_ok {s : Option (List UInt8)}
    (hrun : atGsmCpbsSet stk cb user g s = (.ok, g')) :
    (cpbsSet s).Built (g'.queue g.qHead) := by
  obtain _ | s := s
  · exact nomatch (Prod.mk.inj hrun).1
  obtain ⟨-, hrun⟩ := of_guard (by decide) hrun
  obtain ⟨hs, hrun⟩ := of_bool_guard hrun
  refine built_of_sendBuilt (by decide) hrun (by simp) ?_ rfl
    (vetted_quoted (vetted_isPrintable hs))
  simp [format, opening, fields, quoted, AbItem.text, ascii]

theorem cpinEnter_ok {s : Option (List UInt8)}
    (hrun : atGsmCpinEnter stk cb user g s = (.ok, g')) :
    (cpinEnter s).Built (g'.queue g.qHead) := by
  obtain _ | s := s
  · exact nomatch (Prod.mk.inj hrun).1
  obtain ⟨-, hrun⟩ := of_guard (by decide) hrun
  refine built_of_sendBuilt (by decide) hrun (by simp) ?_ rfl
    (vetted_quoted (vetted_unchecked _))
  simp [format, opening, fields, quoted, AbItem.text, ascii]

/-- Two strings in one line. -/
theorem cpinPuk_ok {puk newPin : Option (List UInt8)}
    (hrun : atGsmCpinPuk stk cb user g puk newPin = (.ok, g')) :
    (cpinPuk puk newPin).Built (g'.queue g.qHead) := by
  obtain _ | puk := puk
  · exact nomatch (Prod.mk.inj hrun).1
  obtain _ | newPin := newPin
  · exact nomatch (Prod.mk.inj hrun).1
  refine built_of_sendBuilt (by decide) hrun (by simp) ?_ rfl ?_
  · simp [format, opening, fields, quoted, AbItem.text, ascii]
  · simp [fields, vetted_quoted]

theorem clckQuery_ok {fac : Option (List UInt8)}
    (hrun : atGsmClckQuery stk cb user g fac = (.ok, g')) :
    (clckQuery fac).Built (g'.queue g.qHead) := by
  obtain _ | fac := fac
  · exact nomatch (Prod.mk.inj hrun).1
  refine built_of_sendBuilt (by decide) hrun (by simp) ?_ rfl ?_
  · simp [format, opening, fields, quoted, AbItem.text, ascii]
  · simp [fields, vetted_quoted]

/-- A password that is missing or empty leaves no field. -/
theorem clckSet_ok {fac passwd : Option (List UInt8)} {mode : UInt8}
    (hrun : atGsmClckSet stk cb user g fac mode passwd = (.ok, g')) :
    (clckSet fac mode passwd).Built (g'.queue g.qHead) := by
  obtain _ | fac := fac
  · exact nomatch (Prod.mk.inj hrun).1
  refine built_of_sendBuilt (by decide) hrun (by simp [optQstr_wf]) ?_ rfl ?_
  · simp [format, opening, fields, quoted, AbItem.text, ascii, texts_optQstr .unchecked]
  · simp [fields, vetted_quoted, vetted_optQuoted]

theorem cpwd_ok {fac oldPw newPw : Option (List UInt8)}
    (hrun : atGsmCpwd stk cb user g fac oldPw newPw = (.ok, g')) :
    (cpwd fac oldPw newPw).Built (g'.queue g.qHead) := by
  obtain _ | fac := fac
  · exact nomatch (Prod.mk.inj hrun).1
  obtain _ | oldPw := oldPw
  · exact nomatch (Prod.mk.inj hrun).1
  obtain _ | newPw := newPw
  · exact nomatch (Prod.mk.inj hrun).1
  refine built_of_sendBuilt (by decide) hrun (by simp) ?_ rfl ?_
  · simp [format, opening, fields, quoted, AbItem.text, ascii]
  · simp [fields, vetted_quoted]

/-- The operator's code comes in front of the access technology. -/
theorem copsManual_ok {oper : Option (List UInt8)} {act : UInt8}
    (hrun : atGsmCopsManual stk cb user g oper act = (.ok, g')) :
    (copsManual oper act).Built (g'.queue g.qHead) := by
  obtain _ | oper := oper
  · exact nomatch (Prod.mk.inj hrun).1
  refine built_of_sendBuilt (by decide) hrun (by simp) ?_ rfl ?_
  · simp [format, opening, fields, quoted, AbItem.text, ascii]
  · simp [fields, vetted_quoted]

theorem cpolWrite_ok {idx fmt : UInt8} {oper : Option (List UInt8)}
    (hrun : atGsmCpolWrite stk cb user g idx fmt oper = (.ok, g')) :
    (cpolWrite idx fmt oper).Built (g'.queue g.qHead) := by
  obtain _ | oper := oper
  · exact nomatch (Prod.mk.inj hrun).1
  obtain ⟨-, hrun⟩ := of_guard (by decide) hrun
  obtain ⟨-, hrun⟩ := of_guard (by decide) hrun
  obtain ⟨hs, hrun⟩ := of_bool_guard hrun
  refine built_of_sendBuilt (by decide) hrun (by simp) ?_ rfl ?_
  · simp [format, opening, fields, quoted, AbItem.text, ascii]
  · simp [fields, vetted_quoted (vetted_isPrintable hs)]

theorem cclkSet_ok {s : Option (List UInt8)}
    (hrun : atGsmCclkSet stk cb user g s = (.ok, g')) :
    (cclkSet s).Built (g'.queue g.qHead) := by
  obtain _ | s := s
  · exact nomatch (Prod.mk.inj hrun).1
  refine built_of_sendBuilt (by decide) hrun (by simp) ?_ rfl
    (vetted_quoted (vetted_unchecked _))
  simp [format, opening, fields, quoted, AbItem.text, ascii]

/-- An address that is empty leaves no field. -/
theorem cgdcont_ok {ctx : Option Cgdcont}
    (hrun : atGsmCgdcont stk cb user g ctx = (.ok, g')) :
    (cgdcont ctx).Built (g'.queue g.qHead) := by
  obtain _ | ctx := ctx
  · exact nomatch (Prod.mk.inj hrun).1
  refine built_of_sendBuilt (by decide) hrun (by simp [optQstr_wf]) ?_ rfl ?_
  · simp [format, opening, fields, quoted, AbItem.text, ascii, texts_optQstr .unchecked]
  · simp [fields, vetted_quoted, vetted_optQuoted]

/-- The number goes into the line, and the text into the body. -/
theorem cmgs_ok {number text : Option (List UInt8)}
    (hrun : atGsmCmgs stk cb user g number text = (.ok, g')) :
    (cmgs number text).Built (g'.queue g.qHead) := by
  obtain _ | number := number
  · exact nomatch (Prod.mk.inj hrun).1
  obtain _ | text := text
  · exact nomatch (Prod.mk.inj hrun).1
  obtain ⟨hs, hrun⟩ := of_bool_guard hrun
  obtain ⟨-, hrun⟩ := of_guard (by decide) hrun
  obtain ⟨-, hrun⟩ := of_guard (by decide) hrun
  -- the one helper with a body: it calls `at_send` itself
  dsimp only at hrun
  split at hrun
  · rename_i hok
    have hcmd := Ab.appends_done (by decide) (by simp) hok
    rw [atSend_stored hrun]
    refine ⟨?_, rfl, vetted_format (vetted_quoted (vetted_validatePhoneNumber hs))⟩
    refine congrArg (List.take _) (hcmd.trans ?_)
    simp [format, opening, fields, quoted, AbItem.text, ascii]
  · exact nomatch (Prod.mk.inj hrun).1

/-- A storage that is missing leaves no field, and only the first one is checked. -/
theorem cpms_ok {mem1 mem2 mem3 : Option (List UInt8)}
    (hrun : atGsmCpms stk cb user g mem1 mem2 mem3 = (.ok, g')) :
    (cpms mem1 mem2 mem3).Built (g'.queue g.qHead) := by
  obtain _ | mem1 := mem1
  · exact nomatch (Prod.mk.inj hrun).1
  obtain ⟨-, hrun⟩ := of_guard (by decide) hrun
  obtain ⟨hs, hrun⟩ := of_bool_guard hrun
  refine built_of_sendBuilt (by decide) hrun (by simp [optQstr_wf]) ?_ rfl ?_
  · simp [format, opening, fields, quoted, AbItem.text, ascii, texts_optQstr .unchecked]
  · simp [fields, vetted_quoted (vetted_isPrintable hs), vetted_optQuoted]

/-- A voice call ends with a semicolon. -/
theorem dial_ok {number : Option (List UInt8)} {voice : Bool}
    (hrun : atGsmDial stk cb user g number voice = (.ok, g')) :
    (dial number voice).Built (g'.queue g.qHead) := by
  obtain _ | number := number
  · exact nomatch (Prod.mk.inj hrun).1
  obtain ⟨hs, hrun⟩ := of_bool_guard hrun
  refine built_of_sendBuilt (by decide) hrun (by cases voice <;> simp) ?_ rfl ?_
  · cases voice <;> simp [format, opening, fields, AbItem.text, ascii]
  · refine (vetted_append _ _).mpr ⟨vetted_validatePhoneNumber hs, (vetted_own _).mpr ?_⟩
    cases voice <;> decide +kernel

theorem vts_ok {tones : Option (List UInt8)}
    (hrun : atGsmVts stk cb user g tones = (.ok, g')) :
    (vts tones).Built (g'.queue g.qHead) := by
  obtain _ | tones := tones
  · exact nomatch (Prod.mk.inj hrun).1
  obtain ⟨-, hrun⟩ := of_guard (by decide) hrun
  obtain ⟨hs, hrun⟩ := of_bool_guard hrun
  refine built_of_sendBuilt (by decide) hrun (by simp) ?_ rfl (vetted_isDtmf hs)
  simp [format, opening, fields, AbItem.text, ascii]

/-- The data is hexadecimal, or leaves no field. -/
theorem crsm_ok {command : UInt8} {fileid : UInt16} {p1 p2 p3 : UInt8}
    {data : Option (List UInt8)}
    (hrun : atGsmCrsm stk cb user g command fileid p1 p2 p3 data = (.ok, g')) :
    (crsm command fileid p1 p2 p3 data).Built (g'.queue g.qHead) := by
  obtain ⟨hs, hrun⟩ := of_bool_guard hrun
  refine built_of_sendBuilt (by decide) hrun (by simp [optQstr_wf]) ?_ rfl ?_
  · simp [format, opening, fields, AbItem.text, ascii, texts_optQstr .checked,
      fileidDigits_eq, cstr_eq_self (zero_notMem_decimal _)]
  · simp [fields, vetted_optQuoted (vetted_isHex hs)]

/-- The text comes in quotes, and the coding scheme behind it. -/
theorem cusd_ok {s : Option (List UInt8)} {dcs : UInt8}
    (hrun : atGsmCusd stk cb user g s dcs = (.ok, g')) :
    (cusd s dcs).Built (g'.queue g.qHead) := by
  obtain _ | s := s
  · exact nomatch (Prod.mk.inj hrun).1
  refine built_of_sendBuilt (by decide) hrun (by simp) ?_ rfl ?_
  · simp [format, opening, fields, quoted, AbItem.text, ascii]
  · simp [fields, vetted_quoted]

/-- **What `AT_OK` means.** A helper that returns `AT_OK` has stored its format
and its text, and has kept control characters and quotes out of everything it
checks. -/
theorem run_ok {h : Helper} (hrun : h.run stk cb user g = (.ok, g')) :
    h.Built (g'.queue g.qHead) := by
  cases h with
  | cscsSet s => exact cscsSet_ok hrun
  | cpbsSet s => exact cpbsSet_ok hrun
  | cpinEnter s => exact cpinEnter_ok hrun
  | cpinPuk puk newPin => exact cpinPuk_ok hrun
  | clckQuery fac => exact clckQuery_ok hrun
  | clckSet fac mode passwd => exact clckSet_ok hrun
  | cpwd fac oldPw newPw => exact cpwd_ok hrun
  | copsManual oper act => exact copsManual_ok hrun
  | cpolWrite idx fmt oper => exact cpolWrite_ok hrun
  | cclkSet s => exact cclkSet_ok hrun
  | cgdcont ctx => exact cgdcont_ok hrun
  | cmgs number text => exact cmgs_ok hrun
  | cpms mem1 mem2 mem3 => exact cpms_ok hrun
  | dial number voice => exact dial_ok hrun
  | vts tones => exact vts_ok hrun
  | crsm command fileid p1 p2 p3 data => exact crsm_ok hrun
  | cusd s dcs => exact cusd_ok hrun

end Calls

/-- The stored command is one line with the intended fields, and the body ends
only at the engine's own Ctrl-Z. -/
structure Intact (h : Helper) (e : CmdEntry cfg) : Prop where
  stored : e.cmd.bytes = (h.format.take (cfg.txBufSize - 1)).map Prod.fst
  /-- no control character -/
  printable : ∀ b ∈ e.cmd.bytes, 0x20 ≤ b
  /-- no double quote out of a caller string -/
  quotes : ∀ p ∈ h.format.take (cfg.txBufSize - 1), p.2 ≠ .own → p.1 ≠ 34
  /-- no Ctrl-Z and no ESC -/
  body : ∀ b ∈ e.body.bytes, b ≠ 0x1A ∧ b ≠ 0x1B

/-- The strings that the helper does not check are clean: no control character
and no double quote in the fields, no Ctrl-Z and no ESC in the text, as far as
the stored command and body reach. -/
def Clean (cfg : Config) (h : Helper) : Prop :=
  (∀ p ∈ h.format.take (cfg.txBufSize - 1), p.2 = .unchecked → 0x20 ≤ p.1 ∧ p.1 ≠ 34) ∧
    ∀ b ∈ h.text.take (cfg.txBufSize * 2 - 1), b ≠ 0x1A ∧ b ≠ 0x1B

/-- **No injection, if the caller sees to it.** A helper that returns `AT_OK`
has stored one intact command exactly when the strings it does not check are
clean. -/
theorem intact_iff (h : Helper) (stk : Stack) (cb : Option Ptr) (user : Ptr) (g g' : Engine cfg)
    (hrun : h.run stk cb user g = (.ok, g')) :
    h.Intact (g'.queue g.qHead) ↔ h.Clean cfg := by
  have hb := run_ok hrun
  have hstored : (g'.queue g.qHead).cmd.bytes =
      (h.format.take (cfg.txBufSize - 1)).map Prod.fst := by rw [hb.cmd, List.map_take]
  constructor
  · rintro ⟨-, hprint, hquote, hbody⟩
    rw [hstored] at hprint
    rw [hb.body] at hbody
    refine ⟨fun p hp hun => ⟨hprint _ (List.mem_map_of_mem hp), ?_⟩, hbody⟩
    exact hquote p hp (by rw [hun]; decide)
  · rintro ⟨hclean, htext⟩
    refine ⟨hstored, ?_, ?_, by rwa [hb.body]⟩
    · rw [hstored]
      intro b hbm
      obtain ⟨p, hp, rfl⟩ := List.mem_map.mp hbm
      by_cases hun : p.2 = .unchecked
      · exact (hclean p hp hun).1
      · exact (hb.vetted p (List.mem_of_mem_take hp) hun).1
    · intro p hp hown
      by_cases hun : p.2 = .unchecked
      · exact (hclean p hp hun).2
      · refine (hb.vetted p (List.mem_of_mem_take hp) hun).2 ?_
        -- neither the helper's own nor unchecked
        cases hpo : p.2 <;> simp_all

/-- Two storages, the first one checked. -/
theorem intact_iff_cpms : ∃ g' : Engine Config.default,
    (cpms (some (ascii "SM")) (some (ascii "ME")) none).run .zero none 0 (atInit _) = (.ok, g') ∧
      ((cpms (some (ascii "SM")) (some (ascii "ME")) none).Intact (g'.queue (atInit _).qHead) ↔
        (cpms (some (ascii "SM")) (some (ascii "ME")) none).Clean Config.default) :=
  have hrun := eq_ok_of_fst (show ((cpms (some (ascii "SM")) (some (ascii "ME")) none).run .zero
    none 0 (atInit _)).1 = .ok by decide +kernel)
  ⟨_, hrun, intact_iff _ _ _ _ _ _ hrun⟩

/-- A PIN that ends its own field and line: the modem is sent `AT+CPIN="1"` and
then `ATH"`. -/
theorem pin_injects : ∃ g' : Engine Config.default,
    (cpinEnter (some [49, 34, 13, 65, 84, 72])).run .zero none 0 (atInit _) = (.ok, g') ∧
      ¬(cpinEnter (some [49, 34, 13, 65, 84, 72])).Intact (g'.queue (atInit _).qHead) := by
  refine ⟨_, eq_ok_of_fst (by decide +kernel), fun h => ?_⟩
  exact absurd (h.printable 13 (by decide +kernel)) (by decide)

end Helper

end LibAt
