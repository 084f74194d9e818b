import LibAt.HeaderText

/-!
# What a successful parse defines

A parser that returns `true` should have written its output, so that two calls with the
same response leave the same, whatever was there before. A string counts up to its
terminator, since the bytes behind it are never written.

For four of the parsers this is so. `at_parse_sms_read` copies the originating address
and the timestamp from between quotes, and where there is no quote it writes nothing and
goes on: so it is for the messages whose header is that of a message in text mode
(`outputDefined_iff`).
-/

namespace LibAt

namespace Checked

variable {n : Nat} {resp : Option Response} {str : Option (List UInt8)}

/-- The same string, terminated in both arrays. -/
def SameString (buf buf' : Vector UInt8 n) : Prop :=
  cstr buf.toList = cstr buf'.toList ∧ 0 ∈ buf ∧ 0 ∈ buf'

/-- Two successful calls leave the same in the output, whatever it held before, and
whatever the stack held. -/
structure OutputDefined (resp : Option Response) (str : Option (List UInt8)) : Prop where
  smsRead : ∀ stk stk' out out' v v', atParseSmsRead stk resp out = .ok (true, some v) →
    atParseSmsRead stk' resp out' = .ok (true, some v') →
    v.stat = v'.stat ∧ SameString v.oa v'.oa ∧ SameString v.scts v'.scts ∧
      SameString v.text v'.text
  csq : ∀ out out' v v', atParseCsq resp out = .ok (true, some v) →
    atParseCsq resp out' = .ok (true, some v') → v = v'
  cesq : ∀ out out' v v', atParseCesq resp out = .ok (true, some v) →
    atParseCesq resp out' = .ok (true, some v') → v = v'
  cops : ∀ out out' v v', atParseCops resp out = .ok (true, some v) →
    atParseCops resp out' = .ok (true, some v') →
    v.mode = v'.mode ∧ v.format = v'.format ∧ SameString v.oper v'.oper ∧ v.act = v'.act
  scts : ∀ out out' v v', atParseScts str out = .ok (true, some v) →
    atParseScts str out' = .ok (true, some v') → v = v'

/-- The condition. If there is a header of a message, it is written as in text mode. -/
def InTextMode (resp : Option Response) : Prop :=
  ∀ r ∈ resp, r.status = .ok → ∀ m ∈ smsHeader r, TextHeader m

theorem sameString_put {t : List UInt8} (h : t.length < n) (h0 : (0 : UInt8) ∉ t)
    (buf buf' : Vector UInt8 n) : SameString (put buf t) (put buf' t) :=
  ⟨by rw [cstr_put h h0, cstr_put h h0], zero_mem_put h buf, zero_mem_put h buf'⟩

/-- A text in quotes defines the array. -/
theorem sameString_fillQuoted (hn : 0 < n) {m : List UInt8} (hm : m.headD 0 = 34)
    (buf buf' : Vector UInt8 n) : SameString (fillQuoted m buf) (fillQuoted m buf') := by
  rw [fillQuoted, fillQuoted, if_pos hm, if_pos hm]
  refine sameString_put ?_ (fun h => zero_notMem_quotedText m (List.mem_of_mem_take h)) buf buf'
  have := List.length_take_le (n - 1) (quotedText m)
  omega

theorem sameString_text (l : List UInt8) (buf buf' : Vector UInt8 161) :
    SameString (put buf ((cstr l).take 160)) (put buf' ((cstr l).take 160)) :=
  sameString_put (Nat.lt_succ_of_le (List.length_take_le _ _))
    (fun h => zero_notMem_cstr l (List.mem_of_mem_take h)) buf buf'

theorem readCops_same (m : List UInt8) (o o' : Cops) :
    (readCops m o).mode = (readCops m o').mode ∧ (readCops m o).format = (readCops m o').format ∧
      SameString (readCops m o).oper (readCops m o').oper ∧
      (readCops m o).act = (readCops m o').act := by
  have hempty : SameString (put o.oper []) (put o'.oper []) :=
    sameString_put (by decide) List.not_mem_nil _ _
  have hname := sameString_put (length_operText (copsName m)) (zero_notMem_operText (copsName m))
    o.oper o'.oper
  rw [readCops, readCops]
  split
  · split
    · exact ⟨rfl, rfl, hname, rfl⟩
    · exact ⟨rfl, rfl, hempty, rfl⟩
  · exact ⟨rfl, rfl, hempty, rfl⟩

/-- Two calls that returned `true` have read the same header. -/
theorem smsRead_same (hresp : ∀ r ∈ resp, r.Valid) (h : InTextMode resp) {stk stk' : Stack}
    {out out' : Option Sms} {v v' : Sms} (hv : atParseSmsRead stk resp out = .ok (true, some v))
    (hv' : atParseSmsRead stk' resp out' = .ok (true, some v')) :
    v.stat = v'.stat ∧ SameString v.oa v'.oa ∧ SameString v.scts v'.scts ∧
      SameString v.text v'.text := by
  obtain ⟨r, m, hr, hs, hm, o, rfl⟩ := sms_read hresp hv
  obtain ⟨r', m', hr', -, hm', o', rfl⟩ := sms_read hresp hv'
  obtain rfl : r = r' := Option.some.inj (hr.symm.trans hr')
  obtain rfl : m = m' := Option.some.inj (hm.symm.trans hm')
  obtain ⟨hoa, hscts⟩ := (textHeader_iff m).mp (h r hr hs m hm)
  simp only [readSms]
  exact ⟨trivial, sameString_fillQuoted (by decide) hoa _ _,
    sameString_fillQuoted (by decide) hscts _ _, sameString_text _ _ _⟩

theorem csq_same (hresp : ∀ r ∈ resp, r.Valid) {out out' : Option Csq} {v v' : Csq}
    (hv : atParseCsq resp out = .ok (true, some v))
    (hv' : atParseCsq resp out' = .ok (true, some v')) : v = v' := by
  obtain ⟨r, m, hr, -, hm, hread⟩ := csq_read hresp hv
  obtain ⟨r', m', hr', -, hm', hread'⟩ := csq_read hresp hv'
  obtain rfl : r = r' := Option.some.inj (hr.symm.trans hr')
  obtain rfl : m = m' := Option.some.inj (hm.symm.trans hm')
  exact Option.some.inj (hread.symm.trans hread')

theorem cesq_same (hresp : ∀ r ∈ resp, r.Valid) {out out' : Option Cesq} {v v' : Cesq}
    (hv : atParseCesq resp out = .ok (true, some v))
    (hv' : atParseCesq resp out' = .ok (true, some v')) : v = v' := by
  obtain ⟨r, m, hr, -, hm, hread⟩ := cesq_read hresp hv
  obtain ⟨r', m', hr', -, hm', hread'⟩ := cesq_read hresp hv'
  obtain rfl : r = r' := Option.some.inj (hr.symm.trans hr')
  obtain rfl : m = m' := Option.some.inj (hm.symm.trans hm')
  exact hread.trans hread'.symm

theorem cops_same (hresp : ∀ r ∈ resp, r.Valid) {out out' : Option Cops} {v v' : Cops}
    (hv : atParseCops resp out = .ok (true, some v))
    (hv' : atParseCops resp out' = .ok (true, some v')) :
    v.mode = v'.mode ∧ v.format = v'.format ∧ SameString v.oper v'.oper ∧ v.act = v'.act := by
  obtain ⟨r, m, hr, -, hm, o, rfl⟩ := cops_read hresp hv
  obtain ⟨r', m', hr', -, hm', o', rfl⟩ := cops_read hresp hv'
  obtain rfl : r = r' := Option.some.inj (hr.symm.trans hr')
  obtain rfl : m = m' := Option.some.inj (hm.symm.trans hm')
  exact readCops_same m o o'

theorem scts_same {out out' : Option Scts} {v v' : Scts}
    (hv : atParseScts str out = .ok (true, some v))
    (hv' : atParseScts str out' = .ok (true, some v')) : v = v' := by
  rcases str with _ | str
  · cases hv
  · rcases out with _ | t
    · cases hv
    · rcases out' with _ | t'
      · cases hv'
      · exact Option.some.inj ((accepted_iff.mp hv).symm.trans (accepted_iff.mp hv'))

/-- **With a header in text mode**, all parsers define their output. -/
theorem outputDefined_of_textMode (hresp : ∀ r ∈ resp, r.Valid) (h : InTextMode resp) :
    OutputDefined resp str where
  smsRead _ _ _ _ _ _ := smsRead_same hresp h
  csq _ _ _ _ := csq_same hresp
  cesq _ _ _ _ := cesq_same hresp
  cops _ _ _ _ := cops_same hresp
  scts _ _ _ _ := scts_same

/-- An output without a NUL in its strings. -/
def filledSms : Sms :=
  ⟨Vector.replicate 20 65, Vector.replicate 24 65, Vector.replicate 161 65, 0, 0⟩

/-- **With any other**, an array stays as it is, and need not hold a string at all. -/
theorem textMode_of_outputDefined (hresp : ∀ r ∈ resp, r.Valid) (h : OutputDefined resp str) :
    InTextMode resp := by
  rintro r rfl hs m hm
  have hrun : atParseSmsRead Stack.zero (some r) (some filledSms) =
      .ok (true, some (readSms m (r.lines.getD 1 []) filledSms)) := by
    rw [atParseSmsRead_eq (hresp r rfl) hs, hm]
    rfl
  obtain ⟨-, ⟨-, hoa, -⟩, ⟨-, hscts, -⟩, -⟩ := h.smsRead _ _ _ _ _ _ hrun hrun
  apply (textHeader_iff m).mpr
  constructor
  · by_contra hno
    rw [readSms] at hoa
    dsimp only at hoa
    rw [fillQuoted, if_neg hno] at hoa
    exact absurd (Vector.eq_of_mem_replicate hoa) (by decide)
  · by_contra hno
    rw [readSms] at hscts
    dsimp only at hscts
    rw [fillQuoted, if_neg hno] at hscts
    exact absurd (Vector.eq_of_mem_replicate hscts) (by decide)

/-- **When a successful parse defines its output.** -/
theorem outputDefined_iff (hresp : ∀ r ∈ resp, r.Valid) :
    OutputDefined resp str ↔ InTextMode resp :=
  ⟨textMode_of_outputDefined hresp, outputDefined_of_textMode hresp⟩

/-- A message in text mode. -/
theorem outputDefined_iff_text :
    OutputDefined (some ⟨.ok, 0, 2,
      [ascii "+CMGR: \"REC READ\",\"+49123\",,\"24/03/15\"", ascii "hi"]⟩) none ↔
    InTextMode (some ⟨.ok, 0, 2,
      [ascii "+CMGR: \"REC READ\",\"+49123\",,\"24/03/15\"", ascii "hi"]⟩) := by
  refine outputDefined_iff ?_
  rintro r ⟨⟩
  exact ⟨by decide, by decide⟩

/-- The header of a message in PDU mode: a status, an empty alpha field and a length. -/
theorem pduHeader_undefined :
    ¬OutputDefined (some ⟨.ok, 0, 2, [ascii "+CMGR: 1,,24", ascii "07919471"]⟩) none := by
  intro h
  have hvalid : ∀ r ∈ some (Response.mk .ok 0 2 [ascii "+CMGR: 1,,24", ascii "07919471"]),
      r.Valid := by
    rintro r ⟨⟩
    exact ⟨by decide, by decide⟩
  have htext := textMode_of_outputDefined hvalid h _ rfl rfl _ rfl
  exact absurd ((textHeader_iff _).mp htext).1 (by decide)

end Checked

end LibAt
