import LibAt.PdpAddress
import LibAt.PinStatus
import LibAt.Timestamps

/-!
# The parsers are safe

Whatever a modem has answered, and whatever the output held before, each of the nine
parsers returns: it reads no line behind its terminator, no signed operation
overflows, and nothing is written outside the arrays of the output (`parsers_safe`).
The strings in the output are as they were or end in their arrays (`StringOk`).

That a parser returns is said by the equation for it, and what it leaves in the output
as well.
-/

namespace LibAt

namespace Checked

/-! ## Parsers -/

variable {resp : Option Response} {r : Response} {n : Nat}

/-- Every parser begins with the test of its arguments. -/
theorem withArgs_yields {α : Type} {out : Option α} {body : Response → α → M (Bool × Option α)}
    {Q : Bool × Option α → Prop} (hresp : ∀ r ∈ resp, r.Valid) (hfail : Q (false, out))
    (h : ∀ r o, r.Valid → r.status = .ok → out = some o →
      Yields (withArgs (some r) (some o) body) Q) :
    Yields (withArgs resp out body) Q := by
  cases resp with
  | none => exact .pure hfail
  | some r =>
    cases out with
    | none => exact .pure hfail
    | some o =>
      by_cases hs : r.status = .ok
      · exact h r o (hresp r rfl) hs rfl
      · rw [withArgs, if_pos hs]
        exact .pure hfail

/-- Parsers with numbers only: from the equation for each it is read off that it returns. -/
theorem atParseCsq_yields (hresp : ∀ r ∈ resp, r.Valid) (out : Option Csq) :
    Yields (atParseCsq resp out) fun _ => True := by
  refine withArgs_yields hresp trivial ?_
  rintro r csq hr hs rfl
  exact .of_eq (atParseCsq_eq hr hs csq) trivial

theorem atParseCesq_yields (hresp : ∀ r ∈ resp, r.Valid) (out : Option Cesq) :
    Yields (atParseCesq resp out) fun _ => True := by
  refine withArgs_yields hresp trivial ?_
  rintro r cesq hr hs rfl
  exact .of_eq (atParseCesq_eq hr hs cesq) trivial

theorem atParseCpin_yields (hresp : ∀ r ∈ resp, r.Valid) (out : Option AtCpin) :
    Yields (atParseCpin resp out) fun _ => True := by
  refine withArgs_yields hresp trivial ?_
  rintro r pin hr hs rfl
  exact .of_eq (atParseCpin_eq hr hs pin) trivial

theorem atParseCmgs_yields (hresp : ∀ r ∈ resp, r.Valid) (mrOut : Option UInt8) :
    Yields (atParseCmgs resp mrOut) fun _ => True := by
  refine withArgs_yields hresp trivial ?_
  rintro r mr hr hs rfl
  exact .of_eq (atParseCmgs_eq hr hs mr) trivial

theorem atParseCreg_yields (hresp : ∀ r ∈ resp, r.Valid) (out : Option UInt32) :
    Yields (atParseCreg resp out) fun _ => True := by
  refine withArgs_yields hresp trivial ?_
  rintro r stat hr hs rfl
  exact .of_eq (atParseCreg_eq hr hs stat) trivial

/-- A timestamp is parsed whatever the string is. -/
theorem atParseScts_yields (sctsStr : Option (List UInt8)) (out : Option Scts) :
    Yields (atParseScts sctsStr out) fun _ => True := by
  cases sctsStr with
  | none => exact .pure trivial
  | some str =>
    cases out with
    | none => exact .pure trivial
    | some t =>
      obtain ⟨t', hrun, -⟩ := atParseScts_tells str t
      exact .of_eq hrun trivial

/-! ## Strings in the output -/

/-- A string of the output is as it was before, or ends in its array. -/
def StringOk {α : Type} {n : Nat} (field : α → Vector UInt8 n) (out out' : Option α) : Prop :=
  ∀ o' ∈ out', (∃ o ∈ out, field o' = field o) ∨ 0 ∈ field o'

/-- An output that is not written is as it was. -/
theorem StringOk.refl {α : Type} (field : α → Vector UInt8 n) (out : Option α) :
    StringOk field out out := fun o ho => .inl ⟨o, ho, rfl⟩

/-- An array that was written holds its terminator. -/
theorem StringOk.ended {α : Type} {field : α → Vector UInt8 n} {out : Option α} {o' : α}
    (h : 0 ∈ field o') : StringOk field out (some o') := by
  rintro o ⟨⟩
  exact .inr h

/-- A parser may write an array or leave it. -/
theorem StringOk.of_or {α : Type} {field : α → Vector UInt8 n} {o o' : α}
    (h : field o' = field o ∨ 0 ∈ field o') : StringOk field (some o) (some o') := by
  rintro o'' ⟨⟩
  exact h.imp (fun h => ⟨o, rfl, h⟩) id

/-- An array that is written ends there. -/
theorem fillQuoted_ends (hn : 0 < n) (m : List UInt8) (buf : Vector UInt8 n) :
    fillQuoted m buf = buf ∨ 0 ∈ fillQuoted m buf := by
  rw [fillQuoted]
  split
  · refine .inr (zero_mem_put ?_ buf)
    have := List.length_take_le (n - 1) (quotedText m)
    omega
  · exact .inl rfl

/-- The operator name is always written, -/
theorem readCops_ends (m : List UInt8) (out : Cops) : 0 ∈ (readCops m out).oper := by
  rw [readCops]
  split
  · split
    · exact zero_mem_put (length_operText _) _
    · exact zero_mem_put (Nat.succ_pos _) _
  · exact zero_mem_put (Nat.succ_pos _) _

/-- the fields of a message only where they stand in quotes. -/
theorem readSms_ends (m text : List UInt8) (out : Sms) :
    ((readSms m text out).oa = out.oa ∨ 0 ∈ (readSms m text out).oa) ∧
      ((readSms m text out).scts = out.scts ∨ 0 ∈ (readSms m text out).scts) ∧
      0 ∈ (readSms m text out).text := by
  have htext := Nat.lt_succ_of_le (List.length_take_le 160 (cstr text))
  simp only [readSms]
  exact ⟨fillQuoted_ends (Nat.succ_pos _) _ _, fillQuoted_ends (Nat.succ_pos _) _ _,
    zero_mem_put htext _⟩

/-- Parsers with strings: the same, and what the equation says of the arrays. -/
theorem atParseCops_yields (hresp : ∀ r ∈ resp, r.Valid) (out : Option Cops) :
    Yields (atParseCops resp out) fun x => StringOk Cops.oper out x.2 := by
  refine withArgs_yields hresp (.refl _ _) ?_
  rintro r cops hr hs rfl
  refine .of_eq (atParseCops_eq hr hs cops) ?_
  cases findValue r (ascii "+COPS") with
  | none => exact .refl _ _
  | some m => exact .ended (readCops_ends m cops)

/-- The buffer for an address has room for the terminator at least. -/
theorem atParseCgpaddr_yields (hresp : ∀ r ∈ resp, r.Valid) (cid : UInt8) (hn : 0 < n)
    (ipBuf : Option (Vector UInt8 n)) :
    Yields (atParseCgpaddr resp cid ipBuf) fun x => StringOk id ipBuf x.2 := by
  refine withArgs_yields hresp (.refl _ _) ?_
  rintro r buf hr hs rfl
  have heq := atParseCgpaddr_eq hr hs cid buf
  cases hm : firstTaken r cid with
  | none =>
    rw [hm] at heq
    exact .of_eq heq (.refl _ _)
  | some m =>
    rw [hm] at heq
    dsimp only at heq
    by_cases hcomma : hasComma (behindUint m) = true
    · rw [onTaken_comma hn hcomma] at heq
      exact .of_eq heq (.ended (holds_address hn m buf).2)
    · rw [onTaken_noComma hcomma] at heq
      exact .of_eq heq (.refl _ _)

/-- For a message it makes no difference what the stack holds. -/
theorem atParseSmsRead_yields (stk : Stack) (hresp : ∀ r ∈ resp, r.Valid) (out : Option Sms) :
    Yields (atParseSmsRead stk resp out) fun x =>
      StringOk Sms.oa out x.2 ∧ StringOk Sms.scts out x.2 ∧ StringOk Sms.text out x.2 := by
  have hkept : StringOk Sms.oa out out ∧ StringOk Sms.scts out out ∧ StringOk Sms.text out out :=
    ⟨.refl _ _, .refl _ _, .refl _ _⟩
  refine withArgs_yields hresp hkept ?_
  rintro r sms hr hs rfl
  refine .of_eq (atParseSmsRead_eq hr hs stk sms) ?_
  cases smsHeader r with
  | none => exact hkept
  | some m =>
    obtain ⟨hoa, hscts, htext⟩ := readSms_ends m (r.lines.getD 1 []) sms
    exact ⟨.of_or hoa, .of_or hscts, .ended htext⟩

/-! ## The result -/

/-- None of the parsers runs into a fault with this response, and the strings that they
leave in the output are as they were or end in their arrays. -/
structure ParsersSafe (stk : Stack) (resp : Option Response) : Prop where
  csq : ∀ out, Yields (atParseCsq resp out) fun _ => True
  cesq : ∀ out, Yields (atParseCesq resp out) fun _ => True
  creg : ∀ out, Yields (atParseCreg resp out) fun _ => True
  cpin : ∀ out, Yields (atParseCpin resp out) fun _ => True
  cops : ∀ out, Yields (atParseCops resp out) fun x => StringOk Cops.oper out x.2
  /-- with `ip_buf_sz >= 1` -/
  cgpaddr : ∀ (cid : UInt8) (n : Nat) (ipBuf : Option (Vector UInt8 n)), 1 ≤ n →
    Yields (atParseCgpaddr resp cid ipBuf) fun x => StringOk id ipBuf x.2
  smsRead : ∀ out, Yields (atParseSmsRead stk resp out) fun x =>
    StringOk Sms.oa out x.2 ∧ StringOk Sms.scts out x.2 ∧ StringOk Sms.text out x.2
  cmgs : ∀ mrOut, Yields (atParseCmgs resp mrOut) fun _ => True
  scts : ∀ sctsStr out, Yields (atParseScts sctsStr out) fun _ => True

/-- **The parsers are safe on whatever a modem answers.** The lines are arbitrary
strings, and so are the timestamp, the output and what the stack held. -/
theorem parsers_safe (stk : Stack) (resp : Option Response) (hresp : ∀ r ∈ resp, r.Valid) :
    ParsersSafe stk resp where
  csq := atParseCsq_yields hresp
  cesq := atParseCesq_yields hresp
  creg := atParseCreg_yields hresp
  cpin := atParseCpin_yields hresp
  cops := atParseCops_yields hresp
  cgpaddr cid _ ipBuf hn := atParseCgpaddr_yields hresp cid hn ipBuf
  smsRead := atParseSmsRead_yields stk hresp
  cmgs := atParseCmgs_yields hresp
  scts := atParseScts_yields

/-- A message header that breaks off in its first quoted text. -/
theorem parsers_safe_broken_off :
    ParsersSafe Stack.zero (some ⟨.ok, 0, 2, [ascii "+CMGR: \"REC", ascii "text"]⟩) := by
  refine parsers_safe _ _ ?_
  rintro r ⟨⟩
  exact ⟨by decide, by decide⟩

/-- Without room for a terminator, the address is written behind the array. -/
example : atParseCgpaddr (some ⟨.ok, 0, 1, [ascii "+CGPADDR: 1,\"10.0.0.1\""]⟩) 1
    (some (Vector.replicate 0 0)) = .error .write := by
  rfl

end Checked

end LibAt
