import LibAt.Definedness

/-!
# Reading back a message in text mode

A `+CMGR` header is its status, the originating address, an alpha field and a timestamp,
with commas between them. From a header that is written so, `at_parse_sms_read` takes
back what went into it, provided that it skips the alpha field.

It does not always. The skip ends at the first comma, also inside the quotes, and the
timestamp is then looked for in the rest of the alpha text. So a message is read back
when its alpha text has no comma, and besides only where nothing but spaces is behind
the first comma: then the quotes that follow hold a comma, and that is what is read for
the timestamp (`roundTrips_iff`).
-/

namespace LibAt

/-- The values of `stat`. -/
inductive SmsStat where
  | recUnread
  | recRead
  | stoUnsent
  | stoSent
  deriving DecidableEq

namespace SmsStat

/-- The value in `at_sms_t`. -/
def code : SmsStat → UInt8
  | recUnread => 0
  | recRead => 1
  | stoUnsent => 2
  | stoSent => 3

/-- The status in a header. -/
def name : SmsStat → List UInt8
  | recUnread => ascii "REC UNREAD"
  | recRead => ascii "REC READ"
  | stoUnsent => ascii "STO UNSENT"
  | stoSent => ascii "STO SENT"

end SmsStat

/-- A message, as a modem in text mode lists it. -/
structure TextMessage where
  stat : SmsStat
  oa : List UInt8
  /-- the alpha text, if there is one -/
  alpha : Option (List UInt8)
  scts : List UInt8
  text : List UInt8
  oa_quotable : Quotable oa
  oa_fits : oa.length ≤ 19
  alpha_quotable : ∀ a ∈ alpha, Quotable a
  scts_quotable : Quotable scts
  scts_fits : scts.length ≤ 23
  text_nulFree : 0 ∉ text
  text_fits : text.length ≤ 160

namespace TextMessage

variable (msg : TextMessage)

/-- The alpha field with the comma behind it. -/
def alphaField : List UInt8 := (msg.alpha.elim [] inQuotes) ++ [44]

/-- What is behind the prefix of the header. -/
def fields : List UInt8 :=
  inQuotes msg.stat.name ++ 44 :: (inQuotes msg.oa ++ 44 :: (msg.alphaField ++ inQuotes msg.scts))

/-- The header. -/
def header : List UInt8 := ascii "+CMGR: " ++ msg.fields

/-- The skip over the alpha text ends behind it, or at quotes that hold the timestamp. -/
def AlphaSkipped : Prop :=
  ∀ a ∈ msg.alpha, 44 ∈ a →
    (∀ b ∈ (a.dropWhile (· != 44)).drop 1, b = 32) ∧ msg.scts = [44]

end TextMessage

namespace Checked

/-- The array holds the text, with its terminator. -/
def Holds {n : Nat} (buf : Vector UInt8 n) (t : List UInt8) : Prop := cstr buf.toList = t ∧ 0 ∈ buf

/-- `at_parse_sms_read` takes the message back from its lines, whatever was in the output
and on the stack. -/
def RoundTrips (msg : TextMessage) : Prop :=
  ∀ r : Response, r.Valid → r.status = .ok → 2 ≤ r.numLines →
    r.lines[0]? = some msg.header → r.lines[1]? = some msg.text → ∀ stk out, ∃ v,
      atParseSmsRead stk (some r) (some out) = .ok (true, some v) ∧ v.stat = msg.stat.code ∧
        Holds v.oa msg.oa ∧ Holds v.scts msg.scts ∧ Holds v.text msg.text

end Checked

/-! ## Fields -/

variable {t rest : List UInt8}

namespace TextMessage

variable (msg : TextMessage)

theorem name_quotable (s : SmsStat) : Quotable s.name := by
  cases s <;> decide

/-- Every name is read back. -/
theorem statAt_fields : statAt msg.fields = msg.stat.code := by
  have hhead : msg.fields.headD 0 = 34 := rfl
  rw [statAt, if_pos hhead, fields, quotedText_inQuotes (name_quotable _)]
  cases msg.stat <;> rfl

theorem smsOa_fields :
    smsOa msg.fields = inQuotes msg.oa ++ 44 :: (msg.alphaField ++ inQuotes msg.scts) := by
  have hhead : msg.fields.headD 0 = 34 := rfl
  rw [smsOa, if_pos hhead, fields, behindQuoted_inQuotes (name_quotable _), behindComma_inQuotes]

/-- **The skip over the alpha field**: to behind the field, or to behind the first comma
of its text. -/
theorem smsScts_fields : smsScts msg.fields =
    (if 44 ∈ msg.alpha.getD [] then
      (((msg.alpha.getD []).dropWhile (· != 44)).drop 1).dropWhile (· == 32) ++ 34 :: [44]
    else []) ++ inQuotes msg.scts := by
  have hscts : behindComma (44 :: inQuotes msg.scts) = inQuotes msg.scts := by
    have := behindComma_inQuotes msg.scts []
    rwa [List.append_nil] at this
  have halpha : smsAlpha msg.fields = msg.alphaField ++ inQuotes msg.scts := by
    rw [smsAlpha, smsOa_fields, behindQuoted_inQuotes msg.oa_quotable, behindComma_comma,
      alphaField]
    cases msg.alpha <;> rfl
  rw [smsScts, halpha, alphaField]
  rcases ha : msg.alpha with _ | a
  · rw [Option.getD_none, if_neg List.not_mem_nil]
    exact hscts
  · have hquotable := msg.alpha_quotable a ha
    rw [Option.getD_some, Option.elim_some, List.append_assoc, inQuotes_append, behindAlpha,
      List.headD_cons, if_pos rfl, List.dropWhile_cons_of_pos (by decide)]
    by_cases hcomma : 44 ∈ a
    · -- the scan stops inside the text, at the first of its commas
      obtain ⟨a₁, a₂, rfl, hfirst⟩ := List.eq_append_cons_of_mem hcomma
      have hpass : ∀ b ∈ a₁, (b != 44) = true :=
        fun b hb => bne_iff_ne.mpr fun heq => hfirst (heq ▸ hb)
      have hpass' : ∀ b ∈ a₁, (b != 0 && b != 44) = true :=
        passed_of_notMem hfirst fun h0 => hquotable.2 (List.mem_append_left _ h0)
      rw [if_pos hcomma, dropWhile_passed hpass rfl, List.append_assoc, List.cons_append,
        dropWhile_passed hpass' rfl, behindComma_comma, dropWhile_stop rfl]
      simp
    · -- the scan passes the text and its closing quote, to the comma behind the field
      have hpass : ∀ b ∈ a ++ [34], (b != 0 && b != 44) = true :=
        passed_of_notMem (by simp [hcomma]) (by simp [hquotable.2])
      have hassoc : a ++ 34 :: ([44] ++ inQuotes msg.scts) =
          (a ++ [34]) ++ 44 :: inQuotes msg.scts := by
        rw [List.append_assoc]
        rfl
      rw [if_neg hcomma, hassoc, dropWhile_passed hpass rfl, hscts, List.nil_append]

/-- Behind an alpha field that is skipped is the timestamp. -/
theorem scts_of_skipped (h : msg.AlphaSkipped) :
    ∃ rest, smsScts msg.fields = inQuotes msg.scts ++ rest := by
  rw [smsScts_fields]
  split
  · next hcomma =>
    obtain ⟨a, ha⟩ : ∃ a, msg.alpha = some a := by
      rcases ha : msg.alpha with _ | a
      · rw [ha] at hcomma
        cases hcomma
      · exact ⟨a, rfl⟩
    rw [ha, Option.getD_some] at hcomma ⊢
    obtain ⟨hspaces, hscts⟩ := h a ha hcomma
    refine ⟨44 :: [34], ?_⟩
    rw [List.dropWhile_eq_nil_iff.mpr fun b hb => beq_iff_eq.mpr (hspaces b hb), hscts]
    rfl
  · exact ⟨[], by rw [List.nil_append, List.append_nil]⟩

/-- Behind the quotes of another text there is none, or only a comma in it. -/
theorem skipped_of_scts (hhead : (smsScts msg.fields).headD 0 = 34)
    (htext : (quotedText (smsScts msg.fields)).take 23 = msg.scts) : msg.AlphaSkipped := by
  intro a ha hcomma
  rw [smsScts_fields, ha, Option.getD_some, if_pos hcomma] at hhead htext
  have hquotable := msg.alpha_quotable a ha
  rcases hrest : ((a.dropWhile (· != 44)).drop 1).dropWhile (· == 32) with _ | ⟨b, p⟩
  · rw [hrest] at htext
    -- only spaces: what is read is the comma between the two quotes
    exact ⟨fun b hb => beq_iff_eq.mp (List.dropWhile_eq_nil_iff.mp hrest b hb), htext.symm⟩
  · rw [hrest, List.cons_append, List.cons_append, List.headD_cons] at hhead
    -- a quote in the alpha text
    have hmem : b ∈ a := by
      have hb : b ∈ ((a.dropWhile (· != 44)).drop 1).dropWhile (· == 32) := by
        rw [hrest]
        exact List.mem_cons_self
      exact (List.dropWhile_suffix _).subset (List.mem_of_mem_drop
        ((List.dropWhile_suffix _).subset hb))
    exact absurd (hhead ▸ hmem) hquotable.1

end TextMessage

/-! ## The round trip -/

namespace Checked

variable {msg : TextMessage} {r : Response}

theorem holds_put {n : Nat} (h : t.length < n) (h0 : 0 ∉ t) (buf : Vector UInt8 n) :
    Holds (put buf t) t := ⟨cstr_put h h0 buf, zero_mem_put h buf⟩

theorem smsHeader_header (hn : 2 ≤ r.numLines) (hl : r.lines[0]? = some msg.header) :
    smsHeader r = some msg.fields := by
  have hget : r.lines.getD 0 [] = msg.header := by
    rw [List.getD_eq_getElem?_getD, hl, Option.getD_some]
  rw [smsHeader, hget]
  exact if_pos ⟨hn, rfl⟩

/-- What is read from the lines of a message. -/
theorem atParseSmsRead_lines (hr : r.Valid) (hs : r.status = .ok) (hn : 2 ≤ r.numLines)
    (hl₀ : r.lines[0]? = some msg.header) (hl₁ : r.lines[1]? = some msg.text) (stk : Stack)
    (out : Sms) : atParseSmsRead stk (some r) (some out) =
      .ok (true, some (readSms msg.fields msg.text out)) := by
  have hget : r.lines.getD 1 [] = msg.text := by
    rw [List.getD_eq_getElem?_getD, hl₁, Option.getD_some]
  rw [atParseSmsRead_eq hr hs, smsHeader_header hn hl₀, hget]
  rfl

/-- **A message is read back** where the alpha field is skipped. -/
theorem roundTrips_of_skipped (h : msg.AlphaSkipped) : RoundTrips msg := by
  intro r hr hs hn hl₀ hl₁ stk out
  refine ⟨_, atParseSmsRead_lines hr hs hn hl₀ hl₁ stk out, ?_⟩
  simp only [readSms]
  refine ⟨msg.statAt_fields, ?_, ?_, ?_⟩
  · rw [msg.smsOa_fields, fillQuoted_inQuotes msg.oa_quotable, List.take_of_length_le msg.oa_fits]
    exact holds_put (Nat.lt_succ_of_le msg.oa_fits) msg.oa_quotable.2 _
  · obtain ⟨rest, hrest⟩ := msg.scts_of_skipped h
    rw [hrest, fillQuoted_inQuotes msg.scts_quotable, List.take_of_length_le msg.scts_fits]
    exact holds_put (Nat.lt_succ_of_le msg.scts_fits) msg.scts_quotable.2 _
  · rw [cstr_eq_self msg.text_nulFree, List.take_of_length_le msg.text_fits]
    exact holds_put (Nat.lt_succ_of_le msg.text_fits) msg.text_nulFree _

/-- **Where it is not**, the timestamp is not the one that was written: the array is
left as it was, or holds a comma. -/
theorem skipped_of_roundTrips (h : RoundTrips msg) : msg.AlphaSkipped := by
  have hr : (Response.mk .ok 0 2 [msg.header, msg.text]).Valid :=
    ⟨show 2 < 256 by decide, Nat.le_refl 2⟩
  have hread := atParseSmsRead_lines (r := ⟨.ok, 0, 2, [msg.header, msg.text]⟩) hr rfl
    (Nat.le_refl 2) (List.getElem?_cons_zero (a := msg.header)) rfl Stack.zero filledSms
  obtain ⟨v, hrun, -, -, ⟨htext, hmem⟩, -⟩ :=
    h _ hr rfl (Nat.le_refl 2) rfl rfl Stack.zero filledSms
  obtain rfl : readSms msg.fields msg.text filledSms = v :=
    Option.some.inj (Prod.mk.inj (Except.ok.inj (hread.symm.trans hrun))).2
  simp only [readSms] at htext hmem
  -- the array was full of a letter, so a terminator in it comes from a copy
  have hhead : (smsScts msg.fields).headD 0 = 34 := by
    by_contra hno
    rw [fillQuoted, if_neg hno] at hmem
    exact absurd (Vector.eq_of_mem_replicate hmem) (by decide)
  refine msg.skipped_of_scts hhead ?_
  rw [fillQuoted, if_pos hhead] at htext
  have hlen : ((quotedText (smsScts msg.fields)).take 23).length < 24 :=
    Nat.lt_succ_of_le (List.length_take_le _ _)
  have h0 : (0 : UInt8) ∉ (quotedText (smsScts msg.fields)).take 23 :=
    fun h => zero_notMem_quotedText _ (List.mem_of_mem_take h)
  exact (cstr_put hlen h0 _).symm.trans htext

/-- **When a message is read back.** -/
theorem roundTrips_iff (msg : TextMessage) : RoundTrips msg ↔ msg.AlphaSkipped :=
  ⟨skipped_of_roundTrips, roundTrips_of_skipped⟩

/-- A name in the alpha field, with a comma. -/
def commaMessage : TextMessage where
  stat := .recRead
  oa := ascii "+4915112345"
  alpha := some (ascii "Doe, John")
  scts := ascii "24/03/15,12:30:45+04"
  text := ascii "hello"
  oa_quotable := by decide
  oa_fits := by decide
  alpha_quotable := by
    rintro a ⟨⟩
    decide
  scts_quotable := by decide
  scts_fits := by decide
  text_nulFree := by decide
  text_fits := by decide

theorem commaMessage_lost : ¬RoundTrips commaMessage := by
  intro h
  have hscts := (skipped_of_roundTrips h _ rfl (by decide)).2
  exact absurd hscts (by decide)

end Checked

end LibAt
