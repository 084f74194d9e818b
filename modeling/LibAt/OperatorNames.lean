import LibAt.SmsRoundTrip

/-!
# Operator names with and without quotes

A `+COPS` answer has the operator's name in quotes or without, and `at_parse_cops` keeps
the first 23 characters of it. It goes over a name in quotes up to the closing quote. Of
a name without quotes it only goes over the characters that it keeps: behind them it
looks for the comma of the next field, and where the name goes on there is none.

So the two forms agree on names that fit. Of a longer name without quotes the access
technology is lost, which makes a difference unless it was 255 anyway
(`namesAgree_iff`).
-/

namespace LibAt

/-! ## Answers -/

/-- A number up to 255, in decimal digits. -/
structure OctetNumber where
  digits : List UInt8
  nonempty : digits ≠ []
  all_digits : ∀ b ∈ digits, isDigit b = true
  le : digitsValue digits ≤ 255

namespace OctetNumber

/-- The number. -/
def value (v : OctetNumber) : UInt8 := UInt8.ofNat (digitsValue v.digits)

/-- A number without leading zeros. -/
def ofUInt8 (v : UInt8) : OctetNumber where
  digits := decimal v.toNat
  nonempty := List.ne_nil_of_length_pos
    (length_decimal (k := 3) (by decide) (Nat.lt_trans v.toNat_lt (by decide))).1
  all_digits b hb := by
    have := mem_decimal hb
    simpa [isDigit, UInt8.le_iff_toNat_le] using this
  le := by
    rw [digitsValue_decimal]
    exact Nat.le_of_lt_succ v.toNat_lt

theorem value_ofUInt8 (v : UInt8) : (ofUInt8 v).value = v := by
  rw [value, ofUInt8, digitsValue_decimal, UInt8.ofNat_toNat]

end OctetNumber

/-- What a modem answers about its operator. -/
structure OperatorAnswer where
  mode : OctetNumber
  format : OctetNumber
  oper : List UInt8
  act : OctetNumber
  oper_quotable : Quotable oper
  oper_noComma : 44 ∉ oper
  oper_noLeading : oper.head? ≠ some 32
  oper_noTrailing : oper.getLast? ≠ some 32

namespace OperatorAnswer

variable (ans : OperatorAnswer)

/-- The fields of the answer, with the name written as `name`. -/
def fields (name : List UInt8) : List UInt8 :=
  ans.mode.digits ++ 44 :: (ans.format.digits ++ 44 :: (name ++ 44 :: ans.act.digits))

/-- What is behind `+COPS` when the name is in quotes. -/
def quoted : List UInt8 := ascii ": " ++ ans.fields (inQuotes ans.oper)

/-- What is behind `+COPS` when it is not. -/
def plain : List UInt8 := ascii ": " ++ ans.fields ans.oper

end OperatorAnswer

namespace Checked

/-- `at_parse_cops` returns the same for the two forms of the answer, and that is what the
answer says, with the name cut to 23 characters. -/
def NamesAgree (ans : OperatorAnswer) : Prop :=
  ∀ r r' : Response, r.Valid → r'.Valid → r.status = .ok → r'.status = .ok →
    FirstLine r (ascii "+COPS") ans.quoted → FirstLine r' (ascii "+COPS") ans.plain → ∀ out, ∃ v,
      atParseCops (some r) (some out) = .ok (true, some v) ∧
        atParseCops (some r') (some out) = .ok (true, some v) ∧
        v.mode = ans.mode.value ∧ v.format = ans.format.value ∧
        Holds v.oper (ans.oper.take 23) ∧ v.act = ans.act.value

end Checked

/-! ## Fields -/

/-- A field ends at a comma, or with the text. -/
theorem OctetNumber.read (v : OctetNumber) (rest : List UInt8)
    (hrest : rest.takeWhile isDigit = []) :
    (uintAt (v.digits ++ rest)).toUInt8 = v.value ∧ behindUint (v.digits ++ rest) = rest := by
  have hle := v.le
  have hrun : runValue (v.digits ++ rest) = digitsValue v.digits := by
    rw [runValue, List.takeWhile_append_of_pos v.all_digits, hrest, List.append_nil]
  have hbehind : rest.dropWhile isDigit = rest := by
    have hsplit := List.takeWhile_append_dropWhile (p := isDigit) (l := rest)
    rwa [hrest, List.nil_append] at hsplit
  constructor
  · rw [uintAt, hrun, saturateUint, if_pos (by omega), OctetNumber.value, ← UInt8.toNat_inj,
      UInt32.toNat_toUInt8, UInt32.toNat_ofNat', UInt8.toNat_ofNat']
    omega
  · rw [behindUint, List.dropWhile_append_of_pos v.all_digits, hbehind]

theorem hasComma_comma (rest : List UInt8) : hasComma (44 :: rest) = true := rfl

/-- **In the middle of a name** no comma comes next: the name has none, and more than
spaces are left of it. -/
theorem hasComma_append {t : List UInt8} (ht : t ≠ []) (hcomma : 44 ∉ t)
    (hlast : t.getLast? ≠ some 32) (rest : List UInt8) : hasComma (t ++ rest) = false := by
  rcases hdrop : t.dropWhile (· == 32) with _ | ⟨b, t'⟩
  · refine absurd ?_ hlast
    have hspaces := List.dropWhile_eq_nil_iff.mp hdrop _ (List.getLast_mem ht)
    rw [List.getLast?_eq_some_getLast ht, beq_iff_eq.mp hspaces]
  · have hb : b ≠ 44 := by
      rintro rfl
      exact hcomma ((List.dropWhile_suffix _).subset (hdrop ▸ List.mem_cons_self))
    have hsplit : (t ++ rest).dropWhile (· == 32) = b :: (t' ++ rest) := by
      rw [List.dropWhile_append, hdrop]
      rfl
    rw [hasComma, hsplit, List.headD_cons, beq_false_of_ne hb]

theorem OctetNumber.head_append (v : OctetNumber) (rest : List UInt8) :
    (v.digits ++ rest).head? ≠ some 32 := by
  obtain ⟨b, bs, hdigits⟩ := List.exists_cons_of_ne_nil v.nonempty
  have hb := v.all_digits b (hdigits ▸ List.mem_cons_self)
  rw [hdigits, List.cons_append, List.head?_cons]
  rintro ⟨⟩
  exact absurd hb (by decide)

namespace OperatorAnswer

variable (ans : OperatorAnswer)

/-- **The fields**, but for the name and what is found behind it. -/
theorem readCops_fields {name : List UInt8} (hname : name.head? ≠ some 32) (out : Cops) :
    readCops (ans.fields name) out =
      { mode := ans.mode.value
        format := ans.format.value
        oper := put out.oper (operText (name ++ 44 :: ans.act.digits))
        act :=
          if hasComma (behindOper (name ++ 44 :: ans.act.digits)) then
            (uintAt (behindComma (behindOper (name ++ 44 :: ans.act.digits)))).toUInt8
          else 0xFF } := by
  obtain ⟨hmode, hbehindMode⟩ :=
    ans.mode.read (44 :: (ans.format.digits ++ 44 :: (name ++ 44 :: ans.act.digits))) rfl
  obtain ⟨hformat, hbehindFormat⟩ := ans.format.read (44 :: (name ++ 44 :: ans.act.digits)) rfl
  have hhead : (name ++ 44 :: ans.act.digits).head? ≠ some 32 := by
    cases name with
    | nil => simp
    | cons => exact hname
  have hcopsFormat : copsFormat (ans.fields name) =
      ans.format.digits ++ 44 :: (name ++ 44 :: ans.act.digits) := by
    rw [copsFormat, fields, hbehindMode, behindComma_of_head (ans.format.head_append _)]
  have hcopsName : copsName (ans.fields name) = name ++ 44 :: ans.act.digits := by
    rw [copsName, hcopsFormat, hbehindFormat, behindComma_of_head hhead]
  rw [readCops, copsAct, hcopsName, hcopsFormat, hbehindFormat, hformat, fields, hbehindMode, hmode,
    if_pos (hasComma_comma _), if_pos (hasComma_comma _)]

/-- What is stored: the numbers of the answer and its name, and what is taken for the
access technology. -/
def stored (out : Cops) (act : UInt8) : Cops where
  mode := ans.mode.value
  format := ans.format.value
  oper := put out.oper (ans.oper.take 23)
  act := act

theorem read_act : (uintAt (behindComma (44 :: ans.act.digits))).toUInt8 = ans.act.value := by
  have hhead := ans.act.head_append []
  have hread := (ans.act.read [] rfl).1
  rw [List.append_nil] at hhead hread
  rw [behindComma_of_head hhead, hread]

/-- **A name in quotes** is passed over. -/
theorem readCops_quoted (out : Cops) :
    readCops (ans.fields (inQuotes ans.oper)) out = ans.stored out ans.act.value := by
  have hhead : (inQuotes ans.oper ++ 44 :: ans.act.digits).headD 0 = 34 := rfl
  rw [ans.readCops_fields (by simp [inQuotes]), operText, behindOper, if_pos hhead, if_pos hhead,
    quotedText_inQuotes ans.oper_quotable, behindQuoted_inQuotes ans.oper_quotable,
    if_pos (hasComma_comma _), ans.read_act]
  rfl

theorem headD_plain (rest : List UInt8) : (ans.oper ++ 44 :: rest).headD 0 ≠ 34 := by
  have hquote := ans.oper_quotable.1
  cases hoper : ans.oper with
  | nil => simp
  | cons b t =>
    rw [hoper] at hquote
    exact fun heq => hquote (heq ▸ List.mem_cons_self)

theorem plainText_plain (rest : List UInt8) : plainText (ans.oper ++ 44 :: rest) = ans.oper := by
  have hpass := passed_of_notMem ans.oper_noComma ans.oper_quotable.2
  rw [plainText, List.takeWhile_append_of_pos hpass, List.takeWhile_cons_of_neg (by decide),
    List.append_nil]

/-- A name without quotes is passed over as far as it is kept. -/
theorem behindOper_plain (rest : List UInt8) :
    behindOper (ans.oper ++ 44 :: rest) = ans.oper.drop 23 ++ 44 :: rest := by
  rw [behindOper, if_neg (ans.headD_plain rest), plainText_plain,
    List.drop_append_of_le_length (List.length_take_le' 23 ans.oper)]
  congr 1
  rw [List.drop_eq_drop_iff, List.length_take]
  omega

/-- **A name without quotes**: a comma is found behind it if it is kept whole. -/
theorem readCops_plain (out : Cops) :
    readCops (ans.fields ans.oper) out =
      ans.stored out (if ans.oper.length ≤ 23 then ans.act.value else 0xFF) := by
  rw [ans.readCops_fields ans.oper_noLeading, behindOper_plain, operText,
    if_neg (ans.headD_plain _), plainText_plain]
  by_cases hfits : ans.oper.length ≤ 23
  · rw [if_pos hfits, List.drop_of_length_le hfits, List.nil_append, if_pos (hasComma_comma _),
      ans.read_act]
    rfl
  · -- the name goes on behind what is kept
    have hne : ans.oper.drop 23 ≠ [] := by
      rw [Ne, List.drop_eq_nil_iff]
      exact hfits
    have hcomma : 44 ∉ ans.oper.drop 23 := fun h => ans.oper_noComma (List.mem_of_mem_drop h)
    have hlast : (ans.oper.drop 23).getLast? ≠ some 32 := by
      rw [List.getLast?_drop, if_neg hfits]
      exact ans.oper_noTrailing
    rw [if_neg hfits, hasComma_append hne hcomma hlast]
    rfl

end OperatorAnswer

/-! ## Agreement -/

namespace Checked

variable {ans : OperatorAnswer} {r : Response}

theorem atParseCops_line {name : List UInt8} (hr : r.Valid) (hs : r.status = .ok)
    (hline : FirstLine r (ascii "+COPS") (ascii ": " ++ ans.fields name)) (out : Cops) :
    atParseCops (some r) (some out) = .ok (true, some (readCops (ans.fields name) out)) := by
  rw [atParseCops_eq hr hs, findValue_firstLine (by decide) hline]
  rfl

theorem holds_oper (ans : OperatorAnswer) (buf : Vector UInt8 24) :
    Holds (put buf (ans.oper.take 23)) (ans.oper.take 23) :=
  holds_put (Nat.lt_succ_of_le (List.length_take_le _ _))
    (fun h => ans.oper_quotable.2 (List.mem_of_mem_take h)) buf

/-- **The two forms agree** on names that fit. -/
theorem namesAgree_of (h : ans.oper.length ≤ 23 ∨ ans.act.value = 255) : NamesAgree ans := by
  intro r r' hr hr' hs hs' hquoted hplain out
  have hact : (if ans.oper.length ≤ 23 then ans.act.value else 0xFF) = ans.act.value := by
    split
    · rfl
    · next hlong => exact (h.resolve_left hlong).symm
  have hsame := ans.readCops_plain out
  rw [hact] at hsame
  refine ⟨ans.stored out ans.act.value, ?_, ?_, rfl, rfl, holds_oper ans _, rfl⟩
  · rw [atParseCops_line hr hs hquoted, ans.readCops_quoted]
  · rw [atParseCops_line hr' hs' hplain, hsame]

/-- **Of a longer name** without quotes the access technology is lost. -/
theorem of_namesAgree (h : NamesAgree ans) : ans.oper.length ≤ 23 ∨ ans.act.value = 255 := by
  by_contra hno
  obtain ⟨hlong, hact⟩ := not_or.mp hno
  have hvalid (l : List UInt8) : (Response.mk .ok 0 1 [l]).Valid :=
    ⟨show 1 < 256 by decide, Nat.le_refl 1⟩
  have hfirst (rest : List UInt8) :
      FirstLine ⟨.ok, 0, 1, [ascii "+COPS" ++ rest]⟩ (ascii "+COPS") rest :=
    ⟨[], [], rfl, by simp⟩
  obtain ⟨v, -, hrun, -, -, -, hv⟩ := h _ _ (hvalid _) (hvalid _) rfl rfl (hfirst ans.quoted)
    (hfirst ans.plain) ⟨0, 0, Vector.replicate 24 0, 0⟩
  rw [atParseCops_line (hvalid _) rfl (hfirst ans.plain), ans.readCops_plain, if_neg hlong] at hrun
  obtain rfl := Option.some.inj (Prod.mk.inj (Except.ok.inj hrun)).2
  exact hact hv.symm

/-- **When the two forms agree.** -/
theorem namesAgree_iff (ans : OperatorAnswer) :
    NamesAgree ans ↔ ans.oper.length ≤ 23 ∨ ans.act.value = 255 :=
  ⟨of_namesAgree, namesAgree_of⟩

/-- A name of 24 characters, in an LTE network. -/
def longName : OperatorAnswer where
  mode := .ofUInt8 0
  format := .ofUInt8 0
  oper := ascii "Telekom Deutschland GmbH"
  act := .ofUInt8 7
  oper_quotable := by decide
  oper_noComma := by decide
  oper_noLeading := by decide
  oper_noTrailing := by decide

theorem longName_disagrees : ¬NamesAgree longName := by
  intro h
  rcases of_namesAgree h with hshort | hact
  · exact absurd hshort (by decide)
  · rw [longName, OctetNumber.value_ofUInt8] at hact
    exact absurd hact (by decide)

end Checked

end LibAt
