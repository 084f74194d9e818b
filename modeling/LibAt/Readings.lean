import LibAt.Saturation

/-!
# What the parsers read

On lines of any content the parsers compute functions of the text. These are stated here
without pointers: a number and what is behind it, a text in quotes and what is behind it,
and what an array holds into which a text has been copied (`put`). Each parser is then
an equation (`atParseCsq_eq`, `atParseCesq_eq`, `atParseCreg_eq`, `atParseCops_eq`, `atParseSmsRead_eq`,
`atParseCmgs_eq`) that says when it returns `true` and what the output is.
-/

namespace LibAt

variable {n : Nat}

/-! ## Arrays -/

/-- The array when a text has been copied to its start, with a terminator; behind that
it is as it was. -/
def put (buf : Vector UInt8 n) (t : List UInt8) : Vector UInt8 n :=
  ⟨((t ++ 0 :: buf.toList.drop (t.length + 1)).take n).toArray, by
    simp only [List.size_toArray, List.length_take, List.length_append, List.length_cons,
      List.length_drop, Vector.length_toList]
    omega⟩

/-- Where the text fits, the array holds it, the terminator, and what it held behind that. -/
theorem toList_put {t : List UInt8} (h : t.length < n) (buf : Vector UInt8 n) :
    (put buf t).toList = t ++ 0 :: buf.toList.drop (t.length + 1) := by
  refine List.take_of_length_le ?_
  simp only [List.length_append, List.length_cons, List.length_drop, Vector.length_toList]
  omega

/-- The string in the array is the text. -/
theorem cstr_put {t : List UInt8} (h : t.length < n) (h0 : (0 : UInt8) ∉ t)
    (buf : Vector UInt8 n) : cstr (put buf t).toList = t := by
  rw [toList_put h, cstr_append h0, cstr_cons_zero, List.append_nil]

/-- A text that has been copied ends in its array. -/
theorem zero_mem_put {t : List UInt8} (h : t.length < n) (buf : Vector UInt8 n) :
    0 ∈ put buf t := by
  rw [← Vector.mem_toList_iff, toList_put h]
  simp

namespace Checked

/-- Cutting twice. -/
theorem take_min_length (t : List UInt8) (k : Nat) : t.take (min t.length k) = t.take k := by
  rw [List.take_eq_take_iff]
  omega

/-- `memcpy` with room for all of it. -/
theorem memcpyFrom_eq (len : Nat) : ∀ {i : Nat} {p : List UInt8} (buf : Vector UInt8 n),
    len ≤ p.length → i + len ≤ n → ∃ buf', memcpyFrom buf i p len = .ok buf' ∧
      buf'.toList = buf.toList.take i ++ p.take len ++ buf.toList.drop (i + len) := by
  induction len with
  | zero =>
    intro i p buf _ _
    refine ⟨buf, rfl, ?_⟩
    rw [List.take_zero, List.append_nil, Nat.add_zero, List.take_append_drop]
  | succ len ih =>
    intro i p buf hp hn
    cases p with
    | nil => exact absurd hp (by simp)
    | cons b p =>
      obtain ⟨buf', hcopy, hbuf'⟩ := ih (i := i + 1) (buf.set i b)
        (Nat.le_of_succ_le_succ hp) (by omega)
      refine ⟨buf', ?_, ?_⟩
      · rw [memcpyFrom, store_eq (by omega)]
        exact hcopy
      · have hi : i < buf.toList.length := by
          rw [Vector.length_toList]
          omega
        rw [hbuf', Vector.toList_set, List.drop_set_of_lt (by omega), List.take_succ_cons,
          List.take_add_one, List.getElem?_set_self hi, List.take_set_of_le (Nat.le_refl i),
          Option.toList_some, Nat.add_right_comm]
        simp only [List.append_assoc, List.cons_append, List.nil_append]
        rfl

/-- **A text that is copied** is cut where it and its terminator do not fit. -/
theorem copyText_eq {len : Nat} {p : List UInt8} (hn : 0 < n) (hlen : len ≤ p.length)
    (buf : Vector UInt8 n) : copyText buf p len = .ok (put buf (p.take (min len (n - 1)))) := by
  have hcut : (if len ≥ n then sizePred n else len) = min len (n - 1) := by
    have hpred : sizePred n = n - 1 := if_neg (by omega)
    rw [hpred]
    split <;> omega
  have htake : (p.take (min len (n - 1))).length = min len (n - 1) :=
    List.length_take_of_le (by omega)
  obtain ⟨buf', hcopy, hbuf'⟩ := memcpyFrom_eq (min len (n - 1)) (i := 0) (p := p) buf
    (by omega) (by omega)
  rw [copyText, hcut, memcpy, hcopy, ok_bind, store_eq (by omega)]
  congr 1
  rw [← Vector.toList_inj, toList_put (by omega), Vector.toList_set, hbuf', htake,
    List.take_zero, List.nil_append, Nat.zero_add,
    List.set_append_right _ _ (Nat.le_of_eq htake), htake, Nat.sub_self,
    List.drop_eq_getElem_cons (by rw [Vector.length_toList]; omega), List.set_cons_zero]

/-- A string that is copied. -/
theorem copyText_cursor (hn : 0 < n) (m : List UInt8) (buf : Vector UInt8 n) :
    copyText buf (cursor m) (LibAt.strlen m) = .ok (put buf ((cstr m).take (n - 1))) := by
  rw [copyText_eq hn (by rw [length_cursor]; exact Nat.le_succ _), cursor, LibAt.strlen,
    List.take_append_of_le_length (Nat.min_le_left ..), take_min_length]

end Checked

/-! ## Texts in quotes -/

/-- The text behind an opening quote, up to the closing one or the end. -/
def quotedText (m : List UInt8) : List UInt8 := (m.drop 1).takeWhile fun b => b != 0 && b != 34

/-- What is behind a text in quotes. Without a quote it is the text itself. -/
def behindQuoted (m : List UInt8) : List UInt8 :=
  if m.headD 0 = 34 then
    let q := (m.drop 1).dropWhile fun b => b != 0 && b != 34
    if q.head? = some 34 then q.drop 1 else q
  else m

/-- The array that a text in quotes is copied into. Without a quote it is not written. -/
def fillQuoted (m : List UInt8) (buf : Vector UInt8 n) : Vector UInt8 n :=
  if m.headD 0 = 34 then put buf ((quotedText m).take (n - 1)) else buf

/-- A text in quotes ends at the terminator at the latest. -/
theorem zero_notMem_quotedText (m : List UInt8) : (0 : UInt8) ∉ quotedText m := by
  intro h
  have := List.mem_takeWhile_imp h
  simp at this

namespace Checked

/-- A scan splits what it is at. -/
theorem cursor_split {q : UInt8 → Bool} (hq : q 0 = false) (m : List UInt8) :
    cursor m = m.takeWhile q ++ cursor (m.dropWhile q) := by
  induction m with
  | nil => rfl
  | cons b m ih =>
    rw [List.takeWhile_cons, List.dropWhile_cons]
    by_cases hqb : q b = true
    · have hb : b ≠ 0 := by
        rintro rfl
        rw [hq] at hqb
        cases hqb
      rw [if_pos hqb, if_pos hqb, cursor_cons hb, List.cons_append, ih]
    · rw [if_neg hqb, if_neg hqb, List.nil_append]

/-- **`parse_quoted`** takes what is between the quotes, or nothing. -/
theorem parseQuoted_eq (hn : 0 < n) (m : List UInt8) (buf : Vector UInt8 n) :
    parseQuoted (cursor m) buf =
      .ok (decide (m.headD 0 = 34), cursor (behindQuoted m), fillQuoted m buf) := by
  rw [parseQuoted, deref_cursor, ok_bind, behindQuoted, fillQuoted]
  by_cases hm : m.headD 0 = 34
  · have hsplit := cursor_split (q := fun b => b != 0 && b != 34) (by decide) (m.drop 1)
    rw [if_neg (not_not.mpr hm), advance_cursor (strlen_pos (by rw [hm]; decide)), ok_bind,
      skipWhile_cursor (by decide), ok_bind, if_pos hm, if_pos hm, decide_eq_true hm, hsplit,
      List.length_append, Nat.add_sub_cancel, ← quotedText]
    dsimp only
    rw [skipIf_cursor (by decide), ok_bind, copyText_eq hn (by simp), ok_bind,
      List.take_append_of_le_length (Nat.min_le_left ..)]
    rw [take_min_length]
    rfl
  · rw [if_pos hm, if_neg hm, if_neg hm, decide_eq_false hm]
    rfl

end Checked

/-! ## Numbers and commas -/

/-- The unsigned number at the start of a text, as it is read. -/
def uintAt (m : List UInt8) : UInt32 := UInt32.ofNat (saturateUint (runValue m))

/-- What is behind it. -/
def behindUint (m : List UInt8) : List UInt8 := m.dropWhile isDigit

/-- The integer at the start of a text, as it is read. -/
def intAt (m : List UInt8) : Int := (atParseInt m).1

/-- The result of a parser: what it reads, or the output as it was. -/
def outcome {α : Type} (out : α) (o : Option α) : Bool × Option α := (o.isSome, some (o.getD out))

namespace Checked

/-- Each helper, at a pointer into a line, returns what is read there and goes on behind it: a
number, -/
theorem uintAt_eq (m : List UInt8) :
    atParseUint (cursor m) = .ok (uintAt m, cursor (behindUint m)) := by
  rw [atParseUint_cursor, uintDigits_value]
  rfl

/-- an integer, -/
theorem intAt_eq (m : List UInt8) :
    atParseInt (cursor m) = .ok (intAt m, cursor (behindInt m)) := by
  rw [atParseInt_cursor, intAt, atParseInt_value]

/-- or one with the comma behind it. -/
theorem field_eq (m : List UInt8) :
    parseField (cursor m) =
      .ok (Int16.ofInt (intAt m), cursor (behindComma (behindInt m))) := by
  rw [parseField, intAt_eq, ok_bind]
  dsimp only
  rw [atSkipComma_cursor, ok_bind]
  rfl

end Checked

/-! ## Signal quality -/

/-- `rssi_dbm`, from the number that is read. -/
def dbmOf (rssi : UInt32) : Int16 :=
  if rssi = 99 then -999 else Int16.ofInt (-113 + (rssi * 2).toUInt16.toInt16.toInt)

/-- What `at_parse_csq` reads. -/
def readCsq (m : List UInt8) : Option Csq :=
  if hasComma (behindUint m) then
    let ber := uintAt (behindComma (behindUint m))
    some ⟨dbmOf (uintAt m), if ber > 99 then 99 else ber.toUInt8⟩
  else none

/-! The texts from which the later fields of a `+CESQ` value are read. -/

def cesqBer (m : List UInt8) : List UInt8 := behindComma (behindInt m)
def cesqRscp (m : List UInt8) : List UInt8 := behindComma (behindUint (cesqBer m))
def cesqEcno (m : List UInt8) : List UInt8 := behindComma (behindInt (cesqRscp m))
def cesqRsrq (m : List UInt8) : List UInt8 := behindComma (behindInt (cesqEcno m))
def cesqRsrp (m : List UInt8) : List UInt8 := behindComma (behindInt (cesqRsrq m))

/-- What `at_parse_cesq` reads. -/
def readCesq (m : List UInt8) : Cesq where
  rxlev := Int16.ofInt (intAt m)
  ber := (uintAt (cesqBer m)).toUInt8
  rscp := Int16.ofInt (intAt (cesqRscp m))
  ecno := Int16.ofInt (intAt (cesqEcno m))
  rsrq := Int16.ofInt (intAt (cesqRsrq m))
  rsrp := Int16.ofInt (intAt (cesqRsrp m))

namespace Checked

variable {r : Response}

/-- The arithmetic of the signal strength does not overflow an `int`. -/
theorem dbmOf_eq (rssi : UInt32) : rssiDbm rssi = .ok (dbmOf rssi) := by
  rw [rssiDbm, dbmOf]
  split
  · rfl
  · have hlo := ((rssi * 2).toUInt16.toInt16).le_toInt
    have hhi := ((rssi * 2).toUInt16.toInt16).toInt_lt
    rw [int32_eq (by omega)]
    rfl

/-- **`at_parse_csq`** needs two numbers. -/
theorem atParseCsq_eq (hr : r.Valid) (hs : r.status = .ok) (out : Csq) :
    atParseCsq (some r) (some out) =
      .ok (outcome out ((findValue r (ascii "+CSQ")).bind readCsq)) := by
  rw [atParseCsq, withArgs, if_neg (not_not.mpr hs), respFindValue_cursor hr, ok_bind]
  cases findValue r (ascii "+CSQ") with
  | none => rfl
  | some m =>
    simp only [Option.map_some, Option.bind_some]
    rw [uintAt_eq, ok_bind]
    dsimp only
    rw [atSkipComma_cursor, ok_bind, readCsq]
    cases hasComma (behindUint m) with
    | false => rfl
    | true =>
      rw [if_neg (by simp), uintAt_eq, ok_bind, if_pos rfl]
      dsimp only
      rw [dbmOf_eq]
      rfl

/-- **`at_parse_cesq`** takes a field that is missing for a zero. -/
theorem atParseCesq_eq (hr : r.Valid) (hs : r.status = .ok) (out : Cesq) :
    atParseCesq (some r) (some out) =
      .ok (outcome out ((findValue r (ascii "+CESQ")).map readCesq)) := by
  rw [atParseCesq, withArgs, if_neg (not_not.mpr hs), respFindValue_cursor hr, ok_bind]
  cases findValue r (ascii "+CESQ") with
  | none => rfl
  | some m =>
    simp only [Option.map_some]
    rw [field_eq, ok_bind, ← cesqBer]
    dsimp only
    rw [uintAt_eq, ok_bind]
    dsimp only
    rw [atSkipComma_cursor, ok_bind, ← cesqRscp]
    dsimp only
    rw [field_eq, ok_bind, ← cesqEcno]
    dsimp only
    rw [field_eq, ok_bind, ← cesqRsrq]
    dsimp only
    rw [field_eq, ok_bind, ← cesqRsrp]
    dsimp only
    rw [intAt_eq, ok_bind]
    dsimp only
    rw [outcome, readCesq]
    rfl

end Checked

/-! ## Registration -/

/-- The value in the line that is taken: `+CREG` goes before `+CGREG`, and that before
`+CEREG`. -/
def regValue (r : Response) : Option (List UInt8) :=
  (findValue r (ascii "+CREG")).or <|
    (findValue r (ascii "+CGREG")).or (findValue r (ascii "+CEREG"))

/-- What `at_parse_creg` reads: the second number, or the first if it is alone. -/
def readCreg (m : List UInt8) : UInt32 :=
  if hasComma (behindUint m) then uintAt (behindComma (behindUint m)) else uintAt m

namespace Checked

variable {r : Response}

/-- A name is looked for if none before it has been found. -/
theorem orFindValue_cursor (hr : r.Valid) (pre : List UInt8) (o : Option (List UInt8)) :
    orFindValue r pre (o.map cursor) = .ok ((o.or (findValue r pre)).map cursor) := by
  cases o with
  | none => exact respFindValue_cursor hr pre
  | some m => rfl

/-- **`at_parse_creg`** takes the only number for the status. -/
theorem atParseCreg_eq (hr : r.Valid) (hs : r.status = .ok) (out : UInt32) :
    atParseCreg (some r) (some out) = .ok (outcome out ((regValue r).map readCreg)) := by
  rw [atParseCreg, withArgs, if_neg (not_not.mpr hs), respFindValue_cursor hr, ok_bind,
    orFindValue_cursor hr, ok_bind, orFindValue_cursor hr, ok_bind, Option.or_assoc, ← regValue]
  cases regValue r with
  | none => rfl
  | some m =>
    simp only [Option.map_some]
    rw [uintAt_eq, ok_bind]
    dsimp only
    rw [atSkipComma_cursor, ok_bind, readCreg]
    cases hasComma (behindUint m) with
    | false => rfl
    | true =>
      rw [if_pos rfl, uintAt_eq, if_pos rfl]
      rfl

/-- A successful response with a `+CREG` line is accepted. -/
theorem atParseCreg_accepts (hr : r.Valid) (hs : r.status = .ok) {l : List UInt8}
    (hmem : l ∈ r.lines.take r.numLines) (hpre : ascii "+CREG" <+: l) (out : UInt32) :
    ∃ stat, atParseCreg (some r) (some out) = .ok (true, some stat) := by
  obtain ⟨t, rfl⟩ := hpre
  obtain ⟨m, hm⟩ : ∃ m, regValue r = some m := by
    rw [← Option.isSome_iff_exists, regValue, Option.isSome_or, findValue,
      List.findSome?_isSome_iff.mpr ⟨_, hmem, rfl⟩, Bool.true_or]
  exact ⟨readCreg m, by rw [atParseCreg_eq hr hs, hm]; rfl⟩

end Checked

/-! ## Operator -/

/-- A text without quotes, up to the next comma or the end. -/
def plainText (m : List UInt8) : List UInt8 := m.takeWhile fun b => b != 0 && b != 44

/-- The operator name, as much of it as is kept. -/
def operText (m : List UInt8) : List UInt8 :=
  if m.headD 0 = 34 then (quotedText m).take 23 else (plainText m).take 23

/-- What is behind it. -/
def behindOper (m : List UInt8) : List UInt8 :=
  if m.headD 0 = 34 then behindQuoted m else m.drop ((plainText m).take 23).length

/-! The texts from which the later fields of a `+COPS` value are read. -/

def copsFormat (m : List UInt8) : List UInt8 := behindComma (behindUint m)
def copsName (m : List UInt8) : List UInt8 := behindComma (behindUint (copsFormat m))
def copsAct (m : List UInt8) : List UInt8 := behindComma (behindOper (copsName m))

/-- What `at_parse_cops` reads. -/
def readCops (m : List UInt8) (out : Cops) : Cops :=
  if hasComma (behindUint m) then
    if hasComma (behindUint (copsFormat m)) then
      { mode := (uintAt m).toUInt8
        format := (uintAt (copsFormat m)).toUInt8
        oper := put out.oper (operText (copsName m))
        act := if hasComma (behindOper (copsName m)) then (uintAt (copsAct m)).toUInt8 else 0xFF }
    else
      { mode := (uintAt m).toUInt8
        format := (uintAt (copsFormat m)).toUInt8
        oper := put out.oper []
        act := 0xFF }
  else
    { mode := (uintAt m).toUInt8
      format := 0
      oper := put out.oper []
      act := 0xFF }

/-- An operator name fits into its array, -/
theorem length_operText (m : List UInt8) : (operText m).length < 24 := by
  rw [operText]
  split <;> exact Nat.lt_succ_of_le (List.length_take_le _ _)

/-- and has no terminator inside. -/
theorem zero_notMem_operText (m : List UInt8) : (0 : UInt8) ∉ operText m := by
  rw [operText]
  split
  · exact fun h => zero_notMem_quotedText m (List.mem_of_mem_take h)
  · intro h
    have := List.mem_takeWhile_imp (List.mem_of_mem_take h)
    simp at this

namespace Checked

variable {r : Response}

/-- A terminator behind what has been written. -/
theorem store_put {buf buf' : Vector UInt8 n} {t : List UInt8} (ht : t.length < n)
    (h : buf'.toList = t ++ buf.toList.drop t.length) :
    store buf' t.length 0 = .ok (put buf t) := by
  rw [store_eq ht]
  congr 1
  rw [← Vector.toList_inj, toList_put ht, Vector.toList_set, h,
    List.set_append_right _ _ (Nat.le_refl _), Nat.sub_self,
    List.drop_eq_getElem_cons (by rwa [Vector.length_toList]), List.set_cons_zero]

/-- The loop that copies a name without quotes. -/
theorem copyField_eq (stop : Nat) (hstop : stop < n) (m : List UInt8) :
    ∀ (buf : Vector UInt8 n) (d : Nat), d ≤ stop → ∃ buf',
      copyField stop buf d (cursor m) =
        .ok (buf', d + ((plainText m).take (stop - d)).length,
          cursor (m.drop ((plainText m).take (stop - d)).length)) ∧
      buf'.toList = buf.toList.take d ++ (plainText m).take (stop - d) ++
        buf.toList.drop (d + ((plainText m).take (stop - d)).length) := by
  have hend (buf : Vector UInt8 n) (d : Nat) : buf.toList =
      buf.toList.take d ++ [] ++ buf.toList.drop (d + 0) := by
    rw [List.append_nil, Nat.add_zero, List.take_append_drop]
  induction m with
  | nil =>
    intro buf d _
    refine ⟨buf, ?_, ?_⟩
    · rw [plainText, List.takeWhile_nil, List.take_nil]
      rfl
    · rw [plainText, List.takeWhile_nil, List.take_nil]
      exact hend buf d
  | cons b m ih =>
    intro buf d hd
    by_cases hgo : b ≠ 0 ∧ b ≠ 44 ∧ d < stop
    · obtain ⟨hb, hcomma, hlt⟩ := hgo
      have hplain : (plainText (b :: m)).take (stop - d) =
          b :: (plainText m).take (stop - (d + 1)) := by
        rw [plainText, List.takeWhile_cons, if_pos (by simp [hb, hcomma]), ← plainText,
          show stop - d = (stop - (d + 1)) + 1 by omega, List.take_succ_cons]
      obtain ⟨buf', hrun, hbuf'⟩ := ih (buf.set d b) (d + 1) hlt
      refine ⟨buf', ?_, ?_⟩
      · rw [cursor_cons hb, copyField, if_pos ⟨hb, hcomma, hlt⟩, store_eq (by omega), ok_bind, hrun,
          hplain, List.length_cons, List.drop_succ_cons, Nat.add_right_comm d 1, Nat.add_assoc]
      · have hi : d < buf.toList.length := by
          rw [Vector.length_toList]
          omega
        rw [hbuf', hplain, Vector.toList_set, List.drop_set_of_lt (by omega),
          List.take_add_one, List.getElem?_set_self hi, List.take_set_of_le (Nat.le_refl d),
          Option.toList_some, List.length_cons, Nat.add_right_comm d 1, Nat.add_assoc]
        simp only [List.append_assoc, List.cons_append, List.nil_append]
    · -- the loop ends: at the terminator, at a comma, or with the array full
      have hplain : (plainText (b :: m)).take (stop - d) = [] := by
        rw [plainText, List.takeWhile_cons]
        by_cases hb : b ≠ 0 ∧ b ≠ 44
        · have hfull : stop - d = 0 := by
            by_contra hne
            exact hgo ⟨hb.1, hb.2, by omega⟩
          rw [hfull, List.take_zero]
        · rw [if_neg (by simpa [Classical.not_and_iff_not_or_not] using hb), List.take_nil]
      refine ⟨buf, ?_, ?_⟩
      · rw [hplain]
        by_cases hb : b = 0
        · rw [hb, cursor_cons_zero, copyField, if_neg (by simp)]
          rw [List.length_nil, List.drop_zero, cursor_cons_zero]
          rfl
        · rw [cursor_cons hb, copyField, if_neg hgo, List.length_nil, List.drop_zero,
            cursor_cons hb]
          rfl
      · rw [hplain]
        exact hend buf d

/-- The name, in quotes or without. -/
theorem copsOper_eq (m : List UInt8) (oper : Vector UInt8 24) :
    copsOper (cursor m) oper = .ok (cursor (behindOper m), put oper (operText m)) := by
  rw [copsOper, deref_cursor, ok_bind, behindOper, operText]
  by_cases hm : m.headD 0 = 34
  · rw [if_pos hm, if_pos hm, if_pos hm, parseQuoted_eq (by decide), ok_bind, fillQuoted, if_pos hm]
    rfl
  · rw [if_neg hm, if_neg hm, if_neg hm]
    obtain ⟨buf', hrun, hbuf'⟩ := copyField_eq (n := 24) 23 (by decide) m oper 0
      (Nat.zero_le _)
    rw [Nat.sub_zero, Nat.zero_add] at hrun
    rw [List.take_zero, List.nil_append, Nat.zero_add] at hbuf'
    rw [hrun, ok_bind]
    dsimp only
    rw [store_put (Nat.lt_succ_of_le (List.length_take_le _ _)) hbuf', ok_bind]
    rfl

/-- **`at_parse_cops`** leaves out what comes behind a field that is missing. -/
theorem atParseCops_eq (hr : r.Valid) (hs : r.status = .ok) (out : Cops) :
    atParseCops (some r) (some out) =
      .ok (outcome out ((findValue r (ascii "+COPS")).map fun m => readCops m out)) := by
  have hempty (oper : Vector UInt8 24) : store oper 0 0 = .ok (put oper []) :=
    store_put (t := []) (by decide) rfl
  rw [atParseCops, withArgs, if_neg (not_not.mpr hs), respFindValue_cursor hr, ok_bind]
  cases findValue r (ascii "+COPS") with
  | none => rfl
  | some m =>
    simp only [Option.map_some]
    rw [uintAt_eq, ok_bind, readCops]
    dsimp only
    rw [atSkipComma_cursor, ok_bind, ← copsFormat]
    cases hasComma (behindUint m) with
    | false =>
      simp only [Bool.not_false, Bool.false_eq_true, if_true, if_false]
      rw [hempty, ok_bind]
      rfl
    | true =>
      simp only [Bool.not_true, Bool.false_eq_true, if_true, if_false]
      rw [uintAt_eq, ok_bind]
      dsimp only
      rw [atSkipComma_cursor, ok_bind, ← copsName]
      cases hasComma (behindUint (copsFormat m)) with
      | false =>
        simp only [Bool.not_false, Bool.false_eq_true, if_true, if_false]
        rw [hempty, ok_bind]
        rfl
      | true =>
        simp only [Bool.not_true, Bool.false_eq_true, if_true, if_false]
        rw [copsOper_eq, ok_bind]
        dsimp only
        rw [atSkipComma_cursor, ok_bind, ← copsAct]
        cases hasComma (behindOper (copsName m)) with
        | false => rfl
        | true =>
          simp only [if_true]
          rw [uintAt_eq, ok_bind]
          rfl

/-! ## Message reference -/

/-- **`at_parse_cmgs`** reads one number. -/
theorem atParseCmgs_eq (hr : r.Valid) (hs : r.status = .ok) (out : UInt8) :
    atParseCmgs (some r) (some out) =
      .ok (outcome out
        ((findValue r (ascii "+CMGS")).map fun m => (uintAt m).toUInt8)) := by
  rw [atParseCmgs, withArgs, if_neg (not_not.mpr hs), respFindValue_cursor hr, ok_bind]
  cases findValue r (ascii "+CMGS") with
  | none => rfl
  | some m =>
    simp only [Option.map_some]
    rw [uintAt_eq, ok_bind]
    rfl

end Checked

/-! ## Messages -/

/-- The status of a message, from its text. -/
def smsStatOf (t : List UInt8) : UInt8 :=
  if strncmpEq t (ascii "REC UNREAD") 10 then 0
  else if strncmpEq t (ascii "REC READ") 8 then 1
  else if strncmpEq t (ascii "STO UNSENT") 10 then 2
  else 3

/-- The status field of a `+CMGR` header. -/
def statAt (m : List UInt8) : UInt8 :=
  if m.headD 0 = 34 then smsStatOf ((quotedText m).take 15) else (uintAt m).toUInt8

/-- What is behind the alpha field: it ends at the next comma. -/
def behindAlpha (m : List UInt8) : List UInt8 :=
  if m.headD 0 = 34 then m.dropWhile fun b => b != 0 && b != 44 else m

/-! The texts from which the later fields of a `+CMGR` header are read. -/

def smsOa (m : List UInt8) : List UInt8 :=
  behindComma (if m.headD 0 = 34 then behindQuoted m else behindUint m)
def smsAlpha (m : List UInt8) : List UInt8 := behindComma (behindQuoted (smsOa m))
def smsScts (m : List UInt8) : List UInt8 := behindComma (behindAlpha (smsAlpha m))

/-- The header of a message: there is a second line for the text, and the first begins
with the prefix. -/
def smsHeader (r : Response) : Option (List UInt8) :=
  if 2 ≤ r.numLines ∧ strncmpEq (r.lines.getD 0 []) (ascii "+CMGR:") 6 then
    let l := (r.lines.getD 0 []).drop 6
    some (if l.head? = some 32 then l.drop 1 else l)
  else none

/-- What `at_parse_sms_read` reads from a header and a line of text. -/
def readSms (m text : List UInt8) (out : Sms) : Sms where
  oa := fillQuoted (smsOa m) out.oa
  scts := fillQuoted (smsScts m) out.scts
  text := put out.text ((cstr text).take 160)
  index := out.index
  stat := statAt m

/-- The status depends on the string only. -/
theorem smsStatOf_congr {a b : List UInt8} (h : cstr a = cstr b) : smsStatOf a = smsStatOf b := by
  have hcmp (t : List UInt8) (k : Nat) : strncmpEq a t k = strncmpEq b t k := by
    rw [strncmpEq, strncmpEq, h]
  rw [smsStatOf, smsStatOf, hcmp, hcmp, hcmp]

namespace Checked

variable {r : Response}

/-- The status is looked up in its table. -/
theorem smsStat_eq {ss : List UInt8} (hss : 0 ∈ ss) : smsStat ss = .ok (smsStatOf ss) := by
  have hcmp (str : List UInt8) (len : Nat) :
      strncmpEq ss (cursor str) len = .ok (LibAt.strncmpEq ss str len) := by
    rw [strncmpEq_eq hss (zero_mem_cursor str), LibAt.strncmpEq, cstr_cursor, LibAt.strncmpEq]
  rw [smsStat, smsStatOf, hcmp, ok_bind]
  split
  · rfl
  · rw [hcmp, ok_bind]
    split
    · rfl
    · rw [hcmp, ok_bind]
      split <;> rfl

/-- It may be a text or a number. -/
theorem smsStatField_eq (stk : Stack) (m : List UInt8) :
    smsStatField stk (cursor m) = .ok (statAt m, cursor (smsOa m)) := by
  rw [smsStatField, deref_cursor, ok_bind, statAt, smsOa]
  by_cases hm : m.headD 0 = 34
  · have hlen : ((quotedText m).take 15).length < 16 :=
      Nat.lt_succ_of_le (List.length_take_le _ _)
    have h0 : (0 : UInt8) ∉ (quotedText m).take 15 :=
      fun h => zero_notMem_quotedText m (List.mem_of_mem_take h)
    rw [if_pos hm, if_pos hm, if_pos hm]
    dsimp only
    rw [parseQuoted_eq (by decide), ok_bind, fillQuoted, if_pos hm]
    dsimp only
    rw [smsStat_eq (Vector.mem_toList_iff.mpr (zero_mem_put hlen _)), ok_bind, atSkipComma_cursor, ok_bind,
      smsStatOf_congr ((cstr_put hlen h0 _).trans (cstr_eq_self h0).symm)]
    rfl
  · rw [if_neg hm, if_neg hm, if_neg hm, uintAt_eq, ok_bind]
    dsimp only
    rw [atSkipComma_cursor, ok_bind]
    rfl

/-- The alpha text is passed over whether it is in quotes or not. -/
theorem skipAlpha_eq (m : List UInt8) : skipAlpha (cursor m) = .ok (cursor (behindAlpha m)) := by
  rw [skipAlpha, deref_cursor, ok_bind, behindAlpha]
  split
  · exact skipWhile_cursor (by decide) m
  · rfl

/-- **`at_parse_sms_read`** takes the second line of the response for the text, whatever it is.
-/
theorem atParseSmsRead_eq (hr : r.Valid) (hs : r.status = .ok) (stk : Stack) (out : Sms) :
    atParseSmsRead stk (some r) (some out) =
      .ok (outcome out ((smsHeader r).map fun m => readSms m (r.lines.getD 1 []) out)) := by
  rw [atParseSmsRead, withArgs, if_neg (not_not.mpr hs), smsHeader]
  by_cases hfew : r.numLines < 2
  · rw [if_pos hfew, if_neg fun h => absurd h.1 (Nat.not_le.mpr hfew)]
    rfl
  · obtain ⟨l, hl, hline⟩ := line_eq hr (i := 0) (by omega)
    obtain ⟨text, ht, htext⟩ := line_eq hr (i := 1) (by omega)
    have hget₀ : r.lines.getD 0 [] = l := by rw [List.getD_eq_getElem?_getD, hl, Option.getD_some]
    have hget₁ : r.lines.getD 1 [] = text := by
      rw [List.getD_eq_getElem?_getD, ht, Option.getD_some]
    rw [if_neg hfew, hline, ok_bind, strncmpEq_cursor, ok_bind, hget₀, hget₁]
    by_cases hpre : LibAt.strncmpEq l (ascii "+CMGR:") 6 = true
    · have hlong : 6 ≤ LibAt.strlen l := @strlen_le_of_strncmpEq l (ascii "+CMGR:") hpre
      rw [if_neg (by simp [hpre]), if_pos ⟨Nat.not_lt.mp hfew, hpre⟩, advance_cursor hlong, ok_bind,
        skipIf_cursor (by decide), ok_bind, smsStatField_eq, ok_bind]
      dsimp only
      rw [parseQuoted_eq (by decide), ok_bind]
      dsimp only
      rw [atSkipComma_cursor, ok_bind, ← smsAlpha]
      dsimp only
      rw [skipAlpha_eq, ok_bind, atSkipComma_cursor, ok_bind, ← smsScts]
      dsimp only
      rw [parseQuoted_eq (by decide), ok_bind]
      dsimp only
      rw [htext, ok_bind, strlen_cursor, ok_bind, copyText_cursor (Nat.succ_pos _), ok_bind]
      rfl
    · rw [if_pos (by simp [hpre]), if_neg fun h => hpre h.2]
      rfl

/-! ## Successful calls -/

variable {resp : Option Response}

/-- What comes with `true` has been read. -/
theorem outcome_true {α : Type} {out v : α} {o : Option α}
    (h : outcome out o = (true, some v)) : o = some v := by
  cases o with
  | none => cases h
  | some a => exact (Prod.mk.inj h).2

/-- A parser that returns `true` has had its arguments, and a successful response. -/
theorem withArgs_true {α : Type} {out : Option α} {body : Response → α → M (Bool × Option α)}
    {x : Option α} (h : withArgs resp out body = .ok (true, x)) :
    ∃ r o, resp = some r ∧ out = some o ∧ r.status = .ok := by
  rcases resp with _ | r
  · cases h
  · rcases out with _ | o
    · cases h
    · refine ⟨r, o, rfl, rfl, ?_⟩
      by_contra hs
      rw [withArgs, if_pos hs] at h
      cases h

/-- Where a parser returns `true`, its output is what it reads of the line that it takes. -/
theorem csq_read (hresp : ∀ r ∈ resp, r.Valid) {out : Option Csq} {v : Csq}
    (h : atParseCsq resp out = .ok (true, some v)) :
    ∃ r m, resp = some r ∧ r.status = .ok ∧ findValue r (ascii "+CSQ") = some m ∧
      readCsq m = some v := by
  obtain ⟨r, o, rfl, rfl, hs⟩ := withArgs_true h
  rw [atParseCsq_eq (hresp r rfl) hs] at h
  obtain ⟨m, hm, hread⟩ := Option.bind_eq_some_iff.mp (outcome_true (Except.ok.inj h))
  exact ⟨r, m, rfl, hs, hm, hread⟩

theorem cesq_read (hresp : ∀ r ∈ resp, r.Valid) {out : Option Cesq} {v : Cesq}
    (h : atParseCesq resp out = .ok (true, some v)) :
    ∃ r m, resp = some r ∧ r.status = .ok ∧ findValue r (ascii "+CESQ") = some m ∧
      v = readCesq m := by
  obtain ⟨r, o, rfl, rfl, hs⟩ := withArgs_true h
  rw [atParseCesq_eq (hresp r rfl) hs] at h
  obtain ⟨m, hm, hread⟩ := Option.map_eq_some_iff.mp (outcome_true (Except.ok.inj h))
  exact ⟨r, m, rfl, hs, hm, hread.symm⟩

theorem cops_read (hresp : ∀ r ∈ resp, r.Valid) {out : Option Cops} {v : Cops}
    (h : atParseCops resp out = .ok (true, some v)) :
    ∃ r m, resp = some r ∧ r.status = .ok ∧ findValue r (ascii "+COPS") = some m ∧
      ∃ o, v = readCops m o := by
  obtain ⟨r, o, rfl, rfl, hs⟩ := withArgs_true h
  rw [atParseCops_eq (hresp r rfl) hs] at h
  obtain ⟨m, hm, hread⟩ := Option.map_eq_some_iff.mp (outcome_true (Except.ok.inj h))
  exact ⟨r, m, rfl, hs, hm, o, hread.symm⟩

theorem cmgs_read (hresp : ∀ r ∈ resp, r.Valid) {out : Option UInt8} {v : UInt8}
    (h : atParseCmgs resp out = .ok (true, some v)) :
    ∃ r m, resp = some r ∧ r.status = .ok ∧ findValue r (ascii "+CMGS") = some m ∧
      v = (uintAt m).toUInt8 := by
  obtain ⟨r, o, rfl, rfl, hs⟩ := withArgs_true h
  rw [atParseCmgs_eq (hresp r rfl) hs] at h
  obtain ⟨m, hm, hread⟩ := Option.map_eq_some_iff.mp (outcome_true (Except.ok.inj h))
  exact ⟨r, m, rfl, hs, hm, hread.symm⟩

theorem sms_read (hresp : ∀ r ∈ resp, r.Valid) {stk : Stack} {out : Option Sms} {v : Sms}
    (h : atParseSmsRead stk resp out = .ok (true, some v)) :
    ∃ r m, resp = some r ∧ r.status = .ok ∧ smsHeader r = some m ∧
      ∃ o, v = readSms m (r.lines.getD 1 []) o := by
  obtain ⟨r, o, rfl, rfl, hs⟩ := withArgs_true h
  rw [atParseSmsRead_eq (hresp r rfl) hs] at h
  obtain ⟨m, hm, hread⟩ := Option.map_eq_some_iff.mp (outcome_true (Except.ok.inj h))
  exact ⟨r, m, rfl, hs, hm, o, hread.symm⟩

end Checked

end LibAt
