import LibAt.Lines
import LibAt.Parsers

/-!
# Pointers into a line

The parsers are chains of helpers that each move a pointer and mostly ignore whether
the one before has found anything, so in a malformed line the pointer can stop at any
place. What carries through every chain is that the pointer is one into the line
(`cursor`), at the latest at its terminator.

The integer parsers and `at__skip_comma` take such a pointer to another one, and what they
return and how far they go can be said of the text alone (`atParseUint_cursor`,
`atParseInt_cursor`, `atSkipComma_cursor`); so can what `resp_find_value` finds
(`respFindValue_cursor`). A loop over the lines has an 8-bit index. It ends because there
are fewer than 256 lines, and it is left at the first line that has something
(`eachLine_leave`). The line that `resp_find_value` takes is the first one that begins
with the prefix (`findValue_firstLine`).
-/

namespace LibAt

/-- `num_lines` is a `uint8_t`, and as many pointers have been set, each to the first
byte of a string. -/
structure Response.Valid (r : Response) : Prop where
  narrow : r.numLines < 256
  set : r.numLines ≤ r.lines.length

/-! ## What is read of a text -/

/-- One digit more, as long as there is room for it. -/
def uintDigit (v : Nat) (b : UInt8) : Nat :=
  if v ≤ (0xFFFFFFFF - 9) / 10 then v * 10 + (b.toNat - 48) else 0xFFFFFFFF

/-- A comma comes next. -/
def hasComma (m : List UInt8) : Bool := (m.dropWhile (· == 32)).headD 0 == 44

/-- What is behind it. Without a comma that is the text behind its spaces. -/
def behindComma (m : List UInt8) : List UInt8 :=
  let p := m.dropWhile (· == 32)
  if p.headD 0 = 44 then (p.drop 1).dropWhile (· == 32) else p

/-- The value of a line, from what is behind the prefix: a colon and a space are no part
of it. -/
def valueText (rest : List UInt8) : List UInt8 :=
  let l := if rest.head? = some 58 then rest.drop 1 else rest
  if l.head? = some 32 then l.drop 1 else l

/-- The value in a line that begins with the prefix. -/
def valueIn (pre l : List UInt8) : Option (List UInt8) :=
  if strncmpEq l pre (strlen pre) then some (valueText (l.drop (strlen pre))) else none

/-- The value in the first line that begins with the prefix. -/
def findValue (r : Response) (pre : List UInt8) : Option (List UInt8) :=
  (r.lines.take r.numLines).findSome? (valueIn pre)

namespace Checked

/-! ## Integer parsers -/

theorem ne_zero_of_digit {b : UInt8} (h : 48 ≤ b.toNat ∧ b.toNat ≤ 57) : b ≠ 0 := by
  rintro rfl
  exact absurd h.1 (by decide)

theorem isDigit_bounds {b : UInt8} (h : isDigit b = true) : 48 ≤ b.toNat ∧ b.toNat ≤ 57 := by
  simp only [isDigit, Bool.and_eq_true, decide_eq_true_eq, UInt8.le_iff_toNat_le] at h
  exact h

/-- A pointer at a byte that is no digit. -/
theorem parseUintDigits_stop {b : UInt8} (hb : isDigit b = false) (v : UInt32) (p : List UInt8) :
    parseUintDigits v (b :: p) = .ok (v, b :: p) := by
  rw [parseUintDigits, hb]
  rfl

theorem parseIntDigits_stop {b : UInt8} (hb : isDigit b = false) (v : Int) (p : List UInt8) :
    parseIntDigits v (b :: p) = .ok (v, b :: p) := by
  rw [parseIntDigits, hb]
  rfl

/-- The unsigned digit loop does not wrap: it saturates first. -/
theorem toNat_uintDigit {b : UInt8} (hb : isDigit b = true) (v : UInt32) :
    (if v ≤ (0xFFFFFFFF - 9) / 10 then v * 10 + (b - 48).toUInt32 else 0xFFFFFFFF).toNat =
      uintDigit v.toNat b := by
  rw [uintDigit]
  have hd := isDigit_bounds hb
  have hsub : (b - 48).toNat = b.toNat - 48 :=
    UInt8.toNat_sub_of_le b 48 (UInt8.le_iff_toNat_le.mpr hd.1)
  by_cases hv : v.toNat ≤ (0xFFFFFFFF - 9) / 10
  · have hv' : v ≤ (0xFFFFFFFF - 9) / 10 := UInt32.le_iff_toNat_le.mpr hv
    rw [if_pos hv', if_pos hv, UInt32.toNat_add, UInt32.toNat_mul, UInt8.toNat_toUInt32, hsub]
    change (v.toNat * 10 % 2 ^ 32 + (b.toNat - 48)) % 2 ^ 32 = _
    omega
  · have hv' : ¬v ≤ (0xFFFFFFFF - 9) / 10 := mt UInt32.le_iff_toNat_le.mp hv
    rw [if_neg hv', if_neg hv]
    rfl

theorem parseUintDigits_cursor (m : List UInt8) : ∀ v : UInt32,
    parseUintDigits v (cursor m) =
      .ok (UInt32.ofNat ((m.takeWhile isDigit).foldl uintDigit v.toNat),
        cursor (m.dropWhile isDigit)) := by
  induction m with
  | nil =>
    intro v
    rw [cursor_nil, parseUintDigits_stop rfl, List.takeWhile_nil, List.foldl_nil,
      UInt32.ofNat_toNat]
    rfl
  | cons b m ih =>
    intro v
    cases hd : isDigit b with
    | false =>
      rw [List.takeWhile_cons_of_neg (by simp [hd]), List.dropWhile_cons_of_neg (by simp [hd]),
        List.foldl_nil, UInt32.ofNat_toNat]
      by_cases hb : b = 0
      · rw [hb, cursor_cons_zero, parseUintDigits_stop rfl]
      · rw [cursor_cons hb, parseUintDigits_stop hd]
    | true =>
      rw [cursor_cons (ne_zero_of_digit (isDigit_bounds hd)), parseUintDigits, if_pos hd, ih,
        toNat_uintDigit hd, List.takeWhile_cons_of_pos hd, List.dropWhile_cons_of_pos hd,
        List.foldl_cons]

/-- **`at__parse_uint` is safe**, and takes a run of digits. -/
theorem atParseUint_cursor (m : List UInt8) :
    atParseUint (cursor m) =
      .ok (UInt32.ofNat ((m.takeWhile isDigit).foldl uintDigit 0), cursor (m.dropWhile isDigit)) :=
  parseUintDigits_cursor m 0

/-- The signed digit loop saturates before it overflows. -/
theorem intDigit_eq {b : UInt8} (hb : isDigit b = true) {v : Nat} (hv : v ≤ 0x7FFFFFFF) :
    intDigit v b = .ok ((if v ≤ (0x7FFFFFFF - 9) / 10 then v * 10 + (b.toNat - 48)
      else 0x7FFFFFFF : Nat) : Int) := by
  have hd := isDigit_bounds hb
  rw [intDigit]
  by_cases hsmall : v ≤ (0x7FFFFFFF - 9) / 10
  · rw [if_pos (by omega), if_pos hsmall, int32_eq (by omega), ok_bind, int32_eq (by omega)]
    congr 1
    omega
  · rw [if_neg (by omega), if_neg hsmall]
    rfl

theorem parseIntDigits_cursor (m : List UInt8) : ∀ v : Nat, v ≤ 0x7FFFFFFF →
    (LibAt.parseIntDigits v m).1 ≤ 0x7FFFFFFF ∧
      parseIntDigits v (cursor m) =
        .ok ((LibAt.parseIntDigits v m).1, cursor (LibAt.parseIntDigits v m).2) := by
  induction m with
  | nil =>
    intro v hv
    refine ⟨hv, ?_⟩
    rw [cursor_nil, parseIntDigits_stop rfl]
    rfl
  | cons b m ih =>
    intro v hv
    cases hd : isDigit b with
    | false =>
      rw [LibAt.parseIntDigits, hd, if_neg (by simp)]
      refine ⟨hv, ?_⟩
      by_cases hb : b = 0
      · rw [hb, cursor_cons_zero, parseIntDigits_stop rfl]
      · rw [cursor_cons hb, parseIntDigits_stop hd]
    | true =>
      have hbounds := isDigit_bounds hd
      have hnext : (if v ≤ (0x7FFFFFFF - 9) / 10 then v * 10 + (b.toNat - 48) else 0x7FFFFFFF) ≤
          0x7FFFFFFF := by
        split <;> omega
      obtain ⟨hle, heq⟩ := ih _ hnext
      rw [cursor_cons (ne_zero_of_digit hbounds), parseIntDigits, LibAt.parseIntDigits, if_pos hd,
        if_pos hd, intDigit_eq hd hv]
      exact ⟨hle, heq⟩

/-- The text behind a sign. -/
def unsigned (m : List UInt8) : List UInt8 :=
  if m.headD 0 = 45 ∨ m.headD 0 = 43 then m.drop 1 else m

theorem parseSign_cursor (m : List UInt8) :
    parseSign (cursor m) = .ok (decide (m.headD 0 = 45), cursor (unsigned m)) := by
  have hmove (h : m.headD 0 = 45 ∨ m.headD 0 = 43) :
      advance 1 (cursor m) = .ok (cursor (unsigned m)) := by
    rw [unsigned, if_pos h]
    refine advance_cursor (strlen_pos ?_)
    rcases h with h | h <;> rw [h] <;> decide
  rw [parseSign, deref_cursor, ok_bind]
  by_cases hminus : m.headD 0 = 45
  · rw [if_pos hminus, hmove (.inl hminus), decide_eq_true hminus, ok_bind]
    rfl
  · rw [if_neg hminus, decide_eq_false hminus]
    by_cases hplus : m.headD 0 = 43
    · rw [if_pos hplus, hmove (.inr hplus), ok_bind]
      rfl
    · rw [if_neg hplus, unsigned, if_neg (not_or.mpr ⟨hminus, hplus⟩)]
      rfl

theorem atParseInt_unsigned (m : List UInt8) :
    LibAt.atParseInt m =
      let p := m.dropWhile fun b => b == 32 || b == 9
      let d := LibAt.parseIntDigits 0 (unsigned p)
      (if p.headD 0 = 45 then -(d.1 : Int) else d.1, d.2) := by
  rw [LibAt.atParseInt]
  generalize m.dropWhile _ = p
  dsimp only
  split
  · simp [unsigned]
  · simp [unsigned]
  · rename_i hminus hplus
    have hm : p.headD 0 ≠ 45 := by
      intro h
      cases p with
      | nil => cases h
      | cons b q => exact hminus q (congrArg (· :: q) h)
    have hp : p.headD 0 ≠ 43 := by
      intro h
      cases p with
      | nil => cases h
      | cons b q => exact hplus q (congrArg (· :: q) h)
    rw [unsigned, if_neg (not_or.mpr ⟨hm, hp⟩), if_neg hm]
    simp

/-- **`at__parse_int` is safe**, and computes what it is meant to: the digits
saturate at a value that can be negated. -/
theorem atParseInt_cursor (m : List UInt8) :
    atParseInt (cursor m) = .ok ((LibAt.atParseInt m).1, cursor (LibAt.atParseInt m).2) := by
  rw [atParseInt_unsigned, atParseInt, skipWhile_cursor (by decide)]
  generalize m.dropWhile _ = p
  obtain ⟨hle, hdigits⟩ := parseIntDigits_cursor (unsigned p) 0 (Nat.zero_le _)
  rw [ok_bind, parseSign_cursor, ok_bind, show (0 : Int) = (0 : Nat) from rfl]
  dsimp only
  rw [hdigits, ok_bind]
  by_cases hneg : p.headD 0 = 45
  · rw [decide_eq_true hneg, if_pos hneg]
    dsimp only
    rw [if_pos rfl, int32_eq (by omega)]
    rfl
  · rw [decide_eq_false hneg, if_neg hneg]
    rfl

/-- **`at__skip_comma` is safe**, and passes over a comma with the spaces around it. -/
theorem atSkipComma_cursor (m : List UInt8) :
    atSkipComma (cursor m) = .ok (hasComma m, cursor (behindComma m)) := by
  rw [atSkipComma, hasComma, behindComma, skipWhile_cursor (by decide), ok_bind]
  generalize m.dropWhile _ = p
  rw [deref_cursor, ok_bind]
  by_cases hcomma : p.headD 0 = 44
  · have hpos : 1 ≤ LibAt.strlen p := strlen_pos (by rw [hcomma]; decide)
    rw [if_neg (not_not.mpr hcomma), advance_cursor hpos, ok_bind, skipWhile_cursor (by decide),
      ok_bind, if_pos hcomma, hcomma]
    rfl
  · rw [if_pos hcomma, if_neg hcomma, beq_false_of_ne hcomma]
    rfl

/-! ## Lines -/

variable {r : Response}

theorem line_eq (hr : r.Valid) {i : Nat} (hi : i < r.numLines) :
    ∃ l, r.lines[i]? = some l ∧ line r i = .ok (cursor l) := by
  have hlt : i < r.lines.length := Nat.lt_of_lt_of_le hi hr.set
  have hl : r.lines[i]? = some r.lines[i] := List.getElem?_eq_getElem hlt
  refine ⟨_, hl, ?_⟩
  rw [line, hl]
  rfl

/-- How a round goes on when its line has something, and when it has nothing. -/
def leave {α β : Type} (h : α → M β) : Option α → M (Option β)
  | none => pure none
  | some a => do return some (← h a)

theorem countedFrom_lines {α β : Type} {body : List UInt8 → M (Option β)}
    {f : List UInt8 → Option α} {h : α → M β} (hr : r.Valid)
    (hbody : ∀ l, body (cursor l) = leave h (f l)) (rounds : Nat) :
    ∀ i, i ≤ r.numLines → r.numLines < i + rounds →
      countedFrom 256 r.numLines (fun i => do body (← line r i)) rounds i =
        leave h (((r.lines.take r.numLines).drop i).findSome? f) := by
  induction rounds with
  | zero =>
    intro i hi hlt
    omega
  | succ rounds ih =>
    intro i hi hlt
    rw [countedFrom]
    by_cases hin : i < r.numLines
    · obtain ⟨l, hget, hline⟩ := line_eq hr hin
      obtain ⟨hlen, rfl⟩ := List.getElem?_eq_some_iff.mp hget
      have htake : i < (r.lines.take r.numLines).length := by
        rw [List.length_take]
        omega
      rw [if_pos hin, hline, ok_bind, hbody, List.drop_eq_getElem_cons htake, List.getElem_take,
        List.findSome?_cons]
      cases f r.lines[i] with
      | none =>
        -- the index is still far from the place where it starts again
        have hnext : (i + 1) % 256 = i + 1 :=
          Nat.mod_eq_of_lt (Nat.lt_of_le_of_lt hin hr.narrow)
        refine Eq.trans ?_ (ih (i + 1) hin (by omega))
        rw [leave, pure_bind, hnext]
      | some a =>
        rw [leave]
        cases h a <;> rfl
    · have hempty : (r.lines.take r.numLines).drop i = [] := by
        refine List.drop_eq_nil_of_le ?_
        rw [List.length_take]
        omega
      rw [if_neg hin, hempty]
      rfl

/-- **A loop over the lines** is left at the first one that has something. -/
theorem eachLine_leave {α β : Type} {body : List UInt8 → M (Option β)} {f : List UInt8 → Option α}
    {h : α → M β} (hr : r.Valid) (hbody : ∀ l, body (cursor l) = leave h (f l)) :
    eachLine r body = leave h ((r.lines.take r.numLines).findSome? f) := by
  have hnarrow := hr.narrow
  exact countedFrom_lines hr hbody 256 0 (Nat.zero_le _) (by omega)

/-- A loop over the lines finds the first one that has a result. -/
theorem eachLine_eq {β : Type} {body : List UInt8 → M (Option β)} {f : List UInt8 → Option β}
    (hr : r.Valid) (h : ∀ l, body (cursor l) = .ok (f l)) :
    eachLine r body = .ok ((r.lines.take r.numLines).findSome? f) := by
  have hleave (o : Option β) : leave (.ok ·) o = .ok o := by
    cases o <;> rfl
  rw [eachLine_leave hr fun l => (h l).trans (hleave _).symm, hleave]

/-- A line that begins with the prefix is at least as long. -/
theorem strlen_le_of_strncmpEq {l pre : List UInt8}
    (h : LibAt.strncmpEq l pre (LibAt.strlen pre) = true) :
    LibAt.strlen pre ≤ LibAt.strlen l := by
  have hpre : cstr pre <+: cstr l := by
    refine (strncmpEq_length_iff (zero_notMem_cstr pre)).mp ?_
    rwa [LibAt.strncmpEq, cstr_cstr]
  exact hpre.length_le

/-- **`resp_find_value` is safe**, and finds what it is meant to. -/
theorem respFindValue_cursor (hr : r.Valid) (pre : List UInt8) :
    respFindValue r pre = .ok ((findValue r pre).map cursor) := by
  rw [respFindValue, strlen_cursor, ok_bind, findValue, List.map_findSome?]
  refine eachLine_eq hr fun l => ?_
  rw [strncmpEq_cursor, ok_bind, Function.comp, valueIn]
  by_cases h : LibAt.strncmpEq l pre (LibAt.strlen pre) = true
  · rw [if_pos h, if_neg (by simp [h]), advance_cursor (strlen_le_of_strncmpEq h), ok_bind,
      skipIf_cursor (by decide), ok_bind, skipIf_cursor (by decide)]
    rfl
  · rw [if_neg h, if_pos (by simp [h])]
    rfl

end Checked

/-! ## The first line with a prefix -/

/-- In the response there is a line that begins with the prefix and goes on with `rest`,
and none before it begins with the prefix. -/
def FirstLine (r : Response) (pre rest : List UInt8) : Prop :=
  ∃ before after, r.lines.take r.numLines = before ++ (pre ++ rest) :: after ∧
    ∀ l ∈ before, ¬pre <+: cstr l

theorem findValue_firstLine {r : Response} {pre rest : List UInt8} (h0 : (0 : UInt8) ∉ pre)
    (h : FirstLine r pre rest) : findValue r pre = some (valueText rest) := by
  obtain ⟨before, after, hlines, hbefore⟩ := h
  have hbegins (l : List UInt8) : strncmpEq l pre (strlen pre) = true ↔ pre <+: cstr l := by
    rw [strlen, cstr_eq_self h0]
    exact strncmpEq_length_iff h0
  have hnone : before.findSome? (valueIn pre) = none := by
    refine List.findSome?_eq_none_iff.mpr fun l hl => ?_
    exact if_neg (mt (hbegins l).mp (hbefore l hl))
  have hline : valueIn pre (pre ++ rest) = some (valueText rest) := by
    have hpre : pre <+: cstr (pre ++ rest) := by
      rw [cstr_append h0]
      exact List.prefix_append ..
    rw [valueIn, if_pos ((hbegins _).mpr hpre), strlen, cstr_eq_self h0, List.drop_left]
  rw [findValue, hlines, List.findSome?_append, hnone, Option.none_or, List.findSome?_cons, hline]

end LibAt
