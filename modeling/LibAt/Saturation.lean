import LibAt.Cursors

/-!
# Where the integer parsers saturate

`at__parse_uint` and `at__parse_int` take the longest run of digits and are meant to
return its value, or the nearest one that the type has. Their guard looks at the value
before the next digit is known, and allows for a 9 (`guardedValue_eq`). So a value that
has the last digits of the limit is taken for too large: from 4294967290 on, unsigned,
and from 2147483640 on, signed, the result is the limit. A negative number saturates as
its magnitude does, at -2147483647, which is one above the smallest `int32_t`.

- `uintDigits_value`, `atParseInt_value`: what the two functions compute, for every text.
- `uintExact_iff`, `intExact_iff`: where that is the number in the text, or the nearest
  one that the type has.
- `u32Back_iff`, `i32Back_iff`: where a number is read back that `AB_U32` or `AB_I32` has
  written.
-/

namespace LibAt

/-! ## The number in a text -/

/-- The value of the longest run of digits that a text begins with. -/
def runValue (m : List UInt8) : Nat := digitsValue (m.takeWhile isDigit)

/-- The text behind its blanks. -/
def skipBlanks (m : List UInt8) : List UInt8 := m.dropWhile fun b => b == 32 || b == 9

/-- The integer at the start of a text: blanks, a sign, a run of digits. -/
def intValue (m : List UInt8) : Int :=
  if (skipBlanks m).headD 0 = 45 then -runValue (Checked.unsigned (skipBlanks m))
  else runValue (Checked.unsigned (skipBlanks m))

/-- What is behind that integer. -/
def behindInt (m : List UInt8) : List UInt8 :=
  (Checked.unsigned (skipBlanks m)).dropWhile isDigit

/-- What `at__parse_uint` makes of a number. -/
def saturateUint (n : Nat) : Nat := if n < 4294967290 then n else 0xFFFFFFFF

/-- What `at__parse_int` makes of a magnitude. -/
def saturateInt (n : Nat) : Nat := if n < 2147483640 then n else 0x7FFFFFFF

theorem mem_digits {m : List UInt8} : ∀ b ∈ m.takeWhile isDigit, 48 ≤ b.toNat ∧ b.toNat ≤ 57 :=
  fun _ hb => Checked.isDigit_bounds (List.mem_takeWhile_imp hb)

theorem parseIntDigits_foldl (m : List UInt8) : ∀ v,
    parseIntDigits v m =
      ((m.takeWhile isDigit).foldl (fun v b =>
          if v ≤ (0x7FFFFFFF - 9) / 10 then v * 10 + (b.toNat - 48) else 0x7FFFFFFF) v,
        m.dropWhile isDigit) := by
  induction m with
  | nil => intro v; rfl
  | cons b m ih =>
    intro v
    rw [parseIntDigits]
    cases hb : isDigit b with
    | true => rw [if_pos rfl, ih, List.takeWhile_cons, List.dropWhile_cons, hb]; rfl
    | false => rw [List.takeWhile_cons, List.dropWhile_cons, hb]; rfl

/-- **`at__parse_uint`** takes the value of the run of digits, but 4294967290 for too large
already. -/
theorem uintDigits_value (m : List UInt8) :
    (m.takeWhile isDigit).foldl uintDigit 0 = saturateUint (runValue m) := by
  have hguard : (0xFFFFFFFF - 9) / 10 < 0xFFFFFFFF := by decide
  refine (guardedValue_eq hguard mem_digits).trans ?_
  rw [saturateUint, runValue]
  congr 1
  exact propext Nat.lt_succ_iff.symm

/-- **`at__parse_int`** consumes blanks, a sign and the longest run of digits. The sign is
put to the saturated magnitude. -/
theorem atParseInt_value (m : List UInt8) :
    atParseInt m =
      (if (skipBlanks m).headD 0 = 45 then
          -(saturateInt (runValue (Checked.unsigned (skipBlanks m))) : Int)
        else saturateInt (runValue (Checked.unsigned (skipBlanks m))), behindInt m) := by
  have hguard : (0x7FFFFFFF - 9) / 10 < 0x7FFFFFFF := by decide
  have hdigits (q : List UInt8) :
      parseIntDigits 0 q = (saturateInt (runValue q), q.dropWhile isDigit) := by
    rw [parseIntDigits_foldl]
    refine Prod.ext ((guardedValue_eq hguard mem_digits).trans ?_) rfl
    rw [saturateInt, runValue]
    congr 1
    exact propext Nat.lt_succ_iff.symm
  rw [Checked.atParseInt_unsigned]
  dsimp only
  rw [hdigits]
  rfl

/-! ## Exactness -/

/-- `at__parse_uint` returns the number in the text, cut at `UINT32_MAX`, and consumes
exactly its digits. -/
def UintExact (m : List UInt8) : Prop :=
  Checked.atParseUint (Checked.cursor m) =
    .ok (UInt32.ofNat (min (runValue m) 0xFFFFFFFF), Checked.cursor (m.dropWhile isDigit))

/-- `at__parse_int` returns the integer in the text, clamped to the range of an
`int32_t`, and consumes exactly that integer. No signed operation overflows. -/
def IntExact (m : List UInt8) : Prop :=
  Checked.atParseInt (Checked.cursor m) =
    .ok (max (-0x80000000) (min (intValue m) 0x7FFFFFFF), Checked.cursor (behindInt m))

theorem uintExact_iff (m : List UInt8) :
    UintExact m ↔ runValue m < 4294967290 ∨ 4294967295 ≤ runValue m := by
  rw [UintExact, Checked.atParseUint_cursor, uintDigits_value, saturateUint]
  simp only [Except.ok.injEq, Prod.mk.injEq, and_true]
  rw [← UInt32.toNat_inj, UInt32.toNat_ofNat', UInt32.toNat_ofNat']
  split <;> omega

theorem intExact_iff (m : List UInt8) :
    IntExact m ↔
      (-2147483640 < intValue m ∧ intValue m < 2147483640) ∨ 2147483647 ≤ intValue m ∨
        intValue m = -2147483647 := by
  rw [IntExact, Checked.atParseInt_cursor, atParseInt_value, intValue, saturateInt]
  simp only [Except.ok.injEq, Prod.mk.injEq, and_true]
  split <;> split <;> omega

/-! ## Reading back -/

/-- What `AB_U32` writes into any array, where it fits, is parsed to the same value. -/
def U32Back (v : UInt32) : Prop :=
  ∀ arr : List UInt8, 0 < arr.length → ((Ab.init arr).u32 v.toNat).ok = true →
    Checked.atParseUint (Checked.cursor ((Ab.init arr).u32 v.toNat).done) =
      .ok (v, Checked.cursor [])

/-- What `AB_I32` writes into any array, where it fits, is parsed to the same value. -/
def I32Back (v : Int32) : Prop :=
  ∀ arr : List UInt8, 0 < arr.length → ((Ab.init arr).i32 v).ok = true →
    Checked.atParseInt (Checked.cursor ((Ab.init arr).i32 v).done) =
      .ok (v.toInt, Checked.cursor [])

theorem takeWhile_decimal (v : Nat) : (decimal v).takeWhile isDigit = decimal v :=
  List.takeWhile_eq_self_iff.mpr fun b hb => by
    have := mem_decimal hb
    simpa [isDigit, UInt8.le_iff_toNat_le] using this

theorem dropWhile_decimal (v : Nat) : (decimal v).dropWhile isDigit = [] :=
  List.dropWhile_eq_nil_iff.mpr fun b hb => by
    have := mem_decimal hb
    simpa [isDigit, UInt8.le_iff_toNat_le] using this

theorem runValue_decimal (v : Nat) : runValue (decimal v) = v := by
  rw [runValue, takeWhile_decimal, digitsValue_decimal]

/-- A chain that is good hands out its content. -/
theorem cursor_done {arr content : List UInt8} {b : Ab} (h : Ab.Spec arr content b)
    (hok : b.ok = true) (h0 : (0 : UInt8) ∉ content) :
    Checked.cursor b.done = Checked.cursor content := by
  rw [Checked.cursor, Checked.cursor, h.done hok h0, cstr_eq_self h0]

theorem u32Back_iff (v : UInt32) : U32Back v ↔ v.toNat < 4294967290 ∨ v.toNat = 4294967295 := by
  have hv := v.toNat_lt
  have hparse := uintExact_iff (decimal v.toNat)
  rw [UintExact, runValue_decimal, dropWhile_decimal, Nat.min_eq_left (Nat.le_of_lt_succ hv),
    UInt32.ofNat_toNat] at hparse
  have hlimit : 4294967295 ≤ v.toNat ↔ v.toNat = 4294967295 := by omega
  rw [← hlimit, ← hparse]
  have hspec (arr : List UInt8) (harr : 0 < arr.length) :=
    (Ab.Spec.init harr).u32 (v := v.toNat) hv
  refine ⟨fun h => ?_, fun h arr harr hok => ?_⟩
  · -- an array in which every value fits
    have hlong := (length_decimal (k := 10) (by decide) (Nat.lt_trans hv (by decide))).2
    have harr : 0 < (List.replicate 11 (0 : UInt8)).length := by decide
    have hok := (hspec _ harr).ok_iff.mpr (Nat.lt_succ_of_le hlong)
    rw [← h _ harr hok, cursor_done (hspec _ harr) hok (zero_notMem_decimal _)]
    rfl
  · rw [cursor_done (hspec arr harr) hok (zero_notMem_decimal _)]
    exact h

/-- A numeral begins with a digit. -/
theorem decimal_cons (v : Nat) :
    ∃ b m, decimal v = b :: m ∧ 48 ≤ b.toNat ∧ b.toNat ≤ 57 := by
  have hlt : v < 10 ^ (v + 1) := (Nat.lt_succ_self v).trans (Nat.lt_pow_self (by decide))
  have hpos := (length_decimal (Nat.succ_pos v) hlt).1
  obtain ⟨b, m, hd⟩ := List.exists_cons_of_length_pos hpos
  exact ⟨b, m, hd, mem_decimal (hd ▸ List.mem_cons_self)⟩

/-- A numeral without a sign is the integer that it spells. -/
theorem intValue_decimal (v : Nat) : intValue (decimal v) = v ∧ behindInt (decimal v) = [] := by
  obtain ⟨b, m, hd, hb⟩ := decimal_cons v
  have hblank : ¬(b == 32 || b == 9) = true := by
    simp only [Bool.or_eq_true, beq_iff_eq, not_or]
    constructor <;> rintro rfl <;> exact absurd hb.1 (by decide)
  have hskip : skipBlanks (decimal v) = decimal v := by
    rw [skipBlanks, hd, List.dropWhile_cons, if_neg hblank]
  have hminus : (decimal v).headD 0 ≠ 45 := by
    rw [hd]
    rintro rfl
    exact absurd hb.1 (by decide)
  have hplus : (decimal v).headD 0 ≠ 43 := by
    rw [hd]
    rintro rfl
    exact absurd hb.1 (by decide)
  have hsign : Checked.unsigned (decimal v) = decimal v := if_neg (not_or.mpr ⟨hminus, hplus⟩)
  rw [intValue, behindInt, hskip, if_neg hminus, hsign, runValue_decimal, dropWhile_decimal]
  exact ⟨rfl, rfl⟩

/-- A numeral behind a minus is the negative integer. -/
theorem intValue_minus (v : Nat) :
    intValue (45 :: decimal v) = -v ∧ behindInt (45 :: decimal v) = [] := by
  have hskip : skipBlanks (45 :: decimal v) = 45 :: decimal v := rfl
  have hsign : Checked.unsigned (45 :: decimal v) = decimal v := rfl
  rw [intValue, behindInt, hskip, hsign, runValue_decimal, dropWhile_decimal]
  exact ⟨rfl, rfl⟩

/-- What `AB_I32` writes is the integer. -/
theorem intValue_text (v : Int32) :
    intValue (AbItem.text (.i32 v)) = v.toInt ∧ behindInt (AbItem.text (.i32 v)) = [] := by
  rw [AbItem.text]
  split
  · obtain ⟨hvalue, hbehind⟩ := intValue_minus v.toInt.natAbs
    exact ⟨hvalue.trans (by omega), hbehind⟩
  · obtain ⟨hvalue, hbehind⟩ := intValue_decimal v.toInt.toNat
    exact ⟨hvalue.trans (by omega), hbehind⟩

theorem length_text_i32 (v : Int32) : (AbItem.text (.i32 v)).length ≤ 11 := by
  have hmin := v.le_toInt
  have hmax := v.toInt_lt
  rw [AbItem.text]
  split
  · exact Nat.succ_le_succ (length_decimal (k := 10) (by decide) (by omega)).2
  · exact Nat.le_succ_of_le (length_decimal (k := 10) (by decide) (by omega)).2

theorem i32Back_iff (v : Int32) :
    I32Back v ↔
      (-2147483640 < v.toInt ∧ v.toInt < 2147483640) ∨ v.toInt = 2147483647 ∨
        v.toInt = -2147483647 := by
  have hmin := v.le_toInt
  have hmax := v.toInt_lt
  have h0 : (0 : UInt8) ∉ AbItem.text (.i32 v) := AbItem.zero_notMem_text (by simp)
  obtain ⟨hvalue, hbehind⟩ := intValue_text v
  have hparse := intExact_iff (AbItem.text (.i32 v))
  have hclamp : max (-0x80000000) (min v.toInt 0x7FFFFFFF) = v.toInt := by omega
  rw [IntExact, hvalue, hbehind, hclamp] at hparse
  have hlimit : 2147483647 ≤ v.toInt ↔ v.toInt = 2147483647 := by omega
  rw [← hlimit, ← hparse]
  have hspec (arr : List UInt8) (harr : 0 < arr.length) := (Ab.Spec.init harr).i32 v
  refine ⟨fun h => ?_, fun h arr harr hok => ?_⟩
  · -- an array in which every value fits
    have harr : 0 < (List.replicate 12 (0 : UInt8)).length := by decide
    have hok := (hspec _ harr).ok_iff.mpr (Nat.lt_succ_of_le (length_text_i32 v))
    rw [← h _ harr hok, cursor_done (hspec _ harr) hok h0]
    rfl
  · rw [cursor_done (hspec arr harr) hok h0]
    exact h

/-- **Where the integer parsers saturate exactly, and numbers are read back.** The limit
itself is right, and so is everything but the few values next to it whose last digit the
guard does not wait for; below the negative limit nothing is. -/
theorem integerParsers_exact_iff (m : List UInt8) (v : UInt32) (w : Int32) :
    (UintExact m ↔ runValue m < 4294967290 ∨ 4294967295 ≤ runValue m) ∧
    (IntExact m ↔ (-2147483640 < intValue m ∧ intValue m < 2147483640) ∨
      2147483647 ≤ intValue m ∨ intValue m = -2147483647) ∧
    (U32Back v ↔ v.toNat < 4294967290 ∨ v.toNat = 4294967295) ∧
    (I32Back w ↔ (-2147483640 < w.toInt ∧ w.toInt < 2147483640) ∨
      w.toInt = 2147483647 ∨ w.toInt = -2147483647) :=
  ⟨uintExact_iff m, intExact_iff m, u32Back_iff v, i32Back_iff w⟩

/-- Values next to the limits: `4294967294`, `2147483646`, and the smallest `int32_t`. -/
theorem integerParsers_inexact :
    ¬UintExact (ascii "4294967294") ∧ ¬IntExact (ascii "2147483646") ∧
      ¬IntExact (ascii "-2147483648") ∧ ¬U32Back 4294967294 ∧ ¬I32Back (-2147483648) := by
  rw [uintExact_iff, intExact_iff, intExact_iff, u32Back_iff, i32Back_iff]
  decide

end LibAt
