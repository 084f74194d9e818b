import LibAt.Readings

/-!
# Which timestamps are accepted

`at_parse_scts` is documented to accept `yy/MM/dd,hh:mm:ss±zz`. It goes through the
string field by field and does not look whether there is anything behind the last one.
`Stamp` is a timestamp whose fields are in range, and `Stamp.text` the string that stands
for it; `readScts` is what the parser reads, as a function of the string.

- `readScts_iff`: the parser reads a stamp exactly from the strings that begin with its
  text, when what is behind the text could not be a time zone of it.
- `exactScts_iff`: it accepts exactly the texts of stamps, if there is nothing behind.
-/

namespace LibAt

/-! ## Stamps -/

/-- Two decimal digits. -/
def twoText (v : Nat) : List UInt8 := [asciiDigit (v / 10), asciiDigit (v % 10)]

/-- The sign and the digits of a time zone. -/
def zoneText : Option (Bool × Nat) → List UInt8
  | none => []
  | some (neg, v) => (if neg then 45 else 43) :: twoText v

/-- The offset, 0 without a time zone. -/
def zoneOffset : Option (Bool × Nat) → Int
  | none => 0
  | some (neg, v) => if neg then -v else v

/-- A timestamp with its fields in range; the time zone is a sign and a number of quarters
of an hour. -/
structure Stamp where
  year : Nat
  month : Nat
  day : Nat
  hour : Nat
  minute : Nat
  second : Nat
  zone : Option (Bool × Nat)
  year_lt : year < 100
  month_in : 1 ≤ month ∧ month ≤ 12
  day_in : 1 ≤ day ∧ day ≤ 31
  hour_le : hour ≤ 23
  minute_le : minute ≤ 59
  second_le : second ≤ 59
  zone_le : ∀ z ∈ zone, z.2 ≤ 48

namespace Stamp

/-- The canonical form. -/
def text (s : Stamp) : List UInt8 :=
  twoText s.year ++ 47 :: (twoText s.month ++ 47 :: (twoText s.day ++ 44 :: (twoText s.hour ++
    58 :: (twoText s.minute ++ 58 :: (twoText s.second ++ zoneText s.zone)))))

/-- The fields as `at_scts_t` has them. -/
def value (s : Stamp) : Scts where
  year := UInt8.ofNat s.year
  month := UInt8.ofNat s.month
  day := UInt8.ofNat s.day
  hour := UInt8.ofNat s.hour
  minute := UInt8.ofNat s.minute
  second := UInt8.ofNat s.second
  tzQuarter := Int8.ofInt (zoneOffset s.zone)

end Stamp

/-! ## Reading -/

/-- Two digits at the start of a text. -/
def twoDigits : List UInt8 → Option (Nat × List UInt8)
  | a :: b :: m =>
    if isDigit a && isDigit b then some ((a.toNat - 48) * 10 + (b.toNat - 48), m) else none
  | _ => none

/-- A field with a range. -/
def fieldIn (lo hi : Nat) (m : List UInt8) : Option (Nat × List UInt8) :=
  (twoDigits m).filter fun x => lo ≤ x.1 && x.1 ≤ hi

/-- The text behind a character. -/
def behindChar (c : UInt8) (m : List UInt8) : Option (List UInt8) :=
  if m.headD 0 = c then some (m.drop 1) else none

/-- The time zone at the end of a timestamp. -/
def readZone (m : List UInt8) : Option Int8 :=
  if m.headD 0 = 43 ∨ m.headD 0 = 45 then
    (fieldIn 0 48 (m.drop 1)).map fun x =>
      Int8.ofInt ((if m.headD 0 = 43 then 1 else -1) * (x.1 : Int))
  else some 0

/-- What `at_parse_scts` reads. -/
def readScts (m : List UInt8) : Option Scts := do
  let year ← twoDigits m
  let m ← behindChar 47 year.2
  let month ← fieldIn 1 12 m
  let m ← behindChar 47 month.2
  let day ← fieldIn 1 31 m
  let m ← behindChar 44 day.2
  let hour ← fieldIn 0 23 m
  let m ← behindChar 58 hour.2
  let minute ← fieldIn 0 59 m
  let m ← behindChar 58 minute.2
  let second ← fieldIn 0 59 m
  let zone ← readZone second.2
  return ⟨.ofNat year.1, .ofNat month.1, .ofNat day.1, .ofNat hour.1, .ofNat minute.1,
    .ofNat second.1, zone⟩

theorem isDigit_iff (b : UInt8) : isDigit b = true ↔ 48 ≤ b.toNat ∧ b.toNat ≤ 57 := by
  simp [isDigit, UInt8.le_iff_toNat_le]

theorem asciiDigit_sub {b : UInt8} (hb : isDigit b = true) : asciiDigit (b.toNat - 48) = b := by
  have hb := (isDigit_iff b).mp hb
  rw [← UInt8.toNat_inj, asciiDigit_toNat (by omega)]
  omega

/-- Two digits are read back. -/
theorem twoDigits_twoText {v : Nat} (hv : v < 100) (m : List UInt8) :
    twoDigits (twoText v ++ m) = some (v, m) := by
  have hhigh : (asciiDigit (v / 10)).toNat = 48 + v / 10 := asciiDigit_toNat (by omega)
  have hlow : (asciiDigit (v % 10)).toNat = 48 + v % 10 := asciiDigit_toNat (by omega)
  have hdigits : (isDigit (asciiDigit (v / 10)) && isDigit (asciiDigit (v % 10))) = true := by
    rw [Bool.and_eq_true, isDigit_iff, isDigit_iff, hhigh, hlow]
    omega
  rw [twoText, List.cons_append, List.cons_append, List.nil_append, twoDigits, if_pos hdigits,
    hhigh, hlow]
  congr 2
  omega

theorem twoDigits_iff {v : Nat} {m q : List UInt8} :
    twoDigits m = some (v, q) ↔ v < 100 ∧ m = twoText v ++ q := by
  constructor
  · intro h
    match m with
    | [] => cases h
    | [a] => cases h
    | a :: b :: m =>
      rw [twoDigits] at h
      split at h
      · rename_i hab
        rw [Bool.and_eq_true] at hab
        obtain ⟨rfl, rfl⟩ := Prod.mk.inj (Option.some.inj h)
        have ha := (isDigit_iff a).mp hab.1
        have hb := (isDigit_iff b).mp hab.2
        have hhigh : ((a.toNat - 48) * 10 + (b.toNat - 48)) / 10 = a.toNat - 48 := by omega
        have hlow : ((a.toNat - 48) * 10 + (b.toNat - 48)) % 10 = b.toNat - 48 := by omega
        refine ⟨by omega, ?_⟩
        rw [twoText, hhigh, hlow, asciiDigit_sub hab.1, asciiDigit_sub hab.2]
        rfl
      · cases h
  · rintro ⟨hv, rfl⟩
    exact twoDigits_twoText hv q

/-- **A field is its two digits.** -/
theorem fieldIn_iff {lo hi v : Nat} {m q : List UInt8} (hhi : hi < 100) :
    fieldIn lo hi m = some (v, q) ↔ (lo ≤ v ∧ v ≤ hi) ∧ m = twoText v ++ q := by
  rw [fieldIn, Option.filter_eq_some_iff, Bool.and_eq_true, decide_eq_true_iff,
    decide_eq_true_iff, and_comm, twoDigits_iff]
  refine and_congr_right fun hv => and_iff_right ?_
  exact Nat.lt_of_le_of_lt hv.2 hhi

theorem behindChar_iff {c : UInt8} (hc : c ≠ 0) {m q : List UInt8} :
    behindChar c m = some q ↔ m = c :: q := by
  rw [behindChar]
  cases m with
  | nil => simp [hc.symm]
  | cons b m =>
    rw [List.headD_cons, List.drop_succ_cons, List.drop_zero, List.cons.injEq]
    split <;> simp_all

/-- A text that does not begin with a sign. -/
def Unsigned (m : List UInt8) : Prop := m.headD 0 ≠ 43 ∧ m.headD 0 ≠ 45

/-- **A time zone** is a sign and two digits, and missing where there is no sign. -/
theorem readZone_iff {m : List UInt8} {z : Int8} :
    readZone m = some z ↔ ∃ zone q, (∀ x ∈ zone, x.2 ≤ 48) ∧ m = zoneText zone ++ q ∧
      z = Int8.ofInt (zoneOffset zone) ∧ (zone = none → Unsigned q) := by
  rw [readZone]
  constructor
  · intro h
    by_cases hsign : m.headD 0 = 43 ∨ m.headD 0 = 45
    · rw [if_pos hsign] at h
      obtain ⟨⟨v, q⟩, hv, rfl⟩ := Option.map_eq_some_iff.mp h
      obtain ⟨hv, hm⟩ := (fieldIn_iff (by decide)).mp hv
      refine ⟨some (decide (m.headD 0 = 45), v), q, ?_, ?_, ?_, by simp⟩
      · rintro x ⟨⟩
        exact hv.2
      · rw [zoneText, List.cons_append, ← hm]
        cases m with
        | nil => simp at hsign
        | cons b m =>
          rw [List.headD_cons] at hsign ⊢
          rcases hsign with rfl | rfl <;> rfl
      · rw [zoneOffset]
        rcases hsign with h43 | h45
        · rw [h43, if_pos rfl, if_neg (by decide), Int.one_mul]
        · rw [h45, if_neg (by decide), if_pos (by decide), Int.neg_one_mul]
    · rw [if_neg hsign] at h
      refine ⟨none, m, by simp, rfl, (Option.some.inj h).symm, fun _ => ?_⟩
      exact ⟨fun h => hsign (.inl h), fun h => hsign (.inr h)⟩
  · rintro ⟨_ | ⟨neg, v⟩, q, hzone, rfl, rfl, hq⟩
    · obtain ⟨h43, h45⟩ := hq rfl
      rw [if_neg (not_or.mpr ⟨h43, h45⟩)]
      rfl
    · have hv : fieldIn 0 48 (twoText v ++ q) = some (v, q) :=
        (fieldIn_iff (by decide)).mpr ⟨⟨Nat.zero_le _, hzone _ rfl⟩, rfl⟩
      rw [zoneText, List.cons_append, List.headD_cons, List.drop_succ_cons, List.drop_zero, hv,
        Option.map_some, zoneOffset]
      cases neg <;> simp

/-- **A stamp is read** from its text, with anything behind it that could not be its time
zone. -/
theorem readScts_iff {m : List UInt8} {v : Scts} :
    readScts m = some v ↔ ∃ (s : Stamp) (tail : List UInt8), m = s.text ++ tail ∧ v = s.value ∧
      (s.zone = none → Unsigned tail) := by
  constructor
  · intro h
    rw [readScts] at h
    obtain ⟨⟨year, m₁⟩, ryear, h⟩ := Option.bind_eq_some_iff.mp h
    obtain ⟨m₂, hm₂, h⟩ := Option.bind_eq_some_iff.mp h
    obtain ⟨⟨month, m₃⟩, rmonth, h⟩ := Option.bind_eq_some_iff.mp h
    obtain ⟨m₄, hm₄, h⟩ := Option.bind_eq_some_iff.mp h
    obtain ⟨⟨day, m₅⟩, rday, h⟩ := Option.bind_eq_some_iff.mp h
    obtain ⟨m₆, hm₆, h⟩ := Option.bind_eq_some_iff.mp h
    obtain ⟨⟨hour, m₇⟩, rhour, h⟩ := Option.bind_eq_some_iff.mp h
    obtain ⟨m₈, hm₈, h⟩ := Option.bind_eq_some_iff.mp h
    obtain ⟨⟨minute, m₉⟩, rminute, h⟩ := Option.bind_eq_some_iff.mp h
    obtain ⟨m₁₀, hm₁₀, h⟩ := Option.bind_eq_some_iff.mp h
    obtain ⟨⟨second, m₁₁⟩, rsecond, h⟩ := Option.bind_eq_some_iff.mp h
    obtain ⟨z, hz, h⟩ := Option.bind_eq_some_iff.mp h
    obtain ⟨hyear, rfl⟩ := twoDigits_iff.mp ryear
    obtain rfl := (behindChar_iff (by decide)).mp hm₂
    obtain ⟨hmonth, rfl⟩ := (fieldIn_iff (by decide)).mp rmonth
    obtain rfl := (behindChar_iff (by decide)).mp hm₄
    obtain ⟨hday, rfl⟩ := (fieldIn_iff (by decide)).mp rday
    obtain rfl := (behindChar_iff (by decide)).mp hm₆
    obtain ⟨hhour, rfl⟩ := (fieldIn_iff (by decide)).mp rhour
    obtain rfl := (behindChar_iff (by decide)).mp hm₈
    obtain ⟨hminute, rfl⟩ := (fieldIn_iff (by decide)).mp rminute
    obtain rfl := (behindChar_iff (by decide)).mp hm₁₀
    obtain ⟨hsecond, rfl⟩ := (fieldIn_iff (by decide)).mp rsecond
    obtain ⟨zone, tail, hzone, rfl, rfl, htail⟩ := readZone_iff.mp hz
    refine ⟨⟨year, month, day, hour, minute, second, zone, hyear, hmonth, hday, hhour.2,
      hminute.2, hsecond.2, hzone⟩, tail, ?_, (Option.some.inj h).symm, htail⟩
    simp [Stamp.text]
  · rintro ⟨s, tail, rfl, rfl, htail⟩
    have hzone : readZone (zoneText s.zone ++ tail) = some (Int8.ofInt (zoneOffset s.zone)) :=
      readZone_iff.mpr ⟨s.zone, tail, s.zone_le, rfl, rfl, htail⟩
    have hmonth (q : List UInt8) : fieldIn 1 12 (twoText s.month ++ q) = some (s.month, q) :=
      (fieldIn_iff (by decide)).mpr ⟨s.month_in, rfl⟩
    have hday (q : List UInt8) : fieldIn 1 31 (twoText s.day ++ q) = some (s.day, q) :=
      (fieldIn_iff (by decide)).mpr ⟨s.day_in, rfl⟩
    have hhour (q : List UInt8) : fieldIn 0 23 (twoText s.hour ++ q) = some (s.hour, q) :=
      (fieldIn_iff (by decide)).mpr ⟨⟨Nat.zero_le _, s.hour_le⟩, rfl⟩
    have hminute (q : List UInt8) : fieldIn 0 59 (twoText s.minute ++ q) = some (s.minute, q) :=
      (fieldIn_iff (by decide)).mpr ⟨⟨Nat.zero_le _, s.minute_le⟩, rfl⟩
    have hsecond (q : List UInt8) : fieldIn 0 59 (twoText s.second ++ q) = some (s.second, q) :=
      (fieldIn_iff (by decide)).mpr ⟨⟨Nat.zero_le _, s.second_le⟩, rfl⟩
    have hchar (c : UInt8) (q : List UInt8) : behindChar c (c :: q) = some q := if_pos rfl
    simp only [readScts, Stamp.text, List.append_assoc, List.cons_append, Option.bind_eq_bind,
      Option.bind_some, twoDigits_twoText s.year_lt, hchar, hmonth, hday, hhour, hminute, hsecond,
      hzone]
    rfl

/-! ## The parser -/

namespace Checked

/-- The run returns what is read: `true` with that in the output, or `false`. -/
def Tells (x : M (Bool × Option Scts)) (o : Option Scts) : Prop :=
  ∃ t, x = .ok (o.isSome, some t) ∧ ∀ v ∈ o, t = v

theorem tells_false (t : Scts) : Tells (pure (false, some t)) none :=
  ⟨t, rfl, fun _ hv => by cases hv⟩

theorem tells_true (t : Scts) : Tells (pure (true, some t)) (some t) :=
  ⟨t, rfl, fun _ hv => Option.some.inj hv⟩

theorem digit_bounds {b : UInt8} (h : ¬b - 48 > 9) : 48 ≤ b.toNat ∧ b.toNat ≤ 57 := by
  have hle : (b - 48).toNat ≤ 9 := UInt8.le_iff_toNat_le.mp (UInt8.not_lt.mp h)
  have hb := b.toNat_lt
  rw [UInt8.toNat_sub] at hle
  change (2 ^ 8 - 48 + b.toNat) % 2 ^ 8 ≤ 9 at hle
  omega

theorem sub_gt_iff (b : UInt8) : b - 48 > 9 ↔ isDigit b = false := by
  rw [← Bool.not_eq_true, isDigit_iff]
  constructor
  · intro h hb
    have hsub : (b - 48).toNat = b.toNat - 48 :=
      UInt8.toNat_sub_of_le b 48 (UInt8.le_iff_toNat_le.mpr hb.1)
    have hlt : 9 < (b - 48).toNat := UInt8.lt_iff_toNat_lt.mp h
    omega
  · intro h
    by_contra hle
    exact h (digit_bounds hle)

theorem parseSctsField_eq (m : List UInt8) :
    parseSctsField (cursor m) =
      .ok ((twoDigits m).map fun x => (UInt8.ofNat x.1, cursor x.2)) := by
  rw [parseSctsField, deref_cursor, ok_bind]
  cases m with
  | nil => rfl
  | cons a m =>
    rw [List.headD_cons]
    cases ha : isDigit a with
    | false =>
      rw [if_pos ((sub_gt_iff a).mpr ha)]
      cases m with
      | nil => rfl
      | cons b m =>
        rw [twoDigits, ha]
        rfl
    | true =>
      have haa := (isDigit_iff a).mp ha
      have hpos : (a :: m).headD 0 ≠ 0 := ne_zero_of_digit haa
      rw [if_neg (by rw [sub_gt_iff, ha]; simp), advance_cursor (strlen_pos hpos), ok_bind,
        deref_cursor, ok_bind, List.drop_succ_cons, List.drop_zero]
      cases m with
      | nil => rfl
      | cons b m =>
        rw [List.headD_cons]
        cases hb : isDigit b with
        | false =>
          rw [if_pos ((sub_gt_iff b).mpr hb), twoDigits, ha, hb]
          rfl
        | true =>
          have hbb := (isDigit_iff b).mp hb
          have htwo : 2 ≤ LibAt.strlen (a :: b :: m) := by
            rw [LibAt.strlen, cstr_cons (ne_zero_of_digit haa), cstr_cons (ne_zero_of_digit hbb),
              List.length_cons, List.length_cons]
            omega
          have hvalue : (((a.toNat : Int) - 48) * 10 + ((b.toNat : Int) - 48)).toNat =
              (a.toNat - 48) * 10 + (b.toNat - 48) := by omega
          rw [if_neg (by rw [sub_gt_iff, hb]; simp), int32_eq (by omega), ok_bind,
            int32_eq (by omega), ok_bind, advance_cursor htwo, ok_bind, twoDigits, ha, hb, hvalue]
          rfl

theorem expect_eq {c : UInt8} (hc : c ≠ 0) (m : List UInt8) :
    expect c (cursor m) = .ok ((behindChar c m).map cursor) := by
  rw [expect, deref_cursor, ok_bind, behindChar]
  by_cases hm : m.headD 0 = c
  · rw [advance_cursor (strlen_pos (hm ▸ hc)), ok_bind, if_neg (not_not.mpr hm), if_pos hm]
    rfl
  · have hpos : 1 ≤ (cursor m).length := by
      rw [length_cursor]
      exact Nat.le_add_left _ _
    rw [advance_eq hpos, ok_bind, if_pos hm, if_neg hm]
    rfl

variable {k : UInt8 → List UInt8 → M (Bool × Option Scts)} {fail : M (Bool × Option Scts)}
  {f : Nat × List UInt8 → Option Scts} {m : List UInt8}

/-- A field, and what follows. -/
theorem tells_field (hfail : Tells fail none)
    (hk : ∀ v q, Tells (k (.ofNat v) (cursor q)) (f (v, q))) :
    Tells (do
      let some (v, q) ← parseSctsField (cursor m) | fail
      k v q) (twoDigits m >>= f) := by
  rw [parseSctsField_eq, ok_bind]
  rcases twoDigits m with _ | ⟨v, q⟩
  · exact hfail
  · exact hk v q

/-- A field with a range, and what follows. -/
theorem tells_fieldIn {lo hi : Nat} {out : UInt8 → Prop} [DecidablePred out]
    {refuse : UInt8 → M (Bool × Option Scts)} (hfail : Tells fail none)
    (hout : ∀ v, v < 100 → (out (.ofNat v) ↔ ¬(lo ≤ v ∧ v ≤ hi)))
    (hrefuse : ∀ b, Tells (refuse b) none)
    (hk : ∀ v q, Tells (k (.ofNat v) (cursor q)) (f (v, q))) :
    Tells (do
      let some (v, q) ← parseSctsField (cursor m) | fail
      if out v then refuse v else k v q) (fieldIn lo hi m >>= f) := by
  rw [parseSctsField_eq, ok_bind, fieldIn]
  rcases hm : twoDigits m with _ | ⟨v, q⟩
  · exact hfail
  · have hv := (twoDigits_iff.mp hm).1
    rw [Option.filter_some, Option.map_some]
    dsimp only
    by_cases hin : lo ≤ v ∧ v ≤ hi
    · rw [if_neg (by rw [hout v hv]; exact not_not.mpr hin), if_pos (by simpa using hin)]
      exact hk v q
    · rw [if_pos ((hout v hv).mpr hin), if_neg (by simpa using hin)]
      exact hrefuse _

/-- A character that must come next. -/
theorem tells_char {c : UInt8} (hc : c ≠ 0) {k : List UInt8 → M (Bool × Option Scts)}
    {f : List UInt8 → Option Scts} (hfail : Tells fail none)
    (hk : ∀ q, Tells (k (cursor q)) (f q)) :
    Tells (do
      let some q ← expect c (cursor m) | fail
      k q) (behindChar c m >>= f) := by
  rw [expect_eq hc, ok_bind]
  cases behindChar c m with
  | none => exact hfail
  | some q => exact hk q

theorem ofNat_toNat {v : Nat} (hv : v < 100) : (UInt8.ofNat v).toNat = v := by
  rw [UInt8.toNat_ofNat']
  omega

/-- The tests of a range, in octets. -/
theorem out_iff (lo hi : UInt8) {v : Nat} (hv : v < 100) :
    (UInt8.ofNat v < lo ∨ UInt8.ofNat v > hi) ↔ ¬(lo.toNat ≤ v ∧ v ≤ hi.toNat) := by
  rw [gt_iff_lt, UInt8.lt_iff_toNat_lt, UInt8.lt_iff_toNat_lt, ofNat_toNat hv]
  omega

theorem above_iff (hi : UInt8) {v : Nat} (hv : v < 100) :
    UInt8.ofNat v > hi ↔ ¬(0 ≤ v ∧ v ≤ hi.toNat) := by
  rw [gt_iff_lt, UInt8.lt_iff_toNat_lt, ofNat_toNat hv]
  omega

theorem sctsZone_eq (m : List UInt8) : sctsZone (cursor m) = .ok (readZone m) := by
  rw [sctsZone, deref_cursor, ok_bind, readZone]
  by_cases hsign : m.headD 0 = 43 ∨ m.headD 0 = 45
  · have hpos : m.headD 0 ≠ 0 := by
      rcases hsign with h | h <;> rw [h] <;> decide
    rw [if_pos hsign, if_pos hsign, advance_cursor (strlen_pos hpos), ok_bind, parseSctsField_eq,
      ok_bind, fieldIn]
    rcases hm : twoDigits (m.drop 1) with _ | ⟨v, q⟩
    · rfl
    · have hv := (twoDigits_iff.mp hm).1
      have hfilter : Option.filter (fun x : Nat × List UInt8 => 0 ≤ x.1 && x.1 ≤ 48) (some (v, q)) =
          if v ≤ 48 then some (v, q) else none := by
        rw [Option.filter_some]
        simp
      have hsign : (if m.headD 0 = 43 then (1 : Int) else -1) = 1 ∨
          (if m.headD 0 = 43 then (1 : Int) else -1) = -1 := by
        split
        · exact .inl rfl
        · exact .inr rfl
      rw [hfilter, Option.map_some]
      dsimp only
      by_cases hin : v ≤ 48
      · have hsmall : (UInt8.ofNat v).toInt8.toInt = (v : Int) := by
          change (BitVec.ofNat 8 v).toInt = v
          rw [BitVec.toInt_eq_toNat_bmod, BitVec.toNat_ofNat, Nat.mod_eq_of_lt (by omega)]
          exact Int.bmod_eq_of_le (by omega) (by omega)
        rw [if_neg (by rw [above_iff _ hv]; exact not_not.mpr ⟨Nat.zero_le _, hin⟩), hsmall,
          int32_eq (by rcases hsign with h | h <;> rw [h] <;> omega), ok_bind, if_pos hin]
        rfl
      · rw [if_pos ((above_iff 48 hv).mpr fun h => hin h.2), if_neg hin]
        rfl
  · rw [if_neg hsign, if_neg hsign]
    rfl

/-- **`at_parse_scts`** returns what is read from the string. -/
theorem atParseScts_tells (str : List UInt8) (t : Scts) :
    Tells (atParseScts (some str) (some t)) (readScts str) := by
  refine tells_field (tells_false _) fun year q => ?_
  refine tells_char (by decide) (tells_false _) fun q => ?_
  refine tells_fieldIn (tells_false _) (fun _ => out_iff 1 12) (fun _ => tells_false _)
    fun month q => ?_
  refine tells_char (by decide) (tells_false _) fun q => ?_
  refine tells_fieldIn (tells_false _) (fun _ => out_iff 1 31) (fun _ => tells_false _)
    fun day q => ?_
  refine tells_char (by decide) (tells_false _) fun q => ?_
  refine tells_fieldIn (tells_false _) (fun _ => above_iff 23) (fun _ => tells_false _)
    fun hour q => ?_
  refine tells_char (by decide) (tells_false _) fun q => ?_
  refine tells_fieldIn (tells_false _) (fun _ => above_iff 59) (fun _ => tells_false _)
    fun minute q => ?_
  refine tells_char (by decide) (tells_false _) fun q => ?_
  refine tells_fieldIn (tells_false _) (fun _ => above_iff 59) (fun _ => tells_false _)
    fun second q => ?_
  rw [sctsZone_eq, ok_bind]
  cases readZone q with
  | none => exact tells_false _
  | some zone => exact tells_true _

/-- It returns `true` with what is read, and only then. -/
theorem accepted_iff {str : List UInt8} {t v : Scts} :
    atParseScts (some str) (some t) = .ok (true, some v) ↔ readScts str = some v := by
  obtain ⟨t', hrun, ht'⟩ := atParseScts_tells str t
  rw [hrun]
  cases hread : readScts str with
  | none => simp
  | some v' =>
    rw [ht' v' hread]
    simp

end Checked

/-! ## The canonical form -/

/-- A timestamp in canonical form. -/
def sctsText (v : Scts) : List UInt8 :=
  twoText v.year.toNat ++ 47 :: (twoText v.month.toNat ++ 47 :: (twoText v.day.toNat ++
    44 :: (twoText v.hour.toNat ++ 58 :: (twoText v.minute.toNat ++ 58 ::
      (twoText v.second.toNat ++
        zoneText (some (decide (v.tzQuarter.toInt < 0), v.tzQuarter.toInt.natAbs)))))))

theorem zoneOffset_le {zone : Option (Bool × Nat)} (h : ∀ z ∈ zone, z.2 ≤ 48) :
    (zoneOffset zone).natAbs ≤ 48 := by
  rcases zone with _ | ⟨neg, v⟩
  · exact Nat.zero_le _
  · have hv := h _ rfl
    rw [zoneOffset]
    cases neg <;> simpa using hv

/-- The stamp with the same fields and a time zone, whether there was one or not. -/
def Stamp.canonical (s : Stamp) : Stamp :=
  { s with
    zone := some (decide (zoneOffset s.zone < 0), (zoneOffset s.zone).natAbs)
    zone_le := by
      rintro z ⟨⟩
      exact zoneOffset_le s.zone_le }

theorem Stamp.canonical_value (s : Stamp) : s.canonical.value = s.value := by
  have hzone : zoneOffset s.canonical.zone = zoneOffset s.zone := by
    change (if decide (zoneOffset s.zone < 0) = true then _ else _) = _
    split
    · rename_i hneg
      have := of_decide_eq_true hneg
      omega
    · rename_i hpos
      have := of_decide_eq_false (Bool.eq_false_of_not_eq_true hpos)
      omega
  rw [Stamp.value, hzone]
  rfl

/-- The canonical form of its fields is the text of a stamp. -/
theorem Stamp.canonical_text (s : Stamp) : s.canonical.text = sctsText s.value := by
  have hoffset : (Int8.ofInt (zoneOffset s.zone)).toInt = zoneOffset s.zone := by
    have := zoneOffset_le s.zone_le
    rw [Int8.toInt_ofInt]
    have hsize : Int8.size = 256 := rfl
    exact Int.bmod_eq_of_le (by omega) (by omega)
  have hday := s.day_in
  have hmonth := s.month_in
  have hhour := s.hour_le
  have hminute := s.minute_le
  have hsecond := s.second_le
  rw [sctsText, Stamp.value]
  dsimp only
  rw [hoffset, Checked.ofNat_toNat s.year_lt, Checked.ofNat_toNat (by omega),
    Checked.ofNat_toNat (by omega), Checked.ofNat_toNat (by omega), Checked.ofNat_toNat (by omega),
    Checked.ofNat_toNat (by omega)]
  rfl

/-! ## Exactness -/

/-- `at_parse_scts` accepts this string exactly when it is the text of a stamp, with the
stamp's fields, and reads the canonical form of an accepted one back. -/
structure ExactScts (str : List UInt8) : Prop where
  accepts : ∀ t v, Checked.atParseScts (some str) (some t) = .ok (true, some v) ↔
    ∃ s : Stamp, cstr str = s.text ∧ v = s.value
  returns : ∀ t, ∃ b v, Checked.atParseScts (some str) (some t) = .ok (b, some v)
  again : ∀ t v, Checked.atParseScts (some str) (some t) = .ok (true, some v) →
    ∀ t', Checked.atParseScts (some (sctsText v)) (some t') = .ok (true, some v)

/-- If the string begins with the text of a stamp, there is nothing behind it, or a sign
where the stamp has no time zone. -/
def NothingBehind (str : List UInt8) : Prop :=
  ∀ (s : Stamp) (tail : List UInt8), cstr str = s.text ++ tail →
    tail = [] ∨ (s.zone = none ∧ ¬Unsigned tail)

/-- A string, and what its memory holds behind it. -/
theorem cstr_split (mem : List UInt8) : ∃ rest, mem = cstr mem ++ rest ∧ rest.headD 0 = 0 := by
  refine ⟨mem.dropWhile (· != 0), (List.takeWhile_append_dropWhile ..).symm, ?_⟩
  induction mem with
  | nil => rfl
  | cons b mem ih =>
    rw [List.dropWhile_cons]
    split
    · exact ih
    · rename_i hb
      simpa using hb

theorem headD_cstr (mem : List UInt8) : (cstr mem).headD 0 = mem.headD 0 := by
  cases mem with
  | nil => rfl
  | cons b mem =>
    by_cases hb : b = 0
    · rw [hb, cstr_cons_zero]
      rfl
    · rw [cstr_cons hb]
      rfl

theorem Stamp.length_text (s : Stamp) : s.text.length = 17 + (zoneText s.zone).length := by
  simp only [Stamp.text, twoText, List.length_append, List.length_cons, List.length_nil]
  omega

theorem length_zoneText (zone : Option (Bool × Nat)) :
    (zoneText zone).length = if zone.isSome then 3 else 0 := by
  rcases zone with _ | ⟨neg, v⟩ <;> rfl

/-- No text of a stamp begins with that of another, but for the time zone. -/
theorem Stamp.text_append {s s' : Stamp} {tail : List UInt8} (h : s.text ++ tail = s'.text) :
    tail = [] ∨ (s.zone = none ∧ ¬Unsigned tail) := by
  have hlen := congrArg List.length h
  rw [List.length_append, s.length_text, s'.length_text, length_zoneText, length_zoneText] at hlen
  cases hz : s.zone with
  | some z =>
    rw [hz] at hlen
    refine .inl (List.length_eq_zero_iff.mp ?_)
    simp only [Option.isSome_some, if_true] at hlen
    split at hlen <;> omega
  | none =>
    have hdrop := congrArg (List.drop 17) h
    have hlong : s.text.length = 17 := by rw [s.length_text, hz]; rfl
    rw [List.drop_append_of_le_length (by omega), List.drop_of_length_le (by omega)] at hdrop
    have htail : tail = zoneText s'.zone := hdrop
    rcases hz' : s'.zone with _ | ⟨neg, v⟩
    · rw [hz'] at htail
      exact .inl htail
    · rw [hz'] at htail
      refine .inr ⟨rfl, fun hun => ?_⟩
      rw [htail] at hun
      cases neg
      · exact hun.1 rfl
      · exact hun.2 rfl

theorem Stamp.zero_notMem_text (s : Stamp) : (0 : UInt8) ∉ s.text := by
  have htwo {v : Nat} (hv : v < 100) : (0 : UInt8) ∉ twoText v := by
    have hdigit {d : Nat} (hd : d < 10) : (0 : UInt8) ≠ asciiDigit d := by
      intro h
      have := congrArg UInt8.toNat h
      rw [asciiDigit_toNat hd] at this
      change 0 = 48 + d at this
      omega
    simp only [twoText, List.mem_cons, List.not_mem_nil, or_false, not_or]
    exact ⟨hdigit (by omega), hdigit (by omega)⟩
  have hzone : (0 : UInt8) ∉ zoneText s.zone := by
    rcases hz : s.zone with _ | ⟨neg, v⟩
    · exact List.not_mem_nil
    · have hv := s.zone_le _ hz
      rw [zoneText, List.mem_cons, not_or]
      refine ⟨?_, htwo (by omega)⟩
      cases neg <;> decide
  have hday := s.day_in
  have hmonth := s.month_in
  have hhour := s.hour_le
  have hminute := s.minute_le
  have hsecond := s.second_le
  simp [Stamp.text, htwo s.year_lt, htwo (v := s.month) (by omega), htwo (v := s.day) (by omega),
    htwo (v := s.hour) (by omega), htwo (v := s.minute) (by omega),
    htwo (v := s.second) (by omega), hzone]

theorem nothingBehind_of_exact {str : List UInt8} (h : ExactScts str) : NothingBehind str := by
  intro s tail hstr
  by_contra hno
  rw [not_or] at hno
  obtain ⟨rest, hsplit, hrest⟩ := cstr_split str
  -- the parser reads the stamp, and does not see the tail
  have hread : readScts str = some s.value := by
    refine readScts_iff.mpr ⟨s, tail ++ rest, ?_, rfl, fun hz => ?_⟩
    · rw [← List.append_assoc, ← hstr]
      exact hsplit
    · obtain ⟨b, q, rfl⟩ := List.exists_cons_of_ne_nil hno.1
      exact not_not.mp fun hun => hno.2 ⟨hz, hun⟩
  obtain ⟨s', hs', -⟩ := (h.accepts s.value s.value).mp (Checked.accepted_iff.mpr hread)
  rw [not_or.symm] at hno
  exact hno (Stamp.text_append (hstr.symm.trans hs'))

theorem exact_of_nothingBehind {str : List UInt8} (h : NothingBehind str) : ExactScts str := by
  refine ⟨fun t v => ?_, fun t => ?_, fun t v hv t' => ?_⟩
  · rw [Checked.accepted_iff]
    constructor
    · intro hread
      obtain ⟨s, tail, rfl, rfl, htail⟩ := readScts_iff.mp hread
      have hstr : cstr (s.text ++ tail) = s.text ++ cstr tail := cstr_append s.zero_notMem_text _
      refine ⟨s, ?_, rfl⟩
      rcases h s _ hstr with hnil | ⟨hz, hsigned⟩
      · rw [hstr, hnil, List.append_nil]
      · refine absurd ?_ hsigned
        rw [Unsigned, headD_cstr]
        exact htail hz
    · rintro ⟨s, hs, rfl⟩
      obtain ⟨rest, hsplit, hrest⟩ := cstr_split str
      refine readScts_iff.mpr ⟨s, rest, ?_, rfl, fun _ => ?_⟩
      · rw [← hs]
        exact hsplit
      · rw [Unsigned, hrest]
        decide
  · obtain ⟨t', hrun, -⟩ := Checked.atParseScts_tells str t
    exact ⟨_, t', hrun⟩
  · obtain ⟨s, -, -, rfl, -⟩ := readScts_iff.mp (Checked.accepted_iff.mp hv)
    refine Checked.accepted_iff.mpr (readScts_iff.mpr ⟨s.canonical, [], ?_, ?_, ?_⟩)
    · rw [List.append_nil, s.canonical_text]
    · exact s.canonical_value.symm
    · intro hz
      cases hz

/-- **Which strings `at_parse_scts` is exact on**: those with nothing behind the
timestamp. -/
theorem exactScts_iff (str : List UInt8) : ExactScts str ↔ NothingBehind str :=
  ⟨nothingBehind_of_exact, exact_of_nothingBehind⟩

/-- Letters behind the seconds, and a third digit of the time zone. -/
theorem scts_not_exact :
    ¬ExactScts (ascii "24/03/15,12:30:45xyz") ∧ ¬ExactScts (ascii "24/03/15,12:30:45+041") := by
  constructor
  · intro h
    rcases nothingBehind_of_exact h
      ⟨24, 3, 15, 12, 30, 45, none, by decide, by decide, by decide, by decide, by decide,
        by decide, by simp⟩ (ascii "xyz") (by decide) with h | ⟨-, h⟩
    · exact absurd h (by decide)
    · exact h ⟨by decide, by decide⟩
  · intro h
    rcases nothingBehind_of_exact h
      ⟨24, 3, 15, 12, 30, 45, some (false, 4), by decide, by decide, by decide, by decide,
        by decide, by decide, by simp⟩ (ascii "1") (by decide) with h | ⟨h, -⟩
    · exact absurd h (by decide)
    · cases h

end LibAt
