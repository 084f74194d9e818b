import LibAt.Definedness

/-!
# Numbers in narrow fields

The integer parsers saturate, but at 32 bits; what the response parsers store has 8 or
16. The casts in between do not clamp, they keep the low bits. So a number comes out as
itself when it fits, and as the limit of its field only when it is unsigned and so large
that it has been saturated before (`u8Of_iff`, `i16Of_iff`). That the low bits of a number
happen to be those of the limit makes no clamp of a cast. The signal strength is doubled
first, and has no range check at all (`rssiOf_iff`). Only the error rate of `at_parse_csq`
is compared with its limit before the cast (`berOf_csq`).

With these, the numbers that a response may hold are those for which none is wrapped, in
any of the parsers (`neverWrapped_iff`).
-/

namespace LibAt

/-! ## What a field should hold -/

/-- A number in an 8-bit field: its value, or, for one that is out of range, the limit,
unless that is what is left of it modulo 2^8. -/
def U8Of (v : Nat) (out : UInt8) : Prop :=
  out.toNat = v ∨ (255 < v ∧ out.toNat = 255 ∧ v % 256 ≠ 255)

/-- An integer in a 16-bit field: its value, or, for one that is out of range, the limit on
its side, unless that is what is left of it modulo 2^16. -/
def I16Of (v : Int) (out : Int16) : Prop :=
  out.toInt = v ∨ ((v < -32768 ∨ 32767 < v) ∧ out.toInt = max (-32768) (min v 32767) ∧
    out ≠ Int16.ofInt v)

/-- The bit error rate of `+CSQ`: its value, or 99. -/
def BerOf (v : Nat) (out : UInt8) : Prop := out.toNat = min v 99

/-- The signal strength in dBm: the value that `rssi` stands for, -999 for 99, and for
anything else the largest value or -999, unless that is what is left modulo 2^16. -/
def RssiOf (v : Nat) (out : Int16) : Prop :=
  (v ≤ 31 ∧ out.toInt = -113 + 2 * v) ∨ (v = 99 ∧ out.toInt = -999) ∨
    (31 < v ∧ v ≠ 99 ∧ (out.toInt = -51 ∨ out.toInt = -999) ∧ out ≠ Int16.ofInt (-113 + 2 * v))

/-! ## What the casts keep -/

/-- The numbers that fit, and those that are saturated to something else than what is left
of them. -/
def U8Kept (v : Nat) : Prop := v ≤ 255 ∨ (4294967290 ≤ v ∧ v % 256 ≠ 255)

/-- The integers that fit. -/
def I16Kept (v : Int) : Prop := -32768 ≤ v ∧ v ≤ 32767

/-- The values of `rssi` that have a meaning. -/
def RssiKept (v : Nat) : Prop := v ≤ 31 ∨ v = 99

instance (v : Nat) : Decidable (U8Kept v) := inferInstanceAs (Decidable (_ ∨ _))
instance (v : Int) : Decidable (I16Kept v) := inferInstanceAs (Decidable (_ ∧ _))
instance (v : Nat) : Decidable (RssiKept v) := inferInstanceAs (Decidable (_ ∨ _))

variable (m : List UInt8)

theorem toNat_uintAt : (uintAt m).toNat = saturateUint (runValue m) := by
  have hlt : saturateUint (runValue m) < 4294967296 := by
    rw [saturateUint]
    split <;> omega
  rw [uintAt, UInt32.toNat_ofNat', Nat.mod_eq_of_lt hlt]

theorem intAt_value : intAt m =
    if -2147483640 < intValue m ∧ intValue m < 2147483640 then intValue m
    else if 0 < intValue m then 0x7FFFFFFF else -0x7FFFFFFF := by
  rw [intAt, atParseInt_value, intValue]
  dsimp only
  generalize runValue _ = v
  rw [saturateInt]
  split <;> split <;> split <;> omega

/-- **A cast to `uint8_t`.** -/
theorem u8Of_iff : U8Of (runValue m) (uintAt m).toUInt8 ↔ U8Kept (runValue m) := by
  rw [U8Of, U8Kept, UInt32.toNat_toUInt8, toNat_uintAt, saturateUint]
  split <;> omega

/-- Keeping the low 16 bits of an integer. -/
theorem toInt_low (v : Int) : (Int16.ofInt v).toInt =
    if v % 65536 < 32768 then v % 65536 else v % 65536 - 65536 := by
  rw [Int16.toInt_ofInt, Int.bmod_def]
  rfl

/-- **A cast to `int16_t`.** -/
theorem i16Of_iff : I16Of (intValue m) (Int16.ofInt (intAt m)) ↔ I16Kept (intValue m) := by
  rw [I16Of, I16Kept]
  by_cases hsmall : -2147483640 < intValue m ∧ intValue m < 2147483640
  · have hsame : intAt m = intValue m := by rw [intAt_value, if_pos hsmall]
    rw [toInt_low, hsame]
    simp only [ne_eq, not_true_eq_false, and_false, or_false]
    split <;> omega
  · -- saturated: the low bits are those of -1 or of 1
    rw [toInt_low, intAt_value, if_neg hsmall]
    split <;> omega

/-- The signal strength is computed modulo 2^16. -/
theorem toInt_dbmOf {rssi : UInt32} (h : rssi ≠ 99) :
    (dbmOf rssi).toInt = (Int16.ofInt (-113 + 2 * rssi.toNat)).toInt := by
  have hdouble : (rssi * 2).toUInt16.toInt16.toInt = (2 * rssi.toNat : Int).bmod 65536 := by
    rw [Int16.toInt, UInt16.toBitVec_toInt16, BitVec.toInt_eq_toNat_bmod, UInt16.toNat_toBitVec,
      UInt32.toNat_toUInt16, UInt32.toNat_mul, ← Int.emod_bmod (2 * _)]
    congr 1
    change ((rssi.toNat * 2 % 4294967296 % 65536 : Nat) : Int) = _
    omega
  rw [dbmOf, if_neg h, Int16.toInt_ofInt, Int16.toInt_ofInt, hdouble]
  exact Int.add_bmod_bmod

/-- **The signal strength.** -/
theorem rssiOf_iff : RssiOf (runValue m) (dbmOf (uintAt m)) ↔ RssiKept (runValue m) := by
  have hvalue := toNat_uintAt m
  rw [RssiOf, RssiKept]
  by_cases h99 : uintAt m = 99
  · have hv : runValue m = 99 := by
      rw [h99, saturateUint] at hvalue
      split at hvalue
      · exact hvalue.symm
      · exact absurd hvalue (by decide)
    rw [h99, hv]
    decide
  · have hne : (uintAt m).toNat ≠ 99 := fun h => h99 (UInt32.toNat_inj.mp h)
    have hdbm := Int16.toInt_inj.mp (toInt_dbmOf h99)
    rw [saturateUint] at hvalue
    split at hvalue
    · rw [hdbm, hvalue, toInt_low]
      simp only [ne_eq, not_true_eq_false, and_false, or_false]
      split <;> omega
    · -- saturated: one step below the smallest value
      rw [hdbm, hvalue, toInt_low]
      split <;> omega

/-- The error rate is clamped before the cast. -/
theorem berOf_csq :
    BerOf (runValue m) (if uintAt m > 99 then 99 else (uintAt m).toUInt8) := by
  have hvalue := toNat_uintAt m
  rw [saturateUint] at hvalue
  rw [BerOf]
  split
  · next hbig =>
    have hbig : 99 < (uintAt m).toNat := UInt32.lt_iff_toNat_lt.mp hbig
    change 99 = _
    split at hvalue <;> omega
  · next hsmall =>
    have hsmall : (uintAt m).toNat ≤ 99 := UInt32.le_iff_toNat_le.mp (UInt32.not_lt.mp hsmall)
    rw [UInt32.toNat_toUInt8]
    split at hvalue <;> omega

/-! ## Operator -/

/-- The answer has a format. -/
def copsHasFormat : Bool := hasComma (behindUint m)

/-- The answer has an access technology. -/
def copsHasAct : Bool :=
  hasComma (behindUint m) && hasComma (behindUint (copsFormat m)) &&
    hasComma (behindOper (copsName m))

theorem readCops_numbers (out : Cops) :
    (readCops m out).mode = (uintAt m).toUInt8 ∧
      (readCops m out).format = (if copsHasFormat m then (uintAt (copsFormat m)).toUInt8 else 0) ∧
      (readCops m out).act = if copsHasAct m then (uintAt (copsAct m)).toUInt8 else 0xFF := by
  rw [readCops, copsHasFormat, copsHasAct]
  cases hasComma (behindUint m) with
  | false => exact ⟨rfl, rfl, rfl⟩
  | true =>
    cases hasComma (behindUint (copsFormat m)) with
    | false => exact ⟨rfl, rfl, rfl⟩
    | true =>
      rw [if_pos rfl, if_pos rfl, Bool.true_and, Bool.true_and]
      dsimp only
      exact ⟨rfl, (if_pos rfl).symm, rfl⟩

/-! ## The parsers -/

namespace Checked

/-- What the parsers store when they return `true` is what the fields should hold. A field
that the answer does not have is 0, or 0xFF. -/
structure NeverWrapped (r : Response) : Prop where
  csq : ∀ out v, atParseCsq (some r) out = .ok (true, some v) →
    ∀ m ∈ findValue r (ascii "+CSQ"),
      RssiOf (runValue m) v.rssiDbm ∧ BerOf (runValue (behindComma (behindUint m))) v.ber
  cesq : ∀ out v, atParseCesq (some r) out = .ok (true, some v) →
    ∀ m ∈ findValue r (ascii "+CESQ"),
      I16Of (intValue m) v.rxlev ∧ U8Of (runValue (cesqBer m)) v.ber ∧
        I16Of (intValue (cesqRscp m)) v.rscp ∧ I16Of (intValue (cesqEcno m)) v.ecno ∧
        I16Of (intValue (cesqRsrq m)) v.rsrq ∧ I16Of (intValue (cesqRsrp m)) v.rsrp
  cops : ∀ out v, atParseCops (some r) out = .ok (true, some v) →
    ∀ m ∈ findValue r (ascii "+COPS"),
      U8Of (runValue m) v.mode ∧
        (if copsHasFormat m then U8Of (runValue (copsFormat m)) v.format else v.format = 0) ∧
        (if copsHasAct m then U8Of (runValue (copsAct m)) v.act else v.act = 0xFF)
  smsRead : ∀ stk out v, atParseSmsRead stk (some r) out = .ok (true, some v) →
    ∀ m ∈ smsHeader r, m.headD 0 ≠ 34 → U8Of (runValue m) v.stat
  cmgs : ∀ out v, atParseCmgs (some r) out = .ok (true, some v) →
    ∀ m ∈ findValue r (ascii "+CMGS"), U8Of (runValue m) v

/-- The numbers in the answer survive the casts. -/
structure NumbersKept (r : Response) : Prop where
  csq : ∀ m ∈ findValue r (ascii "+CSQ"), hasComma (behindUint m) = true →
    RssiKept (runValue m)
  cesq : ∀ m ∈ findValue r (ascii "+CESQ"),
    I16Kept (intValue m) ∧ U8Kept (runValue (cesqBer m)) ∧ I16Kept (intValue (cesqRscp m)) ∧
      I16Kept (intValue (cesqEcno m)) ∧ I16Kept (intValue (cesqRsrq m)) ∧
      I16Kept (intValue (cesqRsrp m))
  cops : ∀ m ∈ findValue r (ascii "+COPS"),
    U8Kept (runValue m) ∧ (copsHasFormat m = true → U8Kept (runValue (copsFormat m))) ∧
      (copsHasAct m = true → U8Kept (runValue (copsAct m)))
  smsRead : ∀ m ∈ smsHeader r, m.headD 0 ≠ 34 → U8Kept (runValue m)
  cmgs : ∀ m ∈ findValue r (ascii "+CMGS"), U8Kept (runValue m)

/-! ### From what a parser reads -/

theorem readCsq_of {m : List UInt8} {v : Csq} (h : readCsq m = some v) :
    hasComma (behindUint m) = true ∧ v.rssiDbm = dbmOf (uintAt m) ∧
      BerOf (runValue (behindComma (behindUint m))) v.ber := by
  rw [readCsq] at h
  split at h
  · next hcomma =>
    obtain rfl := Option.some.inj h
    exact ⟨hcomma, rfl, berOf_csq _⟩
  · cases h

theorem readCesq_iff (m : List UInt8) :
    (I16Of (intValue m) (readCesq m).rxlev ∧ U8Of (runValue (cesqBer m)) (readCesq m).ber ∧
      I16Of (intValue (cesqRscp m)) (readCesq m).rscp ∧
      I16Of (intValue (cesqEcno m)) (readCesq m).ecno ∧
      I16Of (intValue (cesqRsrq m)) (readCesq m).rsrq ∧
      I16Of (intValue (cesqRsrp m)) (readCesq m).rsrp) ↔
    I16Kept (intValue m) ∧ U8Kept (runValue (cesqBer m)) ∧ I16Kept (intValue (cesqRscp m)) ∧
      I16Kept (intValue (cesqEcno m)) ∧ I16Kept (intValue (cesqRsrq m)) ∧
      I16Kept (intValue (cesqRsrp m)) := by
  simp only [readCesq, i16Of_iff, u8Of_iff]

theorem readCops_iff (m : List UInt8) (out : Cops) :
    (U8Of (runValue m) (readCops m out).mode ∧
      (if copsHasFormat m then U8Of (runValue (copsFormat m)) (readCops m out).format
        else (readCops m out).format = 0) ∧
      (if copsHasAct m then U8Of (runValue (copsAct m)) (readCops m out).act
        else (readCops m out).act = 0xFF)) ↔
    U8Kept (runValue m) ∧ (copsHasFormat m = true → U8Kept (runValue (copsFormat m))) ∧
      (copsHasAct m = true → U8Kept (runValue (copsAct m))) := by
  obtain ⟨hmode, hformat, hact⟩ := readCops_numbers m out
  have hfield {p : Bool} {q : List UInt8} {c : UInt8} :
      (if p then U8Of (runValue q) (if p then (uintAt q).toUInt8 else c)
        else (if p then (uintAt q).toUInt8 else c) = c) ↔ (p = true → U8Kept (runValue q)) := by
    cases p with
    | false => simp
    | true => simpa using u8Of_iff q
  rw [hmode, hformat, hact, u8Of_iff, hfield, hfield]

theorem stat_iff {m : List UInt8} (hm : m.headD 0 ≠ 34) :
    U8Of (runValue m) (statAt m) ↔ U8Kept (runValue m) := by
  rw [statAt, if_neg hm, u8Of_iff]

variable {r : Response}

/-- **Numbers that survive the casts** are stored as they should be. -/
theorem neverWrapped_of_kept (hr : r.Valid) (h : NumbersKept r) : NeverWrapped r := by
  have hresp : ∀ r' ∈ some r, r'.Valid := by
    rintro r' ⟨⟩
    exact hr
  constructor
  · intro out v hv m hm
    obtain ⟨r', m', hr', -, hm', hread⟩ := csq_read hresp hv
    obtain rfl := Option.some.inj hr'
    obtain rfl := Option.some.inj (hm.symm.trans hm')
    obtain ⟨hcomma, hrssi, hber⟩ := readCsq_of hread
    rw [hrssi]
    exact ⟨(rssiOf_iff m).mpr (h.csq m hm hcomma), hber⟩
  · intro out v hv m hm
    obtain ⟨r', m', hr', -, hm', rfl⟩ := cesq_read hresp hv
    obtain rfl := Option.some.inj hr'
    obtain rfl := Option.some.inj (hm.symm.trans hm')
    exact (readCesq_iff m).mpr (h.cesq m hm)
  · intro out v hv m hm
    obtain ⟨r', m', hr', -, hm', o, rfl⟩ := cops_read hresp hv
    obtain rfl := Option.some.inj hr'
    obtain rfl := Option.some.inj (hm.symm.trans hm')
    exact (readCops_iff m o).mpr (h.cops m hm)
  · intro stk out v hv m hm hnum
    obtain ⟨r', m', hr', -, hm', o, rfl⟩ := sms_read hresp hv
    obtain rfl := Option.some.inj hr'
    obtain rfl := Option.some.inj (hm.symm.trans hm')
    exact (stat_iff hnum).mpr (h.smsRead m hm hnum)
  · intro out v hv m hm
    obtain ⟨r', m', hr', -, hm', rfl⟩ := cmgs_read hresp hv
    obtain rfl := Option.some.inj hr'
    obtain rfl := Option.some.inj (hm.symm.trans hm')
    exact (u8Of_iff m).mpr (h.cmgs m hm)

/-- **Each parser that finds its line returns `true`**, so no other numbers are stored as
they should be. -/
theorem kept_of_neverWrapped (hr : r.Valid) (hs : r.status = .ok) (h : NeverWrapped r) :
    NumbersKept r := by
  constructor
  · intro m hm hcomma
    have hread : readCsq m = some _ := if_pos hcomma
    have hrun := atParseCsq_eq hr hs ⟨0, 0⟩
    rw [show findValue r (ascii "+CSQ") = some m from hm, Option.bind_some, hread] at hrun
    exact (rssiOf_iff m).mp (h.csq _ _ hrun m hm).1
  · intro m hm
    have hrun := atParseCesq_eq hr hs ⟨0, 0, 0, 0, 0, 0⟩
    rw [show findValue r (ascii "+CESQ") = some m from hm, Option.map_some] at hrun
    exact (readCesq_iff m).mp (h.cesq _ _ hrun m hm)
  · intro m hm
    have hrun := atParseCops_eq hr hs ⟨0, 0, Vector.replicate 24 0, 0⟩
    rw [show findValue r (ascii "+COPS") = some m from hm, Option.map_some] at hrun
    exact (readCops_iff m _).mp (h.cops _ _ hrun m hm)
  · intro m hm hnum
    have hrun := atParseSmsRead_eq hr hs Stack.zero filledSms
    rw [show smsHeader r = some m from hm, Option.map_some] at hrun
    exact (stat_iff hnum).mp (h.smsRead _ _ _ hrun m hm hnum)
  · intro m hm
    have hrun := atParseCmgs_eq hr hs 0
    rw [show findValue r (ascii "+CMGS") = some m from hm, Option.map_some] at hrun
    exact (u8Of_iff m).mp (h.cmgs _ _ hrun m hm)

/-- A response that is not successful is not read at all. -/
theorem neverWrapped_of_failed (hs : r.status ≠ .ok) : NeverWrapped r := by
  have hno {α : Type} {out : Option α} {body : Response → α → M (Bool × Option α)} {v : α} :
      withArgs (some r) out body ≠ .ok (true, some v) := by
    intro hv
    obtain ⟨r', o, hr', -, hs'⟩ := withArgs_true hv
    obtain rfl := Option.some.inj hr'
    exact hs hs'
  constructor
  · exact fun out v hv => absurd hv hno
  · exact fun out v hv => absurd hv hno
  · exact fun out v hv => absurd hv hno
  · exact fun stk out v hv => absurd hv hno
  · exact fun out v hv => absurd hv hno

/-- **When no number is wrapped.** -/
theorem neverWrapped_iff (hr : r.Valid) : NeverWrapped r ↔ (r.status = .ok → NumbersKept r) := by
  constructor
  · exact fun h hs => kept_of_neverWrapped hr hs h
  · intro h
    by_cases hs : r.status = .ok
    · exact neverWrapped_of_kept hr (h hs)
    · exact neverWrapped_of_failed hs

/-- A message reference. -/
theorem neverWrapped_iff_reference :
    NeverWrapped ⟨.ok, 0, 1, [ascii "+CMGS: 17"]⟩ ↔
      (AtResult.ok = .ok → NumbersKept ⟨.ok, 0, 1, [ascii "+CMGS: 17"]⟩) :=
  neverWrapped_iff ⟨by decide, by decide⟩

/-- The reference 256 is taken for 0, an `rssi` of 32768 for -113 dBm, and a level of
65536 for 0. -/
theorem numbers_wrapped :
    ¬NeverWrapped ⟨.ok, 0, 1, [ascii "+CMGS: 256"]⟩ ∧
      ¬NeverWrapped ⟨.ok, 0, 1, [ascii "+CSQ: 32768,0"]⟩ ∧
      ¬NeverWrapped ⟨.ok, 0, 1, [ascii "+CESQ: 65536,0,0,0,0,0"]⟩ := by
  refine ⟨fun h => ?_, fun h => ?_, fun h => ?_⟩
  · exact absurd ((kept_of_neverWrapped ⟨by decide, by decide⟩ rfl h).cmgs _ rfl) (by decide)
  · exact absurd ((kept_of_neverWrapped ⟨by decide, by decide⟩ rfl h).csq _ rfl (by decide))
      (by decide)
  · exact absurd ((kept_of_neverWrapped ⟨by decide, by decide⟩ rfl h).cesq _ rfl).1 (by decide)

end Checked

end LibAt
