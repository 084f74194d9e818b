import Mathlib.Data.List.Induction
import Mathlib.Data.Nat.Digits.Defs
import LibAt.CString

/-!
# Decimal numerals

The canonical decimal numeral of a natural number as ASCII bytes, `decimal`:
no leading zeros, `0` for zero. `lsdDigits` is the usual machine loop, which
peels the digits off from the least significant end into a scratch buffer of
bounded size; written backwards it gives the numeral (`lsdDigits_reverse`).

`digitsValue` reads digits back, leading zeros or not. `guardedValue` is the loop
that reads them into a machine word: it looks at the value before each digit, and
past a threshold the result is some top value from then on. It is the value of the
digits up to ten times the threshold and nine, and the top value from there on
(`guardedValue_eq`).
-/

namespace LibAt

/-- The ASCII digit of `d`. -/
def asciiDigit (d : Nat) : UInt8 := UInt8.ofNat (48 + d)

/-- The canonical decimal numeral. -/
def decimal (v : Nat) : List UInt8 :=
  if v = 0 then [48] else ((Nat.digits 10 v).map asciiDigit).reverse

/-- `while (v > 0) { tmp[n++] = '0' + v % 10; v /= 10; }` with room for `fuel`
digits. -/
def lsdDigits : Nat → Nat → List UInt8
  | 0, _ => []
  | fuel + 1, v => if v = 0 then [] else asciiDigit (v % 10) :: lsdDigits fuel (v / 10)

theorem lsdDigits_eq_digits (fuel : Nat) :
    ∀ v, v < 10 ^ fuel → lsdDigits fuel v = (Nat.digits 10 v).map asciiDigit := by
  induction fuel with
  | zero =>
    intro v hv
    obtain rfl : v = 0 := by simpa using hv
    simp [lsdDigits]
  | succ fuel ih =>
    intro v hv
    rcases Nat.eq_zero_or_pos v with rfl | hpos
    · simp [lsdDigits]
    · have hv' : v / 10 < 10 ^ fuel := Nat.div_lt_of_lt_mul (by rwa [Nat.pow_succ'] at hv)
      rw [lsdDigits, if_neg (by omega), Nat.digits_def' (by decide) hpos, List.map_cons,
        ih _ hv']

/-- The scratch digits, written backwards, are the numeral. -/
theorem lsdDigits_reverse {fuel v : Nat} (hv : v < 10 ^ fuel) (h0 : v ≠ 0) :
    (lsdDigits fuel v).reverse = decimal v := by
  rw [lsdDigits_eq_digits fuel v hv, decimal, if_neg h0]

theorem length_lsdDigits_le (fuel : Nat) : ∀ v, (lsdDigits fuel v).length ≤ fuel := by
  induction fuel with
  | zero => intro v; exact Nat.le_refl _
  | succ fuel ih =>
    intro v
    rw [lsdDigits]
    split
    · exact Nat.zero_le _
    · exact Nat.succ_le_succ (ih _)

/-- A number below `10 ^ k` has at most `k` digits, and at least one. -/
theorem length_decimal {k v : Nat} (hk : 0 < k) (hv : v < 10 ^ k) :
    0 < (decimal v).length ∧ (decimal v).length ≤ k := by
  rcases Nat.eq_zero_or_pos v with rfl | hpos
  · exact ⟨Nat.zero_lt_one, hk⟩
  · constructor
    · rw [decimal, if_neg (by omega), List.length_reverse, List.length_map]
      exact List.length_pos_of_ne_nil (Nat.digits_ne_nil_iff_ne_zero.mpr (by omega))
    · rw [← lsdDigits_reverse hv (by omega), List.length_reverse]
      exact length_lsdDigits_le k v

theorem asciiDigit_toNat {d : Nat} (h : d < 10) : (asciiDigit d).toNat = 48 + d := by
  simp only [asciiDigit, UInt8.toNat_ofNat']
  omega

/-- A numeral consists of digits. -/
theorem mem_decimal {v : Nat} {b : UInt8} (h : b ∈ decimal v) : 48 ≤ b.toNat ∧ b.toNat ≤ 57 := by
  rw [decimal] at h
  split at h
  · obtain rfl : b = 48 := by simpa using h
    decide
  · obtain ⟨d, hd, rfl⟩ := List.mem_map.mp (List.mem_reverse.mp h)
    have hlt : d < 10 := Nat.digits_lt_base (by decide) hd
    rw [asciiDigit_toNat hlt]
    omega

/-! ## Reading digits -/

/-- The number that a string of digits spells. -/
def digitsValue (m : List UInt8) : Nat := m.foldl (fun v b => v * 10 + (b.toNat - 48)) 0

/-- `for (v = 0; ...; p++) if (v <= threshold) v = v * 10 + (*p - '0'); else v = top;` -/
def guardedValue (threshold top : Nat) (m : List UInt8) : Nat :=
  m.foldl (fun v b => if v ≤ threshold then v * 10 + (b.toNat - 48) else top) 0

theorem digitsValue_concat (m : List UInt8) (b : UInt8) :
    digitsValue (m ++ [b]) = digitsValue m * 10 + (b.toNat - 48) := by
  rw [digitsValue, List.foldl_append]
  rfl

theorem guardedValue_concat (threshold top : Nat) (m : List UInt8) (b : UInt8) :
    guardedValue threshold top (m ++ [b]) =
      if guardedValue threshold top m ≤ threshold then
        guardedValue threshold top m * 10 + (b.toNat - 48)
      else top := by
  rw [guardedValue, List.foldl_append]
  rfl

/-- **A guarded loop saturates, but too early.** The guard looks at the value before
the digit is known, and so allows for a 9. -/
theorem guardedValue_eq {threshold top : Nat} (htop : threshold < top) {m : List UInt8}
    (hm : ∀ b ∈ m, 48 ≤ b.toNat ∧ b.toNat ≤ 57) :
    guardedValue threshold top m =
      if digitsValue m ≤ threshold * 10 + 9 then digitsValue m else top := by
  induction m using List.reverseRecOn with
  | nil => exact (if_pos (Nat.zero_le _)).symm
  | append_singleton m b ih =>
    have hb : b.toNat - 48 ≤ 9 := by
      have := (hm b (by simp)).2
      omega
    rw [guardedValue_concat, digitsValue_concat, ih fun c hc => hm c (by simp [hc])]
    by_cases hsmall : digitsValue m ≤ threshold
    · have hexact : digitsValue m ≤ threshold * 10 + 9 := by omega
      rw [if_pos hexact, if_pos hsmall, if_pos (by omega)]
    · rw [if_neg (c := digitsValue m * 10 + (b.toNat - 48) ≤ _) (by omega)]
      apply if_neg
      split <;> omega

/-- Reading a numeral back. -/
theorem digitsValue_decimal (v : Nat) : digitsValue (decimal v) = v := by
  have hfold (ds : List Nat) (hds : ∀ d ∈ ds, d < 10) :
      (ds.map asciiDigit).foldr (fun b v => v * 10 + (b.toNat - 48)) 0 = Nat.ofDigits 10 ds := by
    induction ds with
    | nil => rfl
    | cons d ds ih =>
      have hd : d < 10 := hds d (by simp)
      rw [List.map_cons, List.foldr_cons, ih fun e he => hds e (by simp [he]), asciiDigit_toNat hd,
        Nat.ofDigits_cons]
      omega
  rw [decimal]
  split
  · rename_i h0
    rw [h0]
    rfl
  · rw [digitsValue, List.foldl_reverse, hfold _ fun d hd => Nat.digits_lt_base (by decide) hd,
      Nat.ofDigits_digits]

theorem zero_notMem_decimal (v : Nat) : (0 : UInt8) ∉ decimal v := fun h => by
  have := (mem_decimal h).1
  simp at this

end LibAt
