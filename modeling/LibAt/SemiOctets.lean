import LibAt.Pdu

/-!
# Addresses in semi-octets

`encode_address` subtracts `'0'` from each character and keeps four bits of the
result (`nibble`), two characters an octet. `halves` takes the octets apart again
(`halves_encodeAddress`), and `readDigits` reads digits from them. The two fields
of a PDU that hold an address each have a reader that returns what follows them:
`readSmsc` and `readDa`, and both give the digits of the address back
(`readSmsc_smscField`, `readDa_daField`).
-/

namespace LibAt

/-! ## Half octets -/

/-- What is left of a character. -/
def nibble (c : UInt8) : UInt8 := (c - 48) &&& 0x0F

/-- The half octets, low half first. -/
def halves (l : List UInt8) : List UInt8 := l.flatMap fun b => [b &&& 0x0F, b >>> 4]

/-- Half octet `j` of `len` digits: behind them stands F. -/
def halfAt (number : List UInt8) (len j : Nat) : UInt8 :=
  if j < len then nibble (number.getD j 0) else 0x0F

theorem halfAt_lt (number : List UInt8) (len j : Nat) : (halfAt number len j).toNat < 16 := by
  have hmask (x : UInt8) : (x &&& 0x0F).toNat < 16 := by
    rw [UInt8.toNat_and]
    exact Nat.lt_of_le_of_lt Nat.and_le_right (by decide)
  rw [halfAt]
  split
  · exact hmask _
  · decide

/-- Two half octets put together are taken apart again. -/
theorem unpack_octet {lo hi : UInt8} (hlo : lo.toNat < 16) (hhi : hi.toNat < 16) :
    ((hi <<< 4) ||| lo) &&& 0x0F = lo ∧ ((hi <<< 4) ||| lo) >>> 4 = hi := by
  -- all pairs of half octets
  have hall : ∀ i j : Fin 16,
      ((UInt8.ofNat i <<< 4) ||| UInt8.ofNat j) &&& 0x0F = UInt8.ofNat j ∧
        ((UInt8.ofNat i <<< 4) ||| UInt8.ofNat j) >>> 4 = UInt8.ofNat i := by decide +kernel
  have h := hall ⟨hi.toNat, hhi⟩ ⟨lo.toNat, hlo⟩
  simpa only [UInt8.ofNat_toNat] using h

theorem bcdOctets_eq (number : List UInt8) (len : Nat) :
    bcdOctets number len = (List.range ((len + 1) / 2)).map fun i =>
      (halfAt number len (2 * i + 1) <<< 4) ||| halfAt number len (2 * i) := by
  rw [bcdOctets]
  refine List.map_congr_left fun i hi => ?_
  have hlo : 2 * i < len := by
    have := List.mem_range.mp hi
    omega
  rw [halfAt, halfAt, if_pos hlo]
  rfl

theorem flatMap_range_pair {α : Type} (f : Nat → α) (n : Nat) :
    (List.range n).flatMap (fun i => [f (2 * i), f (2 * i + 1)]) = (List.range (2 * n)).map f := by
  induction n with
  | zero => rfl
  | succ n ih =>
    rw [List.range_succ, List.flatMap_append, ih, Nat.mul_succ, List.range_succ, List.range_succ]
    simp

/-- The half octets of the BCD digits. -/
theorem halves_bcdOctets_range (number : List UInt8) (len : Nat) :
    halves (bcdOctets number len) =
      (List.range (2 * ((len + 1) / 2))).map (halfAt number len) := by
  rw [bcdOctets_eq, halves, List.flatMap_map, ← flatMap_range_pair]
  refine List.flatMap_congr fun i _ => ?_
  obtain ⟨hlo, hhi⟩ := unpack_octet (halfAt_lt number len (2 * i)) (halfAt_lt number len (2 * i + 1))
  rw [hlo, hhi]

/-- **Each character leaves a half octet**, and an odd one out is filled with F. -/
theorem halves_bcdOctets {number : List UInt8} {len : Nat} (h : len ≤ number.length) :
    halves (bcdOctets number len) =
      (number.take len).map nibble ++ List.replicate (len % 2) 0x0F := by
  rw [halves_bcdOctets_range, show 2 * ((len + 1) / 2) = len + len % 2 by omega, List.range_add,
    List.map_append]
  congr 1
  · refine List.ext_getElem (by simp; omega) fun i hi _ => ?_
    have hi' : i < len := by simpa using hi
    simp [halfAt, hi', Nat.lt_of_lt_of_le hi' h]
  · refine List.ext_getElem (by simp) fun i _ _ => ?_
    simp [halfAt]

/-! ## Digits -/

/-- The characters that half octets stand for: F is none of them. -/
def digitChar (d : UInt8) : UInt8 := (ascii "0123456789*#abc").getD d.toNat 0

/-- Read `n` characters from half octets, of which an odd number is filled with
F. -/
def readDigits (n : Nat) (hs : List UInt8) : Option (List UInt8) :=
  if (hs.take n).length = n ∧ (hs.take n).all (· ≤ 14) = true ∧
      hs.drop n = List.replicate (n % 2) 0x0F then
    some ((hs.take n).map digitChar)
  else none

/-- The characters that `encode_address` encodes as what they are. -/
def isAddressChar (c : UInt8) : Bool := isDigit c || c == 42

theorem digitChar_nibble_iff (c : UInt8) : digitChar (nibble c) = c ↔ isAddressChar c = true := by
  -- all 256 characters
  have hall : ∀ i : Fin 256, digitChar (nibble (UInt8.ofFin i)) = UInt8.ofFin i ↔
      isAddressChar (UInt8.ofFin i) = true := by decide +kernel
  exact hall c.toFin

theorem nibble_le {c : UInt8} (h : isAddressChar c = true) : nibble c ≤ 14 := by
  -- all 256 characters
  have hall : ∀ i : Fin 256, isAddressChar (UInt8.ofFin i) = true →
      nibble (UInt8.ofFin i) ≤ 14 := by decide +kernel
  exact hall c.toFin h

theorem map_digitChar_nibble_iff (number : List UInt8) :
    (number.map nibble).map digitChar = number ↔ number.all isAddressChar = true := by
  rw [List.map_map]
  conv_lhs => rhs; rw [← List.map_id number]
  rw [List.map_inj_left, List.all_eq_true]
  exact forall₂_congr fun c _ => digitChar_nibble_iff c

theorem readDigits_bcdOctets {number : List UInt8} (h : number.all isAddressChar = true) :
    readDigits number.length (halves (bcdOctets number number.length)) = some number := by
  have hhalves := halves_bcdOctets (Nat.le_refl number.length)
  rw [List.take_length] at hhalves
  have htake : (halves (bcdOctets number number.length)).take number.length =
      number.map nibble := by
    rw [hhalves, List.take_left' (List.length_map _)]
  have hdrop : (halves (bcdOctets number number.length)).drop number.length =
      List.replicate (number.length % 2) 0x0F := by
    rw [hhalves, List.drop_left' (List.length_map _)]
  rw [readDigits, htake, hdrop, if_pos, (map_digitChar_nibble_iff number).mpr h]
  refine ⟨List.length_map _, List.all_eq_true.mpr fun d hd => ?_, rfl⟩
  obtain ⟨c, hc, rfl⟩ := List.mem_map.mp hd
  exact decide_eq_true (nibble_le (List.all_eq_true.mp h c hc))

/-- The characters of an address behind one `+`. -/
def digitsOf (number : List UInt8) : List UInt8 := cstr (skipPlus number)

/-- Before them stands nothing, or the `+`. -/
theorem cstr_eq_digitsOf (number : List UInt8) :
    cstr number = digitsOf number ∨ cstr number = 43 :: digitsOf number := by
  rw [digitsOf]
  unfold skipPlus
  split
  · exact .inr (cstr_cons (by decide) _)
  · exact .inl rfl

theorem encodeAddress_eq {number : List UInt8} (h : strlen (skipPlus number) ≤ 20) :
    encodeAddress number = 0x91 :: bcdOctets (digitsOf number) (digitsOf number).length := by
  have hlen : ¬(cstr (skipPlus number)).length > 20 := Nat.not_lt.mpr h
  rw [encodeAddress, if_neg hlen]
  rfl

/-! ## The fields of a PDU -/

/-- Read an SMSC field, and return the digits and what follows: a zero octet, or
the number of octets, the type and the digits, of which F is not one. -/
def readSmsc : List UInt8 → Option (List UInt8 × List UInt8)
  | [] => none
  | n :: o =>
    if n = 0 then some ([], o)
    else
      match o.take n.toNat with
      | type :: bcd =>
        let hs := halves bcd
        let count := if hs.getLast? = some 0x0F then hs.length - 1 else hs.length
        if type = 0x91 ∧ bcd.length + 1 = n.toNat then
          (readDigits count hs).map fun digits => (digits, o.drop n.toNat)
        else none
      | [] => none

/-- Read a destination address, and return the digits and what follows: the number
of digits, the type, and the digits. -/
def readDa : List UInt8 → Option (List UInt8 × List UInt8)
  | n :: type :: o =>
    if type = 0x91 then
      (readDigits n.toNat (halves (o.take ((n.toNat + 1) / 2)))).map fun digits =>
        (digits, o.drop ((n.toNat + 1) / 2))
    else none
  | _ => none

/-- **The destination address is read back.** -/
theorem readDa_daField {number : List UInt8} (hlen : strlen (skipPlus number) ≤ 20)
    (h : (digitsOf number).all isAddressChar = true) (rest : List UInt8) :
    readDa (daField number ++ rest) = some (digitsOf number, rest) := by
  have hn : (UInt8.ofNat (strlen (skipPlus number))).toNat = (digitsOf number).length := by
    rw [UInt8.toNat_ofNat', Nat.mod_eq_of_lt (by omega)]
    rfl
  have hbcd : (bcdOctets (digitsOf number) (digitsOf number).length).length =
      ((digitsOf number).length + 1) / 2 := by simp [bcdOctets]
  rw [daField, encodeAddress_eq hlen]
  simp only [List.cons_append, readDa, hn, if_true]
  rw [List.take_left' hbcd, List.drop_left' hbcd, readDigits_bcdOctets h,
    Option.map_some]

theorem digitsOf_eq_nil {number : List UInt8} (h : cstr number = []) : digitsOf number = [] := by
  obtain _ | ⟨c, number⟩ := number
  · rfl
  · obtain rfl : c = 0 := by
      by_contra hc
      rw [cstr_cons hc] at h
      cases h
    rfl

/-- The number of digits is seen from the last half octet. -/
theorem count_halves {number : List UInt8} (h : number.all isAddressChar = true) :
    (if (halves (bcdOctets number number.length)).getLast? = some 0x0F then
      (halves (bcdOctets number number.length)).length - 1
    else (halves (bcdOctets number number.length)).length) = number.length := by
  have hhalves := halves_bcdOctets (Nat.le_refl number.length)
  rw [List.take_length] at hhalves
  rw [hhalves]
  rcases Nat.mod_two_eq_zero_or_one number.length with hev | hodd
  · rw [hev, List.replicate_zero, List.append_nil, if_neg, List.length_map]
    intro hlast
    obtain ⟨c, hc, hF⟩ := List.mem_map.mp (List.mem_of_getLast? hlast)
    have hle := nibble_le (List.all_eq_true.mp h c hc)
    rw [hF] at hle
    exact absurd hle (by decide)
  · rw [hodd, List.replicate_one, List.getLast?_concat, if_pos rfl, List.length_append,
      List.length_map]
    rfl

/-- **The SMSC field is read back.** -/
theorem readSmsc_smscField {smsc : Option (List UInt8)}
    (hlen : strlen (skipPlus (smsc.getD [])) ≤ 20)
    (h : (digitsOf (smsc.getD [])).all isAddressChar = true) (rest : List UInt8) :
    readSmsc (smscField smsc ++ rest) = some (digitsOf (smsc.getD []), rest) := by
  rw [smscField]
  split
  · rename_i hnil
    rw [digitsOf_eq_nil hnil]
    rfl
  · have haddr := length_encodeAddress (smsc.getD [])
    have hn : (UInt8.ofNat (encodeAddress (smsc.getD [])).length).toNat =
        (encodeAddress (smsc.getD [])).length := by
      rw [UInt8.toNat_ofNat', Nat.mod_eq_of_lt (by omega)]
    have hn0 : UInt8.ofNat (encodeAddress (smsc.getD [])).length ≠ 0 := by
      intro h0
      rw [h0, haddr] at hn
      have hz : UInt8.toNat 0 = 0 := rfl
      omega
    simp only [List.cons_append, readSmsc, if_neg hn0, hn]
    rw [List.take_left' rfl, List.drop_left' rfl]
    rw [encodeAddress_eq hlen]
    simp only [List.length_cons, true_and, if_true]
    rw [count_halves h, readDigits_bcdOctets h, Option.map_some]

end LibAt
