import Mathlib.Data.List.Basic
import Mathlib.Data.Nat.Bitwise

/-!
# Numbers packed into octets

A sequence of `w`-bit numbers, one behind the other from the low bits up, is a
stream of bits; so is a sequence of octets. `groupBit w gs` and `bitAt l` are
the two streams, both zero behind the end, and `Packed w gs l` says that they
are the same, in no more octets than it takes; the numbers determine the octets
(`Packed.octets_unique`).

`bitAt_modify_or` is the step of a packing loop: what an `|=` on one octet does
to the stream.
-/

namespace LibAt

/-! ## Streams -/

/-- Bit `j` of the numbers, each taken to be `w` bits wide, low bits first. -/
def groupBit (w : Nat) (gs : List Nat) (j : Nat) : Bool := (gs.getD (j / w) 0).testBit (j % w)

/-- Bit `j` of the octets. -/
def bitAt (l : List UInt8) (j : Nat) : Bool := (l.getD (j / 8) 0).toNat.testBit (j % 8)

/-- The first group goes before the others. -/
theorem groupBit_cons {w g : Nat} {gs : List Nat} (hw : 0 < w) (hg : g < 2 ^ w) (j : Nat) :
    groupBit w (g :: gs) j = (g.testBit j || (decide (w ≤ j) && groupBit w gs (j - w))) := by
  by_cases hj : j < w
  · rw [groupBit, Nat.div_eq_of_lt hj, Nat.mod_eq_of_lt hj]
    simp [Nat.not_le.mpr hj]
  · obtain ⟨k, rfl⟩ := Nat.exists_eq_add_of_le' (Nat.not_lt.mp hj)
    have hz : g.testBit (k + w) = false :=
      Nat.testBit_lt_two_pow (Nat.lt_of_lt_of_le hg (Nat.pow_le_pow_right (by decide) (by omega)))
    rw [groupBit, Nat.add_div_right _ hw, Nat.add_mod_right, Nat.add_sub_cancel, hz, groupBit]
    simp

/-- Behind the last group there are only zeros. -/
theorem groupBit_of_le {w : Nat} {gs : List Nat} {j : Nat} (hw : 0 < w)
    (h : w * gs.length ≤ j) : groupBit w gs j = false := by
  have hle : gs.length ≤ j / w := (Nat.le_div_iff_mul_le hw).mpr (by rwa [Nat.mul_comm])
  rw [groupBit, List.getD_eq_default _ _ hle, Nat.zero_testBit]

/-- Bit `k` of number `i` is bit `w * i + k` of the stream. -/
theorem groupBit_add {w : Nat} (gs : List Nat) (i : Nat) {k : Nat} (hk : k < w) :
    groupBit w gs (w * i + k) = (gs.getD i 0).testBit k := by
  rw [groupBit, Nat.mul_add_div (by omega), Nat.div_eq_of_lt hk, Nat.add_zero, Nat.mul_add_mod,
    Nat.mod_eq_of_lt hk]

/-- Octets are groups of eight bits. -/
theorem bitAt_eq_groupBit (l : List UInt8) (j : Nat) :
    bitAt l j = groupBit 8 (l.map UInt8.toNat) j := by
  rw [bitAt, groupBit]
  congr 1
  simp only [List.getD_eq_getElem?_getD, List.getElem?_map]
  cases l[j / 8]? <;> rfl

/-- Behind the last octet there are only zeros. -/
theorem bitAt_of_le {l : List UInt8} {j : Nat} (h : 8 * l.length ≤ j) : bitAt l j = false := by
  rw [bitAt_eq_groupBit]
  exact groupBit_of_le (by decide) (by rwa [List.length_map])

/-- A bit of the octet with the number `i`. -/
theorem bitAt_add (l : List UInt8) (i : Nat) {k : Nat} (hk : k < 8) :
    bitAt l (8 * i + k) = (l.getD i 0).toNat.testBit k := by
  rw [bitAt, Nat.mul_add_div (by decide), Nat.div_eq_of_lt hk, Nat.add_zero, Nat.mul_add_mod,
    Nat.mod_eq_of_lt hk]

/-- The bits of a list come before those of what is appended. -/
theorem bitAt_append_left {l r : List UInt8} {j : Nat} (h : j < 8 * l.length) :
    bitAt (l ++ r) j = bitAt l j := by
  rw [bitAt, bitAt, List.getD_append _ _ _ _ (by omega)]

theorem bitAt_append_right (l r : List UInt8) (j : Nat) :
    bitAt (l ++ r) (8 * l.length + j) = bitAt r j := by
  rw [bitAt, bitAt, Nat.mul_add_div (by decide), Nat.mul_add_mod,
    List.getD_append_right _ _ _ _ (Nat.le_add_right _ _), Nat.add_sub_cancel_left]

theorem bitAt_replicate_zero (n j : Nat) : bitAt (List.replicate n 0) j = false := by
  have hz : (List.replicate n (0 : UInt8)).getD (j / 8) 0 = 0 := by
    rw [List.getD_eq_getElem?_getD, List.getElem?_replicate]
    split <;> rfl
  rw [bitAt, hz]
  exact Nat.zero_testBit _

/-- The bits of the first octets, -/
theorem bitAt_take {l : List UInt8} {n j : Nat} (h : j < 8 * n) :
    bitAt (l.take n) j = bitAt l j := by
  rw [bitAt, bitAt]
  congr 2
  simp only [List.getD_eq_getElem?_getD]
  rw [List.getElem?_take_of_lt (by omega)]

/-- and of those behind them. -/
theorem bitAt_drop (l : List UInt8) (n j : Nat) : bitAt (l.drop n) j = bitAt l (8 * n + j) := by
  rw [bitAt, bitAt, Nat.mul_add_div (by decide), Nat.mul_add_mod]
  simp only [List.getD_eq_getElem?_getD, List.getElem?_drop]

/-- Octets are equal if their bits are. -/
theorem octet_ext {a b : UInt8} (h : ∀ k < 8, a.toNat.testBit k = b.toNat.testBit k) : a = b := by
  refine UInt8.toNat_inj.mp (Nat.eq_of_testBit_eq fun k => ?_)
  by_cases hk : k < 8
  · exact h k hk
  · have hz (c : UInt8) : c.toNat.testBit k = false :=
      Nat.testBit_lt_two_pow (Nat.lt_of_lt_of_le c.toNat_lt
        (Nat.pow_le_pow_right (by decide) (Nat.not_lt.mp hk)))
    rw [hz, hz]

/-- **Octets are determined by their bits.** -/
theorem octets_ext {l l' : List UInt8} (hlen : l.length = l'.length)
    (h : ∀ j, bitAt l j = bitAt l' j) : l = l' := by
  refine List.ext_getElem hlen fun i hi hi' => octet_ext fun k hk => ?_
  have := h (8 * i + k)
  rw [bitAt_add _ _ hk, bitAt_add _ _ hk] at this
  rwa [List.getD_eq_getElem _ _ hi, List.getD_eq_getElem _ _ hi'] at this

/-! ## One step of a packing loop -/

/-- An `|=` on one octet adds its bits to the stream. -/
theorem bitAt_modify_or (l : List UInt8) (i : Nat) (x : UInt8) {j : Nat} (hj : j < 8 * l.length) :
    bitAt (l.modify i (· ||| x)) j =
      (bitAt l j || (decide (j / 8 = i) && x.toNat.testBit (j % 8))) := by
  have hlt : j / 8 < l.length := by omega
  rw [bitAt, bitAt, List.getD_eq_getElem _ _ (by rwa [List.length_modify]),
    List.getD_eq_getElem _ _ hlt, List.getElem_modify]
  by_cases he : i = j / 8
  · simp [he, Nat.testBit_or]
  · simp [he, Ne.symm he]

/-- What is left of an octet that is shifted to the left: the upper bits are lost, -/
theorem testBit_shiftLeft_octet (a : UInt8) {s k : Nat} (hs : s < 8) (hk : k < 8) :
    (a <<< UInt8.ofNat s).toNat.testBit k = (decide (s ≤ k) && a.toNat.testBit (k - s)) := by
  have hs' : (UInt8.ofNat s).toNat = s := by
    rw [UInt8.toNat_ofNat']
    omega
  rw [UInt8.toNat_shiftLeft, hs', Nat.mod_eq_of_lt hs, Nat.testBit_mod_two_pow,
    Nat.testBit_shiftLeft]
  simp [hk]

/-- and to the right. -/
theorem testBit_shiftRight_octet (a : UInt8) {s k : Nat} (hs : s < 8) :
    (a >>> UInt8.ofNat s).toNat.testBit k = a.toNat.testBit (s + k) := by
  have hs' : (UInt8.ofNat s).toNat = s := by
    rw [UInt8.toNat_ofNat']
    omega
  rw [UInt8.toNat_shiftRight, hs', Nat.mod_eq_of_lt hs, Nat.testBit_shiftRight]

/-! ## Packed sequences -/

/-- The octets hold the numbers, `w` bits each, and nothing else. -/
structure Packed (w : Nat) (gs : List Nat) (l : List UInt8) : Prop where
  length : l.length = (w * gs.length + 7) / 8
  bit : ∀ j, bitAt l j = groupBit w gs j

/-- Octets into which groups are packed are no others. -/
theorem Packed.octets_unique {w : Nat} {gs : List Nat} {l l' : List UInt8} (h : Packed w gs l)
    (h' : Packed w gs l') : l = l' :=
  octets_ext (h.length.trans h'.length.symm) fun j => (h.bit j).trans (h'.bit j).symm

end LibAt
