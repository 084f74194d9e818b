import LibAt.CString

/-!
# Hexadecimal text

Octets written as upper-case hexadecimal digits, two a piece (`hexOf`), and
read back (`hexDecode`). Reading the text of `src` gives `src`
(`hexDecode_hexOf`); reading what is left of it after it has been cut gives a
prefix of `src` or nothing (`isPrefix_of_hexDecode_take`).
-/

namespace LibAt

/-- The digit of a value below 16. -/
def hexDigit (d : UInt8) : UInt8 := (ascii "0123456789ABCDEF").getD d.toNat 0

/-- The two digits of an octet, high half first. -/
def hexPair (b : UInt8) : List UInt8 := [hexDigit ((b >>> 4) &&& 0x0F), hexDigit (b &&& 0x0F)]

/-- The text of a list of octets. -/
def hexOf (src : List UInt8) : List UInt8 := src.flatMap hexPair

/-- The value of a digit. -/
def unhexDigit (c : UInt8) : Option UInt8 :=
  if 48 ≤ c ∧ c ≤ 57 then some (c - 48)
  else if 65 ≤ c ∧ c ≤ 70 then some (c - 55)
  else if 97 ≤ c ∧ c ≤ 102 then some (c - 87)
  else none

/-- Read a text of digits, two for each octet. -/
def hexDecode : List UInt8 → Option (List UInt8)
  | [] => some []
  | [_] => none
  | a :: b :: rest =>
    match unhexDigit a, unhexDigit b with
    | some hi, some lo => (hexDecode rest).map ((hi <<< 4 ||| lo) :: ·)
    | _, _ => none

@[simp] theorem hexOf_nil : hexOf [] = [] := rfl

@[simp] theorem hexOf_cons (b : UInt8) (src : List UInt8) :
    hexOf (b :: src) = hexPair b ++ hexOf src := rfl

theorem length_hexOf (src : List UInt8) : (hexOf src).length = 2 * src.length := by
  induction src with
  | nil => rfl
  | cons b src ih =>
    rw [hexOf_cons, List.length_append, ih, List.length_cons]
    simp only [hexPair, List.length_cons, List.length_nil]
    omega

/-- Both digits are read back, and no digit is NUL. -/
theorem hexPair_spec (b : UInt8) :
    hexDecode (hexPair b) = some [b] ∧ (0 : UInt8) ∉ hexPair b := by
  -- all 256 octets
  have hall : ∀ i : Fin 256, hexDecode (hexPair (UInt8.ofFin i)) = some [UInt8.ofFin i] ∧
      (0 : UInt8) ∉ hexPair (UInt8.ofFin i) := by decide +kernel
  exact hall b.toFin

theorem hexDecode_pair (b : UInt8) (rest : List UInt8) :
    hexDecode (hexPair b ++ rest) = (hexDecode rest).map (b :: ·) := by
  have h := (hexPair_spec b).1
  simp only [hexPair, List.cons_append, List.nil_append, hexDecode] at h ⊢
  split at h
  · simp only [Option.map_some, Option.some.injEq, List.cons.injEq, and_true] at h
    rw [h]
  · exact nomatch h

theorem hexDecode_hexOf (src : List UInt8) : hexDecode (hexOf src) = some src := by
  induction src with
  | nil => rfl
  | cons b src ih => rw [hexOf_cons, hexDecode_pair, ih, Option.map_some]

theorem zero_notMem_hexOf (src : List UInt8) : (0 : UInt8) ∉ hexOf src := by
  intro h
  obtain ⟨b, -, hb⟩ := List.mem_flatMap.mp h
  exact (hexPair_spec b).2 hb

/-- What is read from a text that has been cut is the beginning of the octets. -/
theorem isPrefix_of_hexDecode_take (src : List UInt8) :
    ∀ (m : Nat) {l : List UInt8}, hexDecode ((hexOf src).take m) = some l → l <+: src := by
  induction src with
  | nil =>
    intro m l h
    rw [hexOf_nil, List.take_nil] at h
    obtain rfl := Option.some.inj h
    exact List.nil_prefix
  | cons b src ih =>
    intro m l h
    match m with
    | 0 =>
      obtain rfl := Option.some.inj h
      exact List.nil_prefix
    | 1 => exact nomatch h
    | m + 2 =>
      -- the first two digits are there, and what follows them is cut
      have hcut : (hexOf (b :: src)).take (m + 2) = hexPair b ++ (hexOf src).take m := rfl
      rw [hcut, hexDecode_pair] at h
      obtain ⟨l', hl', rfl⟩ := Option.map_eq_some_iff.mp h
      exact (List.prefix_cons_inj b).mpr (ih m hl')

end LibAt
