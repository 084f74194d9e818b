import LibAt.Decimal

/-!
# A name and numerals

Text of the form `NAME=1,2,3`: a name without digits, and behind it numerals
separated by commas. It can be read back (`readLine_line`), because the name ends
where the first digit is and no numeral contains a comma. So two such texts are the
same only if the name and the numbers are.
-/

namespace LibAt

/-- Numerals separated by commas. -/
def numerals (vs : List Nat) : List UInt8 := [44].intercalate (vs.map decimal)

/-- The numbers of such a list. -/
def readNumerals (m : List UInt8) : List Nat :=
  if m = [] then [] else (m.splitOn 44).map digitsValue

/-- Not a decimal digit. -/
def noDigit (b : UInt8) : Bool := !decide (48 ≤ b.toNat ∧ b.toNat ≤ 57)

/-- The name a text begins with, and the numbers behind it. -/
def readLine (m : List UInt8) : List UInt8 × List Nat :=
  (m.takeWhile noDigit, readNumerals (m.dropWhile noDigit))

theorem decimal_ne_nil (v : Nat) : decimal v ≠ [] :=
  List.ne_nil_of_length_pos (length_decimal (k := v + 1) (by omega)
    ((Nat.lt_pow_self (by decide)).trans (Nat.pow_lt_pow_right (by decide) (by omega)))).1

theorem comma_notMem_decimal (v : Nat) : (44 : UInt8) ∉ decimal v := fun h => by
  have := (mem_decimal h).1
  simp at this

@[simp] theorem numerals_nil : numerals [] = [] := rfl

@[simp] theorem numerals_singleton (v : Nat) : numerals [v] = decimal v := by
  simp [numerals, List.intercalate]

theorem numerals_cons_cons (v u : Nat) (vs : List Nat) :
    numerals (v :: u :: vs) = decimal v ++ 44 :: numerals (u :: vs) := by
  simp [numerals, List.intercalate]

/-- A list of numerals begins with a digit. -/
theorem numerals_eq_cons (v : Nat) (vs : List Nat) :
    ∃ b m, numerals (v :: vs) = b :: m ∧ noDigit b = false := by
  obtain ⟨b, m, hbm⟩ := List.exists_cons_of_ne_nil (decimal_ne_nil v)
  have hb : noDigit b = false := by
    have hdigit := mem_decimal (v := v) (b := b) (by simp [hbm])
    simpa [noDigit] using hdigit
  cases vs with
  | nil => exact ⟨b, m, by rw [numerals_singleton, hbm], hb⟩
  | cons u vs => exact ⟨b, _, by rw [numerals_cons_cons, hbm, List.cons_append], hb⟩

/-- Numerals are read back. -/
theorem readNumerals_numerals (vs : List Nat) : readNumerals (numerals vs) = vs := by
  cases vs with
  | nil => rfl
  | cons v vs =>
    obtain ⟨b, m, hbm, -⟩ := numerals_eq_cons v vs
    rw [readNumerals, if_neg (by simp [hbm]), numerals, List.splitOn_intercalate]
    · simp [Function.comp_def, digitsValue_decimal]
    · intro l hl
      obtain ⟨u, -, rfl⟩ := List.mem_map.mp hl
      exact comma_notMem_decimal u
    · simp

/-- **A name and numerals are read back.** -/
theorem readLine_line {name : List UInt8} (hname : name.all noDigit = true) (vs : List Nat) :
    readLine (name ++ numerals vs) = (name, vs) := by
  have hall : ∀ b ∈ name, noDigit b = true := List.all_eq_true.mp hname
  rw [readLine, List.takeWhile_append_of_pos hall, List.dropWhile_append_of_pos hall]
  cases vs with
  | nil => simp [readNumerals]
  | cons v vs =>
    obtain ⟨b, m, hbm, hb⟩ := numerals_eq_cons v vs
    rw [hbm, List.takeWhile_cons_of_neg (by simp [hb]), List.dropWhile_cons_of_neg (by simp [hb]),
      ← hbm, readNumerals_numerals, List.append_nil]

/-- The bytes of numerals are digits and commas. -/
theorem mem_numerals {vs : List Nat} {b : UInt8} (h : b ∈ numerals vs) :
    b = 44 ∨ 48 ≤ b.toNat ∧ b.toNat ≤ 57 := by
  induction vs with
  | nil => simp at h
  | cons v vs ih =>
    cases vs with
    | nil => exact .inr (mem_decimal (by simpa using h))
    | cons u vs =>
      rw [numerals_cons_cons] at h
      rcases List.mem_append.mp h with h | h
      · exact .inr (mem_decimal h)
      · rcases List.mem_cons.mp h with rfl | h
        · exact .inl rfl
        · exact ih h

/-- Numerals of bytes are short. -/
theorem length_numerals_lt {vs : List Nat} (hne : vs ≠ []) (hvs : ∀ v ∈ vs, v < 256) :
    (numerals vs).length < 4 * vs.length := by
  have hone (v : Nat) (hv : v < 256) : (decimal v).length ≤ 3 :=
    (length_decimal (k := 3) (by decide) (Nat.lt_of_lt_of_le hv (by decide))).2
  induction vs with
  | nil => exact absurd rfl hne
  | cons v vs ih =>
    obtain ⟨hv, hvs⟩ := List.forall_mem_cons.mp hvs
    have h3 := hone v hv
    cases vs with
    | nil =>
      rw [numerals_singleton, List.length_singleton]
      omega
    | cons u vs =>
      have ih := ih (List.cons_ne_nil u vs) hvs
      rw [numerals_cons_cons, List.length_append, List.length_cons]
      simp only [List.length_cons] at ih ⊢
      omega

end LibAt
