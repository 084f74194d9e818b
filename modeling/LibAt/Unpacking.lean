import LibAt.Faults
import LibAt.Gsm7

/-!
# Where unpacking stays inside its buffers

`at_gsm7_decode` is told how many octets there are and how many characters to read, and
compares the two for the second octet of a character only. The first octet of character
`i` is octet `7 * i / 8`, whether there is one or not. The room for the result is
compared with `n_chars + 1`, a sum of `size_t` that is 0 for the largest `n_chars`.

Here the function is stated with every access checked, for buffers whose sizes are
exactly the arguments. From it,

- `atGsm7Decode_yields_iff`: a run without a fault is one that ends with an error, or has
  the first octet of every character;
- `atGsm7Decode_plain`: inside its buffers it computes what the function without checks does.
-/

namespace LibAt

namespace Checked

/-- `buf[i]`. -/
def load {n : Nat} (buf : Vector UInt8 n) (i : Nat) : M UInt8 :=
  if h : i < n then pure (buf.get ⟨i, h⟩) else throw .read

/-- `i * 7U / 8U`, in `size_t`. -/
def gsm7Off (i : Nat) : Nat := i * 7 % 0x10000000000000000 / 8

/-- The septet that round `i` of `at_gsm7_decode` reads. -/
def gsm7Septet {n : Nat} (packed : Vector UInt8 n) (i : Nat) : M UInt8 := do
  let bitOff := i * 7 % 0x10000000000000000 % 8
  let sept := ((← load packed (gsm7Off i)) >>> UInt8.ofNat bitOff) &&& 0x7F
  if 1 < bitOff ∧ gsm7Off i + 1 < n then
    let more := ((← load packed (gsm7Off i + 1)) <<< UInt8.ofNat (8 - bitOff)) &&& 0x7F
    return (sept ||| more) &&& 0x7F
  else return sept &&& 0x7F

/-- The loop of `at_gsm7_decode`, from round `i` on. -/
def gsm7Loop {n m : Nat} (packed : Vector UInt8 n) :
    Nat → Nat → Vector UInt8 m → M (Vector UInt8 m)
  | 0, _, out => pure out
  | rounds + 1, i, out => do
    let sept ← gsm7Septet packed i
    gsm7Loop packed rounds (i + 1) (← store out i (gsm7SeptetToAscii sept))

/-- `at_gsm7_decode`; the sizes of the arrays are the arguments `packed_len` and
`out_sz`, and `none` as a result is `AT_GSM7_OK`. -/
def atGsm7Decode {packedLen outSz : UInt64} (packed : Option (Vector UInt8 packedLen.toNat))
    (nChars : UInt64) (out : Option (Vector UInt8 outSz.toNat)) :
    M (Option Gsm7Err × Option (Vector UInt8 outSz.toNat)) :=
  match packed, out with
  | some packed, some buf =>
    if outSz < nChars + 1 then pure (some .bufFull, out)
    else do
      let buf ← gsm7Loop packed nChars.toNat 0 buf
      return (none, some (← store buf nChars.toNat 0))
  | _, _ => pure (some .null, out)

/-! ## One character -/

variable {n m : Nat} {packed : Vector UInt8 n}

theorem load_eq {i : Nat} (h : i < n) : load packed i = .ok (packed.get ⟨i, h⟩) := dif_pos h

/-- The second octet is read if there is one, the first in any case. -/
theorem gsm7Septet_yields_iff {i : Nat} :
    Yields (gsm7Septet packed i) (fun _ => True) ↔ gsm7Off i < n := by
  constructor
  · rintro ⟨sept, heq, -⟩
    by_contra hout
    rw [gsm7Septet, load, dif_neg hout] at heq
    cases heq
  · intro hin
    rw [gsm7Septet, load_eq hin, ok_bind]
    apply Yields.ite
    · rintro ⟨-, hnext⟩
      rw [load_eq hnext]
      exact .pure trivial
    · intro _
      exact .pure trivial

/-- What a step yields it yields on the way to a result. -/
theorem yields_of_bind {α β : Type} {x : M α} {f : α → M β} {Q : β → Prop}
    (h : Yields (x >>= f) Q) : ∃ a, x = .ok a ∧ Yields (f a) Q := by
  cases x with
  | error e =>
    obtain ⟨b, hb, -⟩ := h
    cases hb
  | ok a => exact ⟨a, rfl, h⟩

/-- The rounds write below the room for the terminator, and read the first octet of each
of their characters. -/
theorem gsm7Loop_yields_iff (rounds : Nat) : ∀ {i : Nat} (out : Vector UInt8 m), i + rounds ≤ m →
    (Yields (gsm7Loop packed rounds i out) (fun _ => True) ↔
      ∀ j, i ≤ j → j < i + rounds → gsm7Off j < n) := by
  induction rounds with
  | zero =>
    intro i out _
    refine ⟨fun _ j hj hlt => ?_, fun _ => .pure trivial⟩
    omega
  | succ rounds ih =>
    intro i out hroom
    constructor
    · intro h j hj hlt
      obtain ⟨sept, hsept, h⟩ := yields_of_bind h
      rw [store_eq (by omega), ok_bind, ih _ (by omega)] at h
      rcases Nat.eq_or_lt_of_le hj with rfl | hj
      · exact gsm7Septet_yields_iff.mp ⟨sept, hsept, trivial⟩
      · exact h j hj (by omega)
    · intro h
      refine (gsm7Septet_yields_iff.mpr (h i (Nat.le_refl i) (by omega))).bind fun sept _ => ?_
      rw [store_eq (by omega), ok_bind, ih _ (by omega)]
      exact fun j hj hlt => h j (by omega) (by omega)

/-! ## The buffers -/

/-- The first octet of every character is there when that of the last one is. From the
character on at which the bit position wraps, none is behind octet `2 ^ 61 - 1`. -/
theorem gsm7Off_lt_iff (rounds : Nat) :
    (∀ j, 0 ≤ j → j < 0 + rounds → gsm7Off j < n) ↔
      rounds = 0 ∨ (rounds - 1) * 7 / 8 < n ∨ 0x2000000000000000 ≤ n := by
  constructor
  · intro h
    rcases Nat.eq_zero_or_pos rounds with h0 | hpos
    · exact .inl h0
    · by_cases hwrap : (rounds - 1) * 7 < 0x10000000000000000
      · have hlast := h (rounds - 1) (Nat.zero_le _) (by omega)
        rw [gsm7Off, Nat.mod_eq_of_lt hwrap] at hlast
        exact .inr (.inl hlast)
      · -- the bit position just before it wraps
        have hlast : gsm7Off 2635249153387078802 < n := h _ (Nat.zero_le _) (by omega)
        rw [gsm7Off] at hlast
        exact .inr (.inr hlast)
  · intro h j _ hj
    have hle : gsm7Off j ≤ j * 7 / 8 := Nat.div_le_div_right (Nat.mod_le _ _)
    have hlt : gsm7Off j < 0x2000000000000000 := by
      rw [gsm7Off]
      omega
    rcases h with rfl | hlast | hlong
    · omega
    · omega
    · exact Nat.lt_of_lt_of_le hlt hlong

variable {packedLen outSz : UInt64}

/-- The arguments with which unpacking stays inside its buffers. -/
def DecodesInside (packed : Option (Vector UInt8 packedLen.toNat)) (nChars : UInt64)
    (out : Option (Vector UInt8 outSz.toNat)) : Prop :=
  packed = none ∨ out = none ∨
    (nChars.toNat ≠ 0xFFFFFFFFFFFFFFFF ∧
      (outSz.toNat ≤ nChars.toNat ∨ nChars.toNat = 0 ∨
        (nChars.toNat - 1) * 7 / 8 < packedLen.toNat ∨ 0x2000000000000000 ≤ packedLen.toNat))

/-- Room for the characters and the terminator, as the code tests it. -/
theorem bufFull_iff (nChars : UInt64) :
    outSz < nChars + 1 ↔
      nChars.toNat ≠ 0xFFFFFFFFFFFFFFFF ∧ outSz.toNat ≤ nChars.toNat := by
  have hn := nChars.toNat_lt
  have hm := outSz.toNat_lt
  have hsum : (nChars + 1).toNat = (nChars.toNat + 1) % 0x10000000000000000 := UInt64.toNat_add ..
  rw [UInt64.lt_iff_toNat_lt, hsum]
  omega

variable {packed : Option (Vector UInt8 packedLen.toNat)} {nChars : UInt64}
  {out : Option (Vector UInt8 outSz.toNat)}

theorem inside_of_yields (h : Yields (atGsm7Decode packed nChars out) fun _ => True) :
    DecodesInside packed nChars out := by
  have hm := outSz.toNat_lt
  cases packed with
  | none => exact .inl rfl
  | some packed =>
    cases out with
    | none => exact .inr (.inl rfl)
    | some out =>
      rw [atGsm7Decode] at h
      by_cases hfull : outSz < nChars + 1
      · obtain ⟨hmax, hfew⟩ := (bufFull_iff nChars).mp hfull
        exact .inr (.inr ⟨hmax, .inl hfew⟩)
      · rw [if_neg hfull] at h
        rw [bufFull_iff] at hfull
        obtain ⟨buf, hbuf, h⟩ := yields_of_bind h
        have hmax : nChars.toNat ≠ 0xFFFFFFFFFFFFFFFF := by
          -- the terminator would have no place in any array
          intro hmax
          obtain ⟨buf', hstore, -⟩ := yields_of_bind h
          rw [store, dif_neg (by omega)] at hstore
          cases hstore
        have hreads := (gsm7Loop_yields_iff nChars.toNat out (by omega)).mp ⟨buf, hbuf, trivial⟩
        exact .inr (.inr ⟨hmax, .inr ((gsm7Off_lt_iff _).mp hreads)⟩)

theorem yields_of_inside (h : DecodesInside packed nChars out) :
    Yields (atGsm7Decode packed nChars out) fun _ => True := by
  cases packed with
  | none => exact .pure trivial
  | some packed =>
    cases out with
    | none => exact .pure trivial
    | some out =>
      obtain ⟨hmax, hreads⟩ : _ ∧ _ := by simpa only [DecodesInside, reduceCtorEq, false_or] using h
      rw [atGsm7Decode]
      apply Yields.ite
      · intro _
        exact .pure trivial
      · intro hfull
        rw [bufFull_iff] at hfull
        have hroom : nChars.toNat < outSz.toNat := by omega
        have hoffs := (gsm7Off_lt_iff (n := packedLen.toNat) nChars.toNat).mpr (by omega)
        refine ((gsm7Loop_yields_iff nChars.toNat out (by omega)).mpr hoffs).bind fun buf _ => ?_
        rw [store_eq hroom]
        exact .pure trivial

/-- **Where unpacking stays inside its buffers**: an argument is NULL, or `n_chars + 1`
does not wrap and either there is no room for the characters or `packed` has the octet in
which the last one begins. -/
theorem atGsm7Decode_yields_iff (packed : Option (Vector UInt8 packedLen.toNat))
    (nChars : UInt64) (out : Option (Vector UInt8 outSz.toNat)) :
    Yields (atGsm7Decode packed nChars out) (fun _ => True) ↔ DecodesInside packed nChars out :=
  ⟨inside_of_yields, yields_of_inside⟩

/-- Three characters of one octet, and as many characters as a `size_t` can count. -/
theorem atGsm7Decode_outside :
    ¬Yields (atGsm7Decode (some (Vector.replicate (1 : UInt64).toNat 0x41)) 3
      (some (Vector.replicate (4 : UInt64).toNat 0))) (fun _ => True) ∧
    ¬Yields (atGsm7Decode (some (Vector.replicate (1 : UInt64).toNat 0x41)) 0xFFFFFFFFFFFFFFFF
      (some (Vector.replicate (4 : UInt64).toNat 0))) (fun _ => True) := by
  constructor
  · intro h
    rcases inside_of_yields h with h | h | ⟨-, h⟩
    · cases h
    · cases h
    · exact absurd h (by decide)
  · intro h
    rcases inside_of_yields h with h | h | ⟨h, -⟩
    · cases h
    · cases h
    · exact h rfl

/-! ## The characters -/

/-- Inside the buffer, and as long as the bit position does not wrap, a round reads the
septet of the function without checks. -/
theorem gsm7Septet_plain {packed : Vector UInt8 n} {i : Nat} (hwrap : i * 7 < 0x10000000000000000)
    (hin : i * 7 / 8 < n) : gsm7Septet packed i = .ok (gsm7Get packed.toList n i) := by
  have hoff : gsm7Off i = i * 7 / 8 := by rw [gsm7Off, Nat.mod_eq_of_lt hwrap]
  have hload {j : Nat} (hj : j < n) : load packed j = .ok (packed.toList.getD j 0) := by
    rw [load_eq hj, List.getD_eq_getElem?_getD, List.getElem?_eq_getElem (by simpa using hj)]
    rfl
  rw [gsm7Septet, gsm7Get, hoff, Nat.mod_eq_of_lt hwrap, hload hin, ok_bind]
  dsimp only
  split
  · rename_i hnext
    rw [hload hnext.2]
    rfl
  · rfl

/-- The same for the loop. -/
theorem gsm7Loop_plain (packed : Vector UInt8 n) (rounds : Nat) :
    ∀ {i : Nat} (out : Vector UInt8 m), i + rounds ≤ m →
      (∀ j, j < i + rounds → j * 7 < 0x10000000000000000 ∧ j * 7 / 8 < n) →
    ∃ out', gsm7Loop packed rounds i out = .ok out' ∧
      out'.toList = gsm7Unpack packed.toList n rounds i out.toList := by
  induction rounds with
  | zero => exact fun out _ _ => ⟨out, rfl, rfl⟩
  | succ rounds ih =>
    intro i out hroom hin
    obtain ⟨hwrap, hoff⟩ := hin i (by omega)
    obtain ⟨out', hrun, hout'⟩ :=
      ih (i := i + 1) (out.set i (gsm7SeptetToAscii (gsm7Get packed.toList n i)))
        (by omega) (fun j hj => hin j (by omega))
    refine ⟨out', ?_, ?_⟩
    · rw [gsm7Loop, gsm7Septet_plain hwrap hoff, ok_bind, store_eq (by omega)]
      exact hrun
    · rw [hout', gsm7Unpack, Vector.toList_set]

/-- **Inside its buffers** `at_gsm7_decode` computes what it is meant to. -/
theorem atGsm7Decode_plain (packed : Vector UInt8 packedLen.toNat)
    (out : Vector UInt8 outSz.toNat) (hroom : nChars.toNat < outSz.toNat)
    (hwrap : nChars.toNat * 7 < 0x10000000000000000)
    (hin : (nChars.toNat - 1) * 7 / 8 < packedLen.toNat) :
    ∃ buf, atGsm7Decode (some packed) nChars (some out) = .ok (none, some buf) ∧
      LibAt.atGsm7Decode (some packed.toList) packedLen.toNat nChars.toNat (some out.toList) =
        .ok buf.toList := by
  obtain ⟨buf, hrun, hbuf⟩ := gsm7Loop_plain packed nChars.toNat (i := 0) out (by omega)
    (fun j hj => ⟨by omega, by omega⟩)
  have hfull : ¬outSz < nChars + 1 := by
    rw [bufFull_iff]
    omega
  refine ⟨buf.set nChars.toNat 0, ?_, ?_⟩
  · rw [atGsm7Decode, if_neg hfull, hrun, ok_bind, store_eq hroom]
    rfl
  · rw [LibAt.atGsm7Decode, Vector.length_toList, if_neg (by omega), Vector.toList_set, hbuf]

end Checked

end LibAt
