import LibAt.Bits
import LibAt.Gsm7

/-!
# GSM-7 packing, both ways

The encoder and the decoder are two loops, each with its own shifts and its own
table. Both are compared with one description of the octets, `Packed 7`: the
septets of the text one behind the other, low bits first, and zero bits behind
them (`atGsm7Encode_packed`); a round of the decoder reads septet `i` of that
stream (`gsm7Get_packed`). Together they give the text back, and, for octets
that hold septets of the alphabet, the octets (`gsm7_roundTrip`).
-/

namespace LibAt

/-! ## Septets -/

/-- The septets of a text. -/
def septets (text : List UInt8) : List Nat := text.map fun c => (gsm7CharToSeptet c).toNat

@[simp] theorem length_septets (text : List UInt8) : (septets text).length = text.length :=
  List.length_map _

@[simp] theorem septets_cons (c : UInt8) (text : List UInt8) :
    septets (c :: text) = (gsm7CharToSeptet c).toNat :: septets text := rfl

/-- Characters of the alphabet have septets of seven bits, and are not zero. -/
theorem gsm7Image_septet {c : UInt8} (h : gsm7Image c = true) :
    (gsm7CharToSeptet c).toNat < 2 ^ 7 ∧ c ≠ 0 := by
  -- all 256 characters
  have hall : ∀ i : Fin 256, gsm7Image (UInt8.ofFin i) = true →
      (gsm7CharToSeptet (UInt8.ofFin i)).toNat < 2 ^ 7 ∧ UInt8.ofFin i ≠ 0 := by decide +kernel
  exact hall c.toFin h

/-! ## The encoder -/

/-- The two octets that get a part of the septet. -/
theorem bitAt_gsm7Put_octets (sept : UInt8) (bitPos : Nat) (out : List UInt8) {j : Nat}
    (hj : j < 8 * out.length) :
    bitAt (gsm7Put sept bitPos out) j = (bitAt out j ||
      ((decide (j / 8 = bitPos / 8) && (decide (bitPos % 8 ≤ j % 8) &&
          sept.toNat.testBit (j % 8 - bitPos % 8))) ||
        (decide (1 < bitPos % 8 ∧ j / 8 = bitPos / 8 + 1) &&
          sept.toNat.testBit (8 - bitPos % 8 + j % 8)))) := by
  have hfirst : bitAt (out.modify (bitPos / 8) (· ||| sept <<< UInt8.ofNat (bitPos % 8))) j =
      (bitAt out j || (decide (j / 8 = bitPos / 8) && (decide (bitPos % 8 ≤ j % 8) &&
        sept.toNat.testBit (j % 8 - bitPos % 8)))) := by
    rw [bitAt_modify_or _ _ _ hj, testBit_shiftLeft_octet _ (Nat.mod_lt _ (by decide))
      (Nat.mod_lt _ (by decide))]
  simp only [gsm7Put, List.length_modify]
  split
  · rename_i hspill
    rw [bitAt_modify_or _ _ _ (by rwa [List.length_modify]), hfirst,
      testBit_shiftRight_octet _ (by omega), Bool.or_assoc,
      decide_eq_decide.mpr (and_iff_right hspill.1)]
  · -- `j` is in the array, so the second octet is not the one behind it
    rw [hfirst, decide_eq_false (by omega : ¬(1 < bitPos % 8 ∧ j / 8 = bitPos / 8 + 1)),
      Bool.false_and, Bool.or_false]

/-- A septet is added to the stream at its bit position. -/
theorem bitAt_gsm7Put {sept : UInt8} (hs : sept.toNat < 2 ^ 7) (bitPos : Nat) (out : List UInt8)
    {j : Nat} (hj : j < 8 * out.length) :
    bitAt (gsm7Put sept bitPos out) j =
      (bitAt out j || (decide (bitPos ≤ j) && sept.toNat.testBit (j - bitPos))) := by
  rw [bitAt_gsm7Put_octets _ _ _ hj]
  congr 1
  rcases Nat.lt_trichotomy (j / 8) (bitPos / 8) with hlt | heq | hgt
  · rw [decide_eq_false (by omega : ¬j / 8 = bitPos / 8), decide_eq_false (by omega : ¬bitPos ≤ j),
      decide_eq_false (by omega : ¬(1 < bitPos % 8 ∧ j / 8 = bitPos / 8 + 1))]
    rfl
  · rw [decide_eq_true heq, decide_eq_false (by omega : ¬(1 < bitPos % 8 ∧ j / 8 = bitPos / 8 + 1)),
      show decide (bitPos % 8 ≤ j % 8) = decide (bitPos ≤ j) from decide_eq_decide.mpr (by omega),
      show j % 8 - bitPos % 8 = j - bitPos by omega]
    simp
  · rw [decide_eq_false (by omega), decide_eq_true (by omega : bitPos ≤ j)]
    by_cases hnext : 1 < bitPos % 8 ∧ j / 8 = bitPos / 8 + 1
    · rw [decide_eq_true hnext, show 8 - bitPos % 8 + j % 8 = j - bitPos by omega]
      rfl
    · -- the septet has seven bits, and ends before `j`
      have hhigh : sept.toNat.testBit (j - bitPos) = false :=
        Nat.testBit_lt_two_pow (Nat.lt_of_lt_of_le hs
          (Nat.pow_le_pow_right (by decide) (by omega)))
      rw [decide_eq_false hnext, hhigh]
      rfl

/-- **The loop adds the septets** of the text to the stream. -/
theorem bitAt_gsm7Pack {text : List UInt8} : ∀ {bitPos : Nat} {out : List UInt8} {r},
    gsm7Pack text bitPos out = .ok r → ∀ {j : Nat}, j < 8 * out.length →
      bitAt r.1 j = (bitAt out j ||
        (decide (bitPos ≤ j) && groupBit 7 (septets text) (j - bitPos))) := by
  induction text with
  | nil =>
    intro bitPos out r h j _
    obtain rfl := Except.ok.inj h
    have hz : groupBit 7 (septets []) (j - bitPos) = false := groupBit_of_le (by decide) (by simp)
    rw [hz, Bool.and_false, Bool.or_false]
  | cons c text ih =>
    intro bitPos out r h j hj
    have himg := image_of_gsm7Pack_ok h
    rw [List.all_cons, Bool.and_eq_true] at himg
    have hs := (gsm7Image_septet himg.1).1
    rw [gsm7Pack] at h
    split at h
    · cases h
    rw [ih h (by rwa [length_gsm7Put]), bitAt_gsm7Put hs _ _ hj, septets_cons,
      groupBit_cons (by decide) hs, Bool.or_assoc]
    congr 1
    by_cases hle : bitPos + 7 ≤ j
    · rw [decide_eq_true hle, decide_eq_true (by omega : bitPos ≤ j),
        decide_eq_true (by omega : 7 ≤ j - bitPos), ← Nat.sub_add_eq]
      simp
    · rw [decide_eq_false hle, decide_eq_false (by omega : ¬7 ≤ j - bitPos)]
      simp

theorem length_of_atGsm7Encode {text out ud : List UInt8} {udLen nChars : Nat}
    (h : atGsm7Encode (some text) (some out) = .ok (ud, udLen, nChars)) :
    ud.length = out.length := by
  obtain ⟨hlen, himg, hfit⟩ := of_atGsm7Encode_ok h
  obtain ⟨out', hout, henc⟩ := atGsm7Encode_eq_ok hlen himg hfit
  obtain ⟨rfl, -⟩ : ud = out' ∧ _ := Prod.mk.inj (Except.ok.inj (h.symm.trans henc))
  exact hout

/-- **What the encoder writes**: the septets of the text, and zero bits up to the
end of the last octet; nothing behind it. -/
theorem atGsm7Encode_packed {text out ud : List UInt8} {udLen nChars : Nat}
    (h : atGsm7Encode (some text) (some out) = .ok (ud, udLen, nChars)) :
    Packed 7 (septets (cstr text)) (ud.take udLen) ∧ ud.drop udLen = out.drop udLen := by
  have hudLen := length_of_atGsm7Encode h
  obtain ⟨hlen, htake, rfl, rfl⟩ := atGsm7Encode_some h
  obtain ⟨-, himg, hfit⟩ := of_atGsm7Encode_ok h
  have hmax : (strlen text * 7 + 7) / 8 = packedLen (strlen text) := by rw [packedLen]; omega
  have h7 : 7 * (septets (cstr text)).length ≤ 8 * packedLen (strlen text) := by
    rw [length_septets, packedLen, strlen]
    omega
  rw [atGsm7Encode] at h
  dsimp only at h
  rw [if_neg (by omega), hmax, if_neg (by omega)] at h
  -- the array the loop starts with
  generalize hout₀ : List.replicate (packedLen (strlen text)) 0 ++
    out.drop (packedLen (strlen text)) = out₀ at h
  have hlen₀ : out₀.length = out.length := by
    rw [← hout₀, List.length_append, List.length_replicate, List.length_drop]
    omega
  have hbits : ∀ {j}, j < 8 * out.length →
      bitAt ud j = (bitAt out₀ j || groupBit 7 (septets (cstr text)) j) := by
    intro j hj
    rcases hp : gsm7Pack (cstr text) 0 out₀ with e | r
    · rw [hp] at h
      cases h
    · rw [hp] at h
      obtain rfl : r.1 = ud := congrArg Prod.fst (Except.ok.inj h)
      rw [bitAt_gsm7Pack hp (by rwa [hlen₀])]
      simp
  constructor
  · refine ⟨by rw [htake, length_septets]; rfl, fun j => ?_⟩
    by_cases hj : j < 8 * packedLen (strlen text)
    · have hz : bitAt out₀ j = false := by
        rw [← hout₀, bitAt_append_left (by rwa [List.length_replicate]), bitAt_replicate_zero]
      rw [bitAt_take hj, hbits (by omega), hz, Bool.false_or]
    · rw [bitAt_of_le (by omega), groupBit_of_le (by decide) (by omega)]
  · refine octets_ext (by rw [List.length_drop, List.length_drop, hudLen]) fun j => ?_
    rw [bitAt_drop]
    by_cases hj : 8 * packedLen (strlen text) + j < 8 * out.length
    · have hrest := bitAt_append_right (List.replicate (packedLen (strlen text)) 0)
        (out.drop (packedLen (strlen text))) j
      rw [hout₀, List.length_replicate] at hrest
      rw [hbits hj, hrest, groupBit_of_le (by decide) (by omega), Bool.or_false]
    · rw [bitAt_drop, bitAt_of_le (by omega), bitAt_of_le (by omega)]

/-! ## The decoder -/

/-- A round reads the septet at its place, if the octets reach that far. -/
theorem testBit_gsm7Get (packed : List UInt8) {packedLen i : Nat}
    (h : 7 * i + 7 ≤ 8 * packedLen) (k : Nat) :
    (gsm7Get packed packedLen i).toNat.testBit k =
      (decide (k < 7) && bitAt packed (7 * i + k)) := by
  have hmask (x : UInt8) : (x &&& 0x7F).toNat.testBit k = (decide (k < 7) && x.toNat.testBit k) := by
    rw [UInt8.toNat_and, Nat.testBit_and, Bool.and_comm]
    exact congrArg (· && _) (Nat.testBit_two_pow_sub_one 7 k)
  by_cases hk : k < 7
  · have hb : i * 7 % 8 < 8 := Nat.mod_lt _ (by decide)
    rw [decide_eq_true hk, Bool.true_and]
    by_cases hnext : i * 7 % 8 + k < 8
    · -- the bit is in the first octet
      have hbit := bitAt_add packed (i * 7 / 8) hnext
      rw [show 8 * (i * 7 / 8) + (i * 7 % 8 + k) = 7 * i + k by omega] at hbit
      simp only [gsm7Get]
      split
      · rw [hmask, UInt8.toNat_or, Nat.testBit_or, hmask, hmask, testBit_shiftRight_octet _ hb,
          testBit_shiftLeft_octet _ (by omega) (by omega), hbit,
          decide_eq_false (by omega : ¬8 - i * 7 % 8 ≤ k)]
        simp [hk]
      · rw [hmask, hmask, testBit_shiftRight_octet _ hb, hbit]
        simp [hk]
    · -- it is in the second, and there is one
      have hbit := bitAt_add packed (i * 7 / 8 + 1) (k := i * 7 % 8 + k - 8) (by omega)
      rw [show 8 * (i * 7 / 8 + 1) + (i * 7 % 8 + k - 8) = 7 * i + k by omega] at hbit
      have hz : (packed.getD (i * 7 / 8) 0).toNat.testBit (i * 7 % 8 + k) = false :=
        Nat.testBit_lt_two_pow (Nat.lt_of_lt_of_le (UInt8.toNat_lt _)
          (Nat.pow_le_pow_right (by decide) (by omega : 8 ≤ _)))
      simp only [gsm7Get]
      rw [if_pos (by omega), hmask, UInt8.toNat_or, Nat.testBit_or, hmask, hmask,
        testBit_shiftRight_octet _ hb, hz, testBit_shiftLeft_octet _ (by omega) (by omega), hbit,
        decide_eq_true (by omega : 8 - i * 7 % 8 ≤ k),
        show k - (8 - i * 7 % 8) = i * 7 % 8 + k - 8 by omega]
      simp [hk]
  · rw [gsm7Get, hmask, decide_eq_false hk, Bool.false_and, Bool.false_and]

/-- Round `i` reads septet `i` of what is packed. -/
theorem gsm7Get_packed {packed : List UInt8} {packedLen : Nat} {text : List UInt8}
    (himg : text.all gsm7Image = true) (h : Packed 7 (septets text) (packed.take packedLen))
    {i : Nat} (hi : i < text.length) :
    gsm7Get packed packedLen i = gsm7CharToSeptet text[i] := by
  have hlen := h.length
  rw [List.length_take, length_septets] at hlen
  have hreach : 7 * i + 7 ≤ 8 * packedLen := by omega
  have hs := (gsm7Image_septet (List.all_eq_true.mp himg _ (List.getElem_mem hi))).1
  refine octet_ext fun k _ => ?_
  rw [testBit_gsm7Get packed hreach]
  by_cases hk : k < 7
  · have hbit := h.bit (7 * i + k)
    rw [bitAt_take (by omega), groupBit_add _ _ hk,
      List.getD_eq_getElem _ _ (by rwa [length_septets])] at hbit
    rw [decide_eq_true hk, hbit, Bool.true_and]
    simp only [septets, List.getElem_map]
  · rw [decide_eq_false hk, Nat.testBit_lt_two_pow (Nat.lt_of_lt_of_le hs
      (Nat.pow_le_pow_right (by decide) (Nat.not_lt.mp hk))), Bool.false_and]

/-- **The decoder gives the text**, whose septets are packed. -/
theorem atGsm7Decode_packed {packed out text : List UInt8} {packedLen : Nat}
    (himg : text.all gsm7Image = true) (h : Packed 7 (septets text) (packed.take packedLen))
    (hout : text.length < out.length) :
    atGsm7Decode (some packed) packedLen text.length (some out) =
      .ok (text ++ 0 :: out.drop (text.length + 1)) := by
  rw [atGsm7Decode_eq_ok packed out packedLen hout]
  congr 2
  refine List.ext_getElem (by simp) fun i hi hi' => ?_
  rw [List.getElem_map, List.getElem_range, gsm7Get_packed himg h hi']
  exact gsm7SeptetToAscii_charToSeptet (List.all_eq_true.mp himg _ (List.getElem_mem hi'))

/-! ## Both ways -/

/-- Octets that hold septets of the alphabet are those of a text. -/
theorem exists_packed_text {n : Nat} {packed : List UInt8} (hlen : packed.length = packedLen n)
    (himg : ∀ i < n, ∃ c, gsm7Image c = true ∧
      ∀ k < 7, bitAt packed (7 * i + k) = (gsm7CharToSeptet c).toNat.testBit k)
    (hpad : ∀ j, 7 * n ≤ j → j < 8 * packed.length → bitAt packed j = false) :
    ∃ text : List UInt8, text.length = n ∧ text.all gsm7Image = true ∧
      Packed 7 (septets text) packed := by
  choose! c hc hbits using himg
  refine ⟨(List.range n).map c, by simp, ?_, by simpa [packedLen] using hlen, fun j => ?_⟩
  · rw [List.all_map, List.all_eq_true]
    exact fun i hi => hc i (List.mem_range.mp hi)
  · by_cases hj : j < 7 * n
    · have hi : j / 7 < n := by omega
      have hbit := hbits (j / 7) hi (j % 7) (Nat.mod_lt _ (by decide))
      rw [Nat.div_add_mod] at hbit
      rw [hbit, groupBit, List.getD_eq_getElem _ _ (by simpa using hi)]
      simp [septets]
    · rw [groupBit_of_le (by decide) (by simpa using Nat.not_lt.mp hj)]
      by_cases hj' : j < 8 * packed.length
      · exact hpad j (Nat.not_lt.mp hj) hj'
      · exact bitAt_of_le (Nat.not_lt.mp hj')

/-- Characters of the alphabet and a terminator are a string. -/
theorem cstr_text {text : List UInt8} (himg : text.all gsm7Image = true) (rest : List UInt8) :
    cstr (text ++ 0 :: rest) = text := by
  have hz : (0 : UInt8) ∉ text := fun hm =>
    (gsm7Image_septet (List.all_eq_true.mp himg 0 hm)).2 rfl
  rw [cstr_append hz, cstr_cons_zero, List.append_nil]

/-- The encoder writes the only octets that hold these septets. -/
theorem atGsm7Encode_of_packed {text packed out : List UInt8} (hn : text.length ≤ 160)
    (himg : text.all gsm7Image = true) (h : Packed 7 (septets text) packed)
    (hout : packedLen text.length ≤ out.length) :
    atGsm7Encode (some (text ++ [0])) (some out) =
      .ok (packed ++ out.drop packed.length, packed.length, text.length) := by
  have hstr := cstr_text himg []
  have hlen : strlen (text ++ [0]) = text.length := congrArg List.length hstr
  have hpacked : packed.length = packedLen text.length := by
    rw [h.length, length_septets, packedLen]
  have hfit : packedLen (strlen (text ++ [0])) ≤ out.length := by rwa [hlen]
  obtain ⟨ud, -, henc⟩ := atGsm7Encode_eq_ok (hlen ▸ hn) (by rwa [hstr]) hfit
  obtain ⟨hp, hdrop⟩ := atGsm7Encode_packed henc
  rw [hstr] at hp
  rw [hlen, ← hpacked] at henc hp hdrop
  rw [henc, ← List.take_append_drop packed.length ud, hdrop, hp.octets_unique h]

/-- **GSM-7 packing is a bijection** between the texts of the alphabet and the
octets that hold its septets and zero bits behind them. -/
theorem gsm7_roundTrip :
    (∀ text out : List UInt8, strlen text ≤ 160 → packedLen (strlen text) ≤ out.length →
      ((∃ r, atGsm7Encode (some text) (some out) = .ok r) ↔ atGsm7IsValid (some text) = true) ∧
      ∀ ud udLen nChars, atGsm7Encode (some text) (some out) = .ok (ud, udLen, nChars) →
        udLen = packedLen (strlen text) ∧ nChars = strlen text ∧
        (∀ i c, (cstr text)[i]? = some c →
          ∀ k < 7, bitAt ud (7 * i + k) = (gsm7CharToSeptet c).toNat.testBit k) ∧
        (∀ j, 7 * nChars ≤ j → j < 8 * udLen → bitAt ud j = false) ∧
        ud.length = out.length ∧ ud.drop udLen = out.drop udLen ∧
        ∀ buf : List UInt8, buf.length = nChars + 1 →
          atGsm7Decode (some ud) udLen nChars (some buf) = .ok (cstr text ++ [0])) ∧
    ∀ n ≤ 160, ∀ packed : List UInt8, packed.length = packedLen n →
      (∀ i < n, ∃ c, gsm7Image c = true ∧
        ∀ k < 7, bitAt packed (7 * i + k) = (gsm7CharToSeptet c).toNat.testBit k) →
      (∀ j, 7 * n ≤ j → j < 8 * packed.length → bitAt packed j = false) →
      ∀ buf : List UInt8, buf.length = n + 1 →
        ∃ text, atGsm7Decode (some packed) packed.length n (some buf) = .ok text ∧
          ∀ out : List UInt8, packedLen n ≤ out.length →
            atGsm7Encode (some text) (some out) =
              .ok (packed ++ out.drop packed.length, packed.length, n) := by
  constructor
  · intro text out hn hout
    have hvalid : atGsm7IsValid (some text) = (cstr text).all gsm7Image := rfl
    refine ⟨⟨fun ⟨r, hr⟩ => hvalid ▸ (of_atGsm7Encode_ok hr).2.1, fun himg => ?_⟩, ?_⟩
    · obtain ⟨ud, -, henc⟩ := atGsm7Encode_eq_ok hn (hvalid ▸ himg) hout
      exact ⟨_, henc⟩
    intro ud udLen nChars henc
    have himg := (of_atGsm7Encode_ok henc).2.1
    have hlen := length_of_atGsm7Encode henc
    obtain ⟨hp, hdrop⟩ := atGsm7Encode_packed henc
    obtain ⟨-, -, rfl, rfl⟩ := atGsm7Encode_some henc
    have hreach : 7 * strlen text ≤ 8 * packedLen (strlen text) := by rw [packedLen]; omega
    refine ⟨rfl, rfl, ?_, ?_, hlen, hdrop, ?_⟩
    · intro i c hc k hk
      obtain ⟨hi, rfl⟩ := List.getElem?_eq_some_iff.mp hc
      have hi' : i < strlen text := hi
      rw [← bitAt_take (n := packedLen (strlen text)) (by omega), hp.bit, groupBit_add _ _ hk,
        List.getD_eq_getElem _ _ (by rwa [length_septets])]
      simp only [septets, List.getElem_map]
    · intro j hj hj'
      rw [← bitAt_take hj', hp.bit]
      exact groupBit_of_le (by decide) (by rwa [length_septets])
    · intro buf hbuf
      have hbuf' : buf.length = (cstr text).length + 1 := hbuf
      have hdec := atGsm7Decode_packed himg hp (Nat.lt_of_lt_of_eq (Nat.lt_succ_self _) hbuf'.symm)
      rw [List.drop_eq_nil_of_le hbuf'.le] at hdec
      exact hdec
  · intro n hn packed hlen himg hpad buf hbuf
    obtain ⟨text, rfl, hall, hp⟩ := exists_packed_text hlen himg hpad
    refine ⟨text ++ [0], ?_, fun out hout => atGsm7Encode_of_packed hn hall hp hout⟩
    have hp' : Packed 7 (septets text) (packed.take packed.length) := by rwa [List.take_length]
    have hroom : text.length < buf.length := hbuf ▸ Nat.lt_succ_self _
    have hdec := atGsm7Decode_packed hall hp' hroom
    rwa [List.drop_eq_nil_of_le hbuf.le] at hdec

/-- `hello` and its octets, both ways. -/
theorem gsm7_roundTrip_hello :
    (∃ ud, atGsm7Encode (some (ascii "hello")) (some (List.replicate 6 0xAA)) = .ok (ud, 5, 5) ∧
      atGsm7Decode (some ud) 5 5 (some (List.replicate 6 0xAA)) = .ok (ascii "hello" ++ [0])) ∧
    ∃ text, atGsm7Decode (some [0xE8, 0x32, 0x9B, 0xFD, 0x06]) 5 5
        (some (List.replicate 6 0xAA)) = .ok text ∧
      atGsm7Encode (some text) (some (List.replicate 6 0xAA)) =
        .ok ([0xE8, 0x32, 0x9B, 0xFD, 0x06, 0xAA], 5, 5) := by
  refine ⟨⟨[0xE8, 0x32, 0x9B, 0xFD, 0x06, 0xAA], by decide +kernel, ?_⟩, ?_⟩
  · obtain ⟨-, -, -, -, -, -, hdec⟩ := (gsm7_roundTrip.1 (ascii "hello") (List.replicate 6 0xAA)
      (by decide) (by decide)).2 [0xE8, 0x32, 0x9B, 0xFD, 0x06, 0xAA] 5 5 (by decide +kernel)
    exact hdec _ rfl
  · -- the characters whose septets the octets hold
    have himg : ∀ i < 5, gsm7Image ((ascii "hello").getD i 0) = true ∧
        ∀ k < 7, bitAt [0xE8, 0x32, 0x9B, 0xFD, 0x06] (7 * i + k) =
          (gsm7CharToSeptet ((ascii "hello").getD i 0)).toNat.testBit k := by decide +kernel
    have hpad : ∀ j < 40, 35 ≤ j → bitAt [0xE8, 0x32, 0x9B, 0xFD, 0x06] j = false := by
      decide +kernel
    obtain ⟨text, hdec, henc⟩ := gsm7_roundTrip.2 5 (by decide) [0xE8, 0x32, 0x9B, 0xFD, 0x06] rfl
      (fun i hi => ⟨_, himg i hi⟩) (fun j hj hlt => hpad j hlt hj) (List.replicate 6 0xAA) rfl
    exact ⟨text, hdec, henc _ (by decide)⟩

end LibAt
