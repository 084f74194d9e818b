import LibAt.CString

/-!
# GSM-7 text (`at_gsm.c`)

The GSM 03.38 basic character set, seven bits a character, packed into octets
from the low bits up. `atGsm7Encode` and `atGsm7Decode` work on the array they
are given, of which they return the new content; `gsm7Image` is the alphabet, and
`atGsm7Encode_eq_ok` says when encoding succeeds and how long its result is.
-/

namespace LibAt

/-! ## The alphabet -/

/-- The table of `gsm7_char_to_septet`. -/
def gsm7Lut : List UInt8 :=
  [0xFF, 0xFF, 0xFF, 0xFF, 0xFF, 0xFF, 0xFF, 0xFF,
   0xFF, 0xFF, 0x0A, 0xFF, 0xFF, 0x0D, 0xFF, 0xFF,
   0xFF, 0xFF, 0xFF, 0xFF, 0xFF, 0xFF, 0xFF, 0xFF,
   0xFF, 0xFF, 0xFF, 0xFF, 0xFF, 0xFF, 0xFF, 0xFF,
   0x20, 0x21, 0x22, 0x23, 0x02, 0x25, 0x26, 0x27,
   0x28, 0x29, 0x2A, 0x2B, 0x2C, 0x2D, 0x2E, 0x2F,
   0x30, 0x31, 0x32, 0x33, 0x34, 0x35, 0x36, 0x37,
   0x38, 0x39, 0x3A, 0x3B, 0x3C, 0x3D, 0x3E, 0x3F,
   0x00, 0x41, 0x42, 0x43, 0x44, 0x45, 0x46, 0x47,
   0x48, 0x49, 0x4A, 0x4B, 0x4C, 0x4D, 0x4E, 0x4F,
   0x50, 0x51, 0x52, 0x53, 0x54, 0x55, 0x56, 0x57,
   0x58, 0x59, 0x5A, 0xFF, 0xFF, 0xFF, 0xFF, 0x11,
   0xFF, 0x61, 0x62, 0x63, 0x64, 0x65, 0x66, 0x67,
   0x68, 0x69, 0x6A, 0x6B, 0x6C, 0x6D, 0x6E, 0x6F,
   0x70, 0x71, 0x72, 0x73, 0x74, 0x75, 0x76, 0x77,
   0x78, 0x79, 0x7A, 0xFF, 0xFF, 0xFF, 0xFF, 0xFF]

/-- `gsm7_char_to_septet`: 0xFF for a character that is not in the alphabet. -/
def gsm7CharToSeptet (c : UInt8) : UInt8 :=
  if c ≥ 128 then 0xFF else gsm7Lut.getD c.toNat 0xFF

/-- The table of `gsm7_septet_to_ascii`: 0 where there is no ASCII character. -/
def gsm7Rev : List UInt8 :=
  [64, 0, 36, 0, 0, 0, 0, 0,
   0, 0, 10, 0, 0, 13, 0, 0,
   0, 95, 0, 0, 0, 0, 0, 0,
   0, 0, 0, 0, 0, 0, 0, 0,
   32, 33, 34, 35, 0, 37, 38, 39,
   40, 41, 42, 43, 44, 45, 46, 47,
   48, 49, 50, 51, 52, 53, 54, 55,
   56, 57, 58, 59, 60, 61, 62, 63,
   0, 65, 66, 67, 68, 69, 70, 71,
   72, 73, 74, 75, 76, 77, 78, 79,
   80, 81, 82, 83, 84, 85, 86, 87,
   88, 89, 90, 0, 0, 0, 0, 0,
   0, 97, 98, 99, 100, 101, 102, 103,
   104, 105, 106, 107, 108, 109, 110, 111,
   112, 113, 114, 115, 116, 117, 118, 119,
   120, 121, 122, 0, 0, 0, 0, 0]

/-- `gsm7_septet_to_ascii`. -/
def gsm7SeptetToAscii (septet : UInt8) : UInt8 :=
  if septet ≥ 128 then 63
  else
    let c := gsm7Rev.getD septet.toNat 0
    if c = 0 then 63 else c

/-- The character is in the alphabet. -/
def gsm7Image (c : UInt8) : Bool := gsm7CharToSeptet c != 0xFF

/-- The tables agree: a character that has a septet is read back from it. -/
theorem gsm7SeptetToAscii_charToSeptet {c : UInt8} (h : gsm7Image c = true) :
    gsm7SeptetToAscii (gsm7CharToSeptet c) = c := by
  -- all 256 characters
  have hall : ∀ i : Fin 256, gsm7Image (UInt8.ofFin i) = true →
      gsm7SeptetToAscii (gsm7CharToSeptet (UInt8.ofFin i)) = UInt8.ofFin i := by decide +kernel
  exact hall c.toFin h

/-- `at_gsm7_is_valid`. -/
def atGsm7IsValid (text : Option (List UInt8)) : Bool :=
  match text with
  | none => false
  | some text => (cstr text).all gsm7Image

/-! ## Packing -/

/-- The error codes of `at_gsm7_result_t`. -/
inductive Gsm7Err where
  | null | tooLong | bufFull | char
  deriving DecidableEq, Repr

/-- Pack a septet at bit `bitPos` of `out`. -/
def gsm7Put (sept : UInt8) (bitPos : Nat) (out : List UInt8) : List UInt8 :=
  let byteOff := bitPos / 8
  let bitOff := bitPos % 8
  let out := out.modify byteOff fun b => b ||| (sept <<< UInt8.ofNat bitOff)
  -- the part that does not fit goes to the next octet
  if 1 < bitOff ∧ byteOff + 1 < out.length then
    out.modify (byteOff + 1) fun b => b ||| (sept >>> UInt8.ofNat (8 - bitOff))
  else out

/-- The loop of `at_gsm7_encode`. -/
def gsm7Pack : List UInt8 → Nat → List UInt8 → Except Gsm7Err (List UInt8 × Nat)
  | [], bitPos, out => .ok (out, bitPos)
  | c :: text, bitPos, out =>
    let sept := gsm7CharToSeptet c
    if sept = 0xFF then .error .char
    else gsm7Pack text (bitPos + 7) (gsm7Put sept bitPos out)

/-- `at_gsm7_encode`: the new content of `out`, `*out_len` and `*n_chars`. The
`out_sz` argument is the length of the array. -/
def atGsm7Encode (text out : Option (List UInt8)) :
    Except Gsm7Err (List UInt8 × Nat × Nat) :=
  match text, out with
  | some text, some out =>
    let inLen := strlen text
    if inLen > 160 then .error .tooLong
    else
      let maxOut := (inLen * 7 + 7) / 8
      if maxOut > out.length then .error .bufFull
      else do
        let (out, bitPos) ← gsm7Pack (cstr text) 0 (List.replicate maxOut 0 ++ out.drop maxOut)
        return (out, (bitPos + 7) / 8, inLen)
  | _, _ => .error .null

@[simp] theorem length_gsm7Put (sept : UInt8) (bitPos : Nat) (out : List UInt8) :
    (gsm7Put sept bitPos out).length = out.length := by
  rw [gsm7Put]
  split <;> simp

/-- Characters of the alphabet are packed one behind the other. -/
theorem gsm7Pack_eq_ok {text : List UInt8} (h : text.all gsm7Image = true) :
    ∀ (bitPos : Nat) (out : List UInt8), ∃ out', out'.length = out.length ∧
      gsm7Pack text bitPos out = .ok (out', bitPos + 7 * text.length) := by
  induction text with
  | nil => exact fun bitPos out => ⟨out, rfl, rfl⟩
  | cons c text ih =>
    intro bitPos out
    rw [List.all_cons, Bool.and_eq_true] at h
    have hc : gsm7CharToSeptet c ≠ 0xFF := by simpa [gsm7Image] using h.1
    obtain ⟨out', hlen, hpack⟩ := ih h.2 (bitPos + 7) (gsm7Put (gsm7CharToSeptet c) bitPos out)
    refine ⟨out', by rw [hlen, length_gsm7Put], ?_⟩
    rw [gsm7Pack, if_neg hc, hpack, List.length_cons]
    congr 2
    omega

/-- Any other character stops the loop. -/
theorem image_of_gsm7Pack_ok {text : List UInt8} :
    ∀ {bitPos : Nat} {out : List UInt8} {r}, gsm7Pack text bitPos out = .ok r →
      text.all gsm7Image = true := by
  induction text with
  | nil => intros; rfl
  | cons c text ih =>
    intro bitPos out r h
    rw [gsm7Pack] at h
    split at h
    · exact nomatch h
    · rename_i hc
      rw [List.all_cons, ih h, Bool.and_true]
      simpa [gsm7Image] using hc

/-- The number of octets that `n` septets take. -/
def packedLen (n : Nat) : Nat := (7 * n + 7) / 8

/-- **Encoding succeeds** on at most 160 characters of the alphabet, when the
packed octets fit; it then reports their number and that of the characters. -/
theorem atGsm7Encode_eq_ok {text out : List UInt8} (hlen : strlen text ≤ 160)
    (himg : (cstr text).all gsm7Image = true) (hfit : packedLen (strlen text) ≤ out.length) :
    ∃ out', out'.length = out.length ∧
      atGsm7Encode (some text) (some out) =
        .ok (out', packedLen (strlen text), strlen text) := by
  have hmax : (strlen text * 7 + 7) / 8 = packedLen (strlen text) := by rw [packedLen]; omega
  obtain ⟨out', hout, hpack⟩ := gsm7Pack_eq_ok himg 0
    (List.replicate (packedLen (strlen text)) 0 ++ out.drop (packedLen (strlen text)))
  refine ⟨out', ?_, ?_⟩
  · rw [hout, List.length_append, List.length_replicate, List.length_drop]
    omega
  · rw [atGsm7Encode]
    dsimp only
    rw [if_neg (by omega), hmax, if_neg (by omega), hpack]
    simp only [bind, Except.bind, pure, Except.pure, Nat.zero_add]
    rfl

/-- Conversely, what has been encoded was such a text. -/
theorem of_atGsm7Encode_ok {text out : List UInt8} {r : List UInt8 × Nat × Nat}
    (h : atGsm7Encode (some text) (some out) = .ok r) :
    strlen text ≤ 160 ∧ (cstr text).all gsm7Image = true ∧
      packedLen (strlen text) ≤ out.length := by
  rw [atGsm7Encode] at h
  dsimp only at h
  split at h
  · exact nomatch h
  · rename_i hlen
    split at h
    · exact nomatch h
    · rename_i hfit
      rcases hp : gsm7Pack (cstr text) 0 (List.replicate ((strlen text * 7 + 7) / 8) 0 ++
          out.drop ((strlen text * 7 + 7) / 8)) with e | r'
      · rw [hp] at h
        exact nomatch h
      · refine ⟨by omega, image_of_gsm7Pack_ok hp, ?_⟩
        rw [packedLen]
        omega

/-- What a caller of a successful encoding gets. -/
theorem atGsm7Encode_some {text out ud : List UInt8} {udLen nChars : Nat}
    (h : atGsm7Encode (some text) (some out) = .ok (ud, udLen, nChars)) :
    strlen text ≤ 160 ∧ (ud.take udLen).length = packedLen (strlen text) ∧
      udLen = packedLen (strlen text) ∧ nChars = strlen text := by
  obtain ⟨hlen, himg, hfit⟩ := of_atGsm7Encode_ok h
  obtain ⟨out', hout, henc⟩ := atGsm7Encode_eq_ok hlen himg hfit
  obtain ⟨rfl, rfl, rfl⟩ : ud = out' ∧ udLen = _ ∧ nChars = _ := by
    simpa using h.symm.trans henc
  refine ⟨hlen, ?_, rfl, rfl⟩
  rw [List.length_take]
  omega

/-! ## Unpacking -/

/-- The septet that round `i` of `at_gsm7_decode` reads. (`packed` is the array,
and nothing tests that it reaches as far as octet `7 * i / 8`.) -/
def gsm7Get (packed : List UInt8) (packedLen i : Nat) : UInt8 :=
  let bitPos := i * 7
  let byteOff := bitPos / 8
  let bitOff := bitPos % 8
  let sept := (packed.getD byteOff 0 >>> UInt8.ofNat bitOff) &&& 0x7F
  let sept :=
    if 1 < bitOff ∧ byteOff + 1 < packedLen then
      sept ||| ((packed.getD (byteOff + 1) 0 <<< UInt8.ofNat (8 - bitOff)) &&& 0x7F)
    else sept
  sept &&& 0x7F

/-- The loop of `at_gsm7_decode`, from round `i` on. -/
def gsm7Unpack (packed : List UInt8) (packedLen : Nat) : Nat → Nat → List UInt8 → List UInt8
  | 0, _, out => out
  | rounds + 1, i, out =>
    gsm7Unpack packed packedLen rounds (i + 1)
      (out.set i (gsm7SeptetToAscii (gsm7Get packed packedLen i)))

/-- `at_gsm7_decode`: the new content of `out`, whose length is the `out_sz`
argument. -/
def atGsm7Decode (packed : Option (List UInt8)) (packedLen nChars : Nat)
    (out : Option (List UInt8)) : Except Gsm7Err (List UInt8) :=
  match packed, out with
  | some packed, some out =>
    if out.length < nChars + 1 then .error .bufFull
    else .ok ((gsm7Unpack packed packedLen nChars 0 out).set nChars 0)
  | _, _ => .error .null

/-- The loop writes one character a round. -/
theorem gsm7Unpack_eq (packed : List UInt8) (packedLen rounds : Nat) :
    ∀ (i : Nat) (out : List UInt8), i + rounds ≤ out.length →
      gsm7Unpack packed packedLen rounds i out = out.take i ++
        (List.range' i rounds).map (fun k => gsm7SeptetToAscii (gsm7Get packed packedLen k)) ++
        out.drop (i + rounds) := by
  induction rounds with
  | zero => simp [gsm7Unpack]
  | succ rounds ih =>
    intro i out h
    rw [gsm7Unpack, ih (i + 1) _ (by rw [List.length_set]; omega), List.range'_succ, List.map_cons,
      List.take_set, List.drop_set_of_lt (by omega), Nat.add_right_comm, Nat.add_assoc i rounds 1,
      List.take_add_one, List.getElem?_eq_getElem (by omega), Option.toList_some,
      List.set_append_right _ _ (List.length_take_le _ _),
      List.length_take_of_le (by omega : i ≤ out.length), Nat.sub_self, List.set_cons_zero]
    simp only [List.append_assoc, List.cons_append, List.nil_append]

/-- **Decoding** into an array with room for the characters and a terminator. -/
theorem atGsm7Decode_eq_ok (packed out : List UInt8) (packedLen : Nat) {nChars : Nat}
    (h : nChars < out.length) :
    atGsm7Decode (some packed) packedLen nChars (some out) =
      .ok ((List.range nChars).map (fun k => gsm7SeptetToAscii (gsm7Get packed packedLen k)) ++
        0 :: out.drop (nChars + 1)) := by
  rw [atGsm7Decode, if_neg (by omega), gsm7Unpack_eq _ _ _ _ _ (by omega), List.take_zero,
    List.nil_append, Nat.zero_add, ← List.range_eq_range', List.drop_eq_getElem_cons h,
    List.set_append_right _ _ (by simp), List.length_map, List.length_range, Nat.sub_self,
    List.set_cons_zero]

end LibAt
