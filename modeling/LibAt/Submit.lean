import LibAt.Reassembly
import LibAt.SemiOctets
import LibAt.Septets

/-!
# Reading a single message

`readSubmit` reads an SMS-SUBMIT without a user data header, field by field and
to the last octet. What `at_gsm_cmgs_pdu` puts into the queue is the hexadecimal
text of such a message, and the SMSC, the number and the text are read back from
it (`cmgs_roundTrip`). On the way the octets pass through five arrays, which all
are large enough (`Fitting`); of the body's slot this is the configuration's
concern, and 170 characters of `AT_CFG_TX_BUF_SIZE` are enough.
-/

namespace LibAt

variable {cfg : Config}

/-! ## The receiver -/

/-- What is read from a single message. -/
structure Submit where
  smsc : List UInt8
  number : List UInt8
  text : List UInt8
  deriving DecidableEq, Repr

/-- Read `n` characters. The octets hold their septets and no more. -/
def readText (n : Nat) (ud : List UInt8) : Option (List UInt8) :=
  if ud.length = packedLen n ∧ (∀ j < 8 * ud.length, 7 * n ≤ j → bitAt ud j = false) then
    some ((List.range n).map fun k => gsm7SeptetToAscii (septetAt ud (7 * k)))
  else none

/-- Read an SMS-SUBMIT: SMSC field, 01, 00, address, 00, 00, number of septets,
septets. -/
def readSubmit (o : List UInt8) : Option Submit :=
  match readSmsc o with
  | some (smsc, 0x01 :: 0x00 :: o) =>
    match readDa o with
    | some (number, 0x00 :: 0x00 :: udl :: ud) => (readText udl.toNat ud).map (⟨smsc, number, ·⟩)
    | _ => none
  | _ => none

/-- The number 1234, and the text `hi`. -/
example : readSubmit [0x00, 0x01, 0x00, 0x04, 0x91, 0x21, 0x43, 0x00, 0x00, 0x02, 0xE8, 0x34] =
    some ⟨[], ascii "1234", ascii "hi"⟩ := by decide +kernel

/-! ## The text -/

theorem testBit_septetAt (ud : List UInt8) (bit k : Nat) :
    (septetAt ud bit).toNat.testBit k = (decide (k < 7) && bitAt ud (bit + k)) := by
  have hsept : (septetAt ud bit).toNat =
      (2 ^ 8 * (ud.getD (bit / 8 + 1) 0).toNat + (ud.getD (bit / 8) 0).toNat) / 2 ^ (bit % 8) %
        2 ^ 7 := by
    rw [septetAt, UInt8.toNat_ofNat', Nat.mod_eq_of_lt (by omega), Nat.add_comm]
    rfl
  rw [hsept, Nat.testBit_mod_two_pow, Nat.testBit_div_two_pow,
    Nat.testBit_two_pow_mul_add _ (UInt8.toNat_lt _)]
  by_cases hk : k < 7
  · rw [decide_eq_true hk, Bool.true_and, Bool.true_and]
    split
    · rename_i hlt
      have hbit := bitAt_add ud (bit / 8) hlt
      rwa [show 8 * (bit / 8) + (k + bit % 8) = bit + k by omega, eq_comm] at hbit
    · have hbit := bitAt_add ud (bit / 8 + 1) (k := k + bit % 8 - 8) (by omega)
      rwa [show 8 * (bit / 8 + 1) + (k + bit % 8 - 8) = bit + k by omega, eq_comm] at hbit
  · rw [decide_eq_false hk]
    rfl

/-- **The text is read back.** -/
theorem readText_packed {text ud : List UInt8} (himg : text.all gsm7Image = true)
    (h : Packed 7 (septets text) ud) : readText text.length ud = some text := by
  have hlen := h.length
  rw [length_septets] at hlen
  rw [readText, if_pos]
  · congr 1
    refine List.ext_getElem (by simp) fun i hi hi' => ?_
    -- the septet is the one that the decoder reads
    have htake : Packed 7 (septets text) (ud.take ud.length) := by rwa [List.take_length]
    have hsept : septetAt ud (7 * i) = gsm7Get ud ud.length i :=
      octet_ext fun k _ => by rw [testBit_septetAt, testBit_gsm7Get ud (by omega)]
    rw [List.getElem_map, List.getElem_range, hsept, gsm7Get_packed himg htake hi']
    exact gsm7SeptetToAscii_charToSeptet (List.all_eq_true.mp himg _ (List.getElem_mem hi'))
  · refine ⟨hlen, fun j _ hj => ?_⟩
    rw [h.bit]
    exact groupBit_of_le (by decide) (by rwa [length_septets])

/-! ## The message -/

/-- What `at_gsm_cmgs_pdu` builds, and of which arguments. -/
theorem of_cmgsPdu {stk : Stack} {smsc : Option (List UInt8)} {number text pdu : List UInt8}
    (h : cmgsPdu stk smsc (some number) (some text) = some pdu) :
    strlen (skipPlus number) ≤ 20 ∧ strlen text ≤ 160 ∧ (cstr text).all gsm7Image = true ∧
      ∃ ud, Packed 7 (septets (cstr text)) ud ∧
        pdu = smscField smsc ++ 0x01 :: 0x00 :: (daField number ++
          0x00 :: 0x00 :: UInt8.ofNat (strlen text) :: ud) := by
  obtain ⟨_, _, ud, udLen, nChars, ⟨⟩, ⟨⟩, hdig, henc, rfl⟩ := cmgsPdu_encodes stk h
  obtain ⟨hlen, -, rfl, rfl⟩ := atGsm7Encode_some henc
  refine ⟨hdig, hlen, (of_atGsm7Encode_ok henc).2.1, _, (atGsm7Encode_packed henc).1, ?_⟩
  simp only [List.append_assoc, List.cons_append, List.nil_append]

theorem exists_cmgsPdu (stk : Stack) (smsc : Option (List UInt8)) {number text : List UInt8}
    (hvalid : validatePhoneNumber (some number) = true) (hdig : strlen (skipPlus number) ≤ 20)
    (hlen : strlen text ≤ 160) (himg : (cstr text).all gsm7Image = true) :
    ∃ pdu, cmgsPdu stk smsc (some number) (some text) = some pdu := by
  have hfit : packedLen (strlen text) ≤ (stk 140).bytes.length := by
    rw [(stk 140).size, packedLen]
    omega
  obtain ⟨ud, -, henc⟩ := atGsm7Encode_eq_ok hlen himg hfit
  rw [cmgsPdu, hvalid, if_neg (by decide), if_neg (Nat.not_lt.mpr hdig), henc]
  exact ⟨_, rfl⟩

/-- An optional `+` and at most 20 decimal digits. -/
def PhoneDigits (m : List UInt8) : Prop :=
  (digitsOf m).all isDigit = true ∧ (digitsOf m).length ≤ 20

instance (m : List UInt8) : Decidable (PhoneDigits m) := inferInstanceAs (Decidable (_ ∧ _))

theorem PhoneDigits.address {m : List UInt8} (h : PhoneDigits m) :
    (digitsOf m).all isAddressChar = true := by
  rw [List.all_eq_true]
  intro c hc
  rw [isAddressChar, List.all_eq_true.mp h.1 c hc]
  rfl

/-- Such a number passes the check. -/
theorem PhoneDigits.valid {number : List UInt8} (h : PhoneDigits number)
    (hne : cstr number ≠ []) : validatePhoneNumber (some number) = true := by
  have hdigits : (digitsOf number).all isDialChar = true := by
    rw [List.all_eq_true]
    intro c hc
    rw [isDialChar, List.all_eq_true.mp h.1 c hc]
    rfl
  have hall : (cstr number).all isDialChar = true := by
    rcases cstr_eq_digitsOf number with hd | hd <;> rw [hd]
    · exact hdigits
    · rw [List.all_cons, hdigits]
      rfl
  rw [validatePhoneNumber, hall, Bool.and_true]
  simpa using hne

/-- The arrays on the way are large enough: `smsc_addr[14]`, `da[14]`, `ud[140]`,
`pdu[200]` and `hex[401]`. -/
structure Fitting (smsc : Option (List UInt8)) (number text octets : List UInt8) : Prop where
  smscAddr : (encodeAddress (smsc.getD [])).length ≤ 14
  da : (encodeAddress number).length ≤ 14
  ud : packedLen (strlen text) ≤ 140
  pdu : octets.length ≤ 200
  hex : (hexOf octets).length < 401

theorem length_encodeAddress_le (number : List UInt8) : (encodeAddress number).length ≤ 11 := by
  rw [length_encodeAddress]
  omega

/-- The longest message has 169 octets. -/
theorem length_cmgsPdu_le {stk : Stack} {smsc : Option (List UInt8)} {number text : List UInt8}
    {pdu : List UInt8} (h : cmgsPdu stk smsc (some number) (some text) = some pdu) :
    pdu.length ≤ 169 := by
  obtain ⟨hdig, hlen, -, ud, hud, rfl⟩ := of_cmgsPdu h
  have hsmsc := length_smscField_le smsc
  have hudLen : ud.length = (7 * strlen text + 7) / 8 := by
    rw [hud.length, length_septets, strlen]
  simp only [List.length_append, List.length_cons, length_daField hdig, hudLen]
  omega

/-- **What is built can be read.** -/
theorem readSubmit_cmgsPdu {stk : Stack} {smsc : Option (List UInt8)} {number text pdu : List UInt8}
    (hsmsc : PhoneDigits (smsc.getD [])) (hnumber : PhoneDigits number)
    (h : cmgsPdu stk smsc (some number) (some text) = some pdu) :
    readSubmit pdu = some ⟨digitsOf (smsc.getD []), digitsOf number, cstr text⟩ := by
  obtain ⟨hdig, hlen, himg, ud, hud, rfl⟩ := of_cmgsPdu h
  have hudl : (UInt8.ofNat (strlen text)).toNat = (cstr text).length := by
    rw [UInt8.toNat_ofNat', Nat.mod_eq_of_lt (by omega)]
    rfl
  simp only [readSubmit, readSmsc_smscField hsmsc.2 hsmsc.address,
    readDa_daField hdig hnumber.address, hudl, readText_packed himg hud, Option.map_some]

/-- **A single message can be read back.** The body is its hexadecimal text, cut
to the slot; a message has at most 169 octets, so 170 for `AT_CFG_TX_BUF_SIZE`
are enough for it. -/
theorem cmgs_roundTrip (stk : Stack) (cb : Option Ptr) (user : Ptr) (g : Engine cfg)
    (smsc : Option (List UInt8)) (number text : List UInt8)
    (hsmsc : PhoneDigits (smsc.getD [])) (hne : cstr number ≠ []) (hnumber : PhoneDigits number)
    (hlen : strlen text ≤ 160) (hvalid : atGsm7IsValid (some text) = true)
    (hroom : g.qCount < cfg.cmdQueueDepth) :
    ∃ pdu tpdu g', atGsmCmgsPdu stk cb user g smsc (some number) (some text) = (.ok, g') ∧
      (g'.queue g.qHead).body.bytes = (hexOf pdu).take (cfg.txBufSize * 2 - 1) ∧
      (170 ≤ cfg.txBufSize → (g'.queue g.qHead).body.bytes = hexOf pdu) ∧
      readSubmit pdu = some ⟨digitsOf (smsc.getD []), digitsOf number, cstr text⟩ ∧
      readSmsc pdu = some (digitsOf (smsc.getD []), tpdu) ∧ tpduLen pdu = tpdu.length ∧
      hexDecode (hexOf pdu) = some pdu ∧ Fitting smsc number text pdu := by
  obtain ⟨pdu, hpdu⟩ := exists_cmgsPdu stk smsc (hnumber.valid hne) hnumber.2 hlen hvalid
  have hle := length_cmgsPdu_le hpdu
  have hhex := length_hexOf pdu
  obtain ⟨g', hg'⟩ := sendPdu_accepted stk cb user hroom pdu 401
  obtain ⟨-, hbody⟩ := sendPdu_ok stk cb user (by omega) hg'
  obtain ⟨-, -, -, ud, -, rfl⟩ := of_cmgsPdu hpdu
  refine ⟨_, _, g', ?_, hbody, fun htx => ?_, readSubmit_cmgsPdu hsmsc hnumber hpdu,
    readSmsc_smscField hsmsc.2 hsmsc.address _, tpduLen_smscField _ _, hexDecode_hexOf _, ?_⟩
  · rw [atGsmCmgsPdu, hpdu]
    exact hg'
  · rw [hbody, List.take_of_length_le (by omega)]
  · refine ⟨?_, ?_, by rw [packedLen]; omega, by omega, by omega⟩
    · exact Nat.le_trans (length_encodeAddress_le _) (by decide)
    · exact Nat.le_trans (length_encodeAddress_le _) (by decide)

/-- Five digits with a `+`, by way of an SMSC with four. -/
theorem cmgs_roundTrip_hi : ∃ (pdu tpdu : List UInt8) (g' : Engine Config.default),
    atGsmCmgsPdu .zero none 0 (atInit Config.default) (some (ascii "4912")) (some (ascii "+12345"))
      (some (ascii "hi")) = (.ok, g') ∧
    (g'.queue (atInit Config.default).qHead).body.bytes = hexOf pdu ∧
    readSubmit pdu = some ⟨ascii "4912", ascii "12345", ascii "hi"⟩ ∧
    tpduLen pdu = tpdu.length := by
  obtain ⟨pdu, tpdu, g', hok, -, hbody, hread, -, htpdu, -⟩ :=
    cmgs_roundTrip .zero none 0 (atInit Config.default) (some (ascii "4912")) (ascii "+12345")
      (ascii "hi") (by decide) (by decide) (by decide) (by decide) (by decide) (by decide)
  exact ⟨pdu, tpdu, g', hok, hbody (by decide), hread, htpdu⟩

end LibAt
