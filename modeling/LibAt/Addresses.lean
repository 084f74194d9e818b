import LibAt.Submit

/-!
# Which addresses are altered

`validate_phone_number` admits more characters than half octets can tell apart:
`#` leaves the same half octet as `3`, and `;` the same as `+`. The two senders
put whatever they have accepted into the message. So two numbers get different
address fields exactly when they still differ with `#` read as `3` and `;` as `+`
(`daField_eq_iff`). The SMSC is not looked at, and clamped to 20 characters: it
can be read back exactly when it is no longer and consists of digits and `*`
(`readSmsc_smscField_iff`).
-/

namespace LibAt

variable {cfg : Config}

/-! ## Where the fields are -/

/-- The SMSC field of a message. -/
def smscPart (pdu : List UInt8) : List UInt8 := pdu.take (1 + (pdu.headD 0).toNat)

/-- The octet behind it. -/
def firstOctet (pdu : List UInt8) : UInt8 := pdu.getD (1 + (pdu.headD 0).toNat) 0

/-- What follows that octet and the message reference. -/
def behindReference (pdu : List UInt8) : List UInt8 := pdu.drop (3 + (pdu.headD 0).toNat)

/-- The length of an address field that begins like this. -/
def addressLen (o : List UInt8) : Nat := 2 + ((o.headD 0).toNat + 1) / 2

/-- The address field. -/
def addressPart (pdu : List UInt8) : List UInt8 :=
  (behindReference pdu).take (addressLen (behindReference pdu))

/-- What follows it. -/
def behindAddress (pdu : List UInt8) : List UInt8 :=
  (behindReference pdu).drop (addressLen (behindReference pdu))

theorem smscPart_eq (smsc : Option (List UInt8)) (rest : List UInt8) :
    smscPart (smscField smsc ++ rest) = smscField smsc := by
  obtain ⟨n, addr, heq, haddr, -⟩ := smscField_eq smsc
  rw [heq, smscPart]
  exact List.take_left' (by rw [List.length_cons, haddr]; exact Nat.add_comm _ _)

/-- Both senders write the octet, the reference and then the rest behind the SMSC
field. -/
theorem behindReference_eq (smsc : Option (List UInt8)) (first mr : UInt8) (rest : List UInt8) :
    firstOctet (smscField smsc ++ first :: mr :: rest) = first ∧
      behindReference (smscField smsc ++ first :: mr :: rest) = rest := by
  obtain ⟨n, addr, heq, haddr, -⟩ := smscField_eq smsc
  have hlen : (smscField smsc).length = 1 + n.toNat := by
    rw [heq, List.length_cons, haddr, Nat.add_comm]
  have hhead : (smscField smsc ++ first :: mr :: rest).headD 0 = n := by
    rw [heq]
    rfl
  rw [firstOctet, behindReference, hhead]
  constructor
  · rw [List.getD_append_right _ _ _ _ (by omega), hlen, Nat.sub_self]
    rfl
  · have hsplit : smscField smsc ++ first :: mr :: rest =
        (smscField smsc ++ [first, mr]) ++ rest := by simp
    rw [hsplit]
    refine List.drop_left' ?_
    rw [List.length_append, hlen, List.length_cons, List.length_cons, List.length_nil]
    omega

theorem addressPart_eq (smsc : Option (List UInt8)) {number : List UInt8}
    (hdig : strlen (skipPlus number) ≤ 20) (first mr : UInt8) (rest : List UInt8) :
    addressPart (smscField smsc ++ first :: mr :: (daField number ++ rest)) = daField number ∧
      behindAddress (smscField smsc ++ first :: mr :: (daField number ++ rest)) = rest := by
  obtain ⟨d, bcd, hda, -, hbcd⟩ := daField_eq hdig
  have hlen : (daField number).length = addressLen (daField number ++ rest) := by
    rw [hda, List.length_cons, List.length_cons, hbcd]
    simp only [addressLen, List.cons_append, List.headD_cons]
    omega
  rw [addressPart, behindAddress, (behindReference_eq smsc first mr _).2]
  exact ⟨List.take_left' hlen, List.drop_left' hlen⟩

/-! ## Numbers -/

/-- What `encode_address` makes of a character that has passed the check. -/
def readAs (c : UInt8) : UInt8 := if c = 35 then 51 else if c = 59 then 43 else c

/-- **Two characters leave the same half octet** if they are read as the same. -/
theorem nibble_eq_iff {a b : UInt8} (ha : isDialChar a = true) (hb : isDialChar b = true) :
    nibble a = nibble b ↔ readAs a = readAs b := by
  -- the fifteen characters, and all pairs of them
  have hmem : ∀ i : Fin 256, isDialChar (UInt8.ofFin i) = true →
      UInt8.ofFin i ∈ ascii "0123456789+*#,;" := by decide +kernel
  have hall : ∀ a ∈ ascii "0123456789+*#,;", ∀ b ∈ ascii "0123456789+*#,;",
      nibble a = nibble b ↔ readAs a = readAs b := by decide +kernel
  exact hall a (hmem a.toFin ha) b (hmem b.toFin hb)

theorem map_eq_map_iff_of {α β γ : Type} {f : α → β} {f' : α → γ} {P : α → Prop}
    (h : ∀ a b, P a → P b → (f a = f b ↔ f' a = f' b)) {l l' : List α} (hl : ∀ a ∈ l, P a)
    (hl' : ∀ a ∈ l', P a) : l.map f = l'.map f ↔ l.map f' = l'.map f' := by
  induction l generalizing l' with
  | nil => cases l' <;> simp
  | cons a l ih =>
    cases l' with
    | nil => simp
    | cons a' l' =>
      rw [List.map_cons, List.map_cons, List.map_cons, List.map_cons, List.cons.injEq,
        List.cons.injEq, h a a' (hl a List.mem_cons_self) (hl' a' List.mem_cons_self),
        ih (fun x hx => hl x (List.mem_cons_of_mem _ hx))
          (fun x hx => hl' x (List.mem_cons_of_mem _ hx))]

theorem digitsOf_dial {number : List UInt8} (h : validatePhoneNumber (some number) = true) :
    ∀ c ∈ digitsOf number, isDialChar c = true := by
  rw [validatePhoneNumber, Bool.and_eq_true] at h
  intro c hc
  refine List.all_eq_true.mp h.2 c ?_
  rcases cstr_eq_digitsOf number with hd | hd <;> rw [hd]
  · exact hc
  · exact List.mem_cons_of_mem _ hc

/-- BCD digits are equal if what the characters leave is. -/
theorem bcdOctets_eq_iff {a b : List UInt8} (hlen : a.length = b.length) :
    bcdOctets a a.length = bcdOctets b b.length ↔ a.map nibble = b.map nibble := by
  constructor
  · intro h
    have hhalves := congrArg halves h
    rw [halves_bcdOctets (Nat.le_refl _), halves_bcdOctets (Nat.le_refl _), List.take_length,
      List.take_length] at hhalves
    exact (List.append_inj hhalves (by simp [hlen])).1
  · intro h
    rw [bcdOctets_eq, bcdOctets_eq, hlen]
    have hhalf (j : Nat) : halfAt a b.length j = halfAt b b.length j := by
      rw [halfAt, halfAt]
      split
      · rename_i hj
        have hget := congrArg (fun l => l.getD j 0) h
        simp only [List.getD_eq_getElem?_getD, List.getElem?_map,
          List.getElem?_eq_getElem (hlen ▸ hj : j < a.length), List.getElem?_eq_getElem hj] at hget
        rw [List.getD_eq_getElem _ _ (hlen ▸ hj), List.getD_eq_getElem _ _ hj]
        exact hget
      · rfl
    exact List.map_congr_left fun i _ => by rw [hhalf, hhalf]

/-- **Which numbers get the same address field.** -/
theorem daField_eq_iff {a b : List UInt8} (ha : validatePhoneNumber (some a) = true)
    (hb : validatePhoneNumber (some b) = true) (hlena : strlen (skipPlus a) ≤ 20)
    (hlenb : strlen (skipPlus b) ≤ 20) :
    daField a = daField b ↔ (digitsOf a).map readAs = (digitsOf b).map readAs := by
  rw [← map_eq_map_iff_of (fun a b => nibble_eq_iff) (digitsOf_dial ha) (digitsOf_dial hb), daField,
    daField, encodeAddress_eq hlena, encodeAddress_eq hlenb, List.cons.injEq, List.cons.injEq]
  constructor
  · rintro ⟨hn, -, hbcd⟩
    have hlen : (digitsOf a).length = (digitsOf b).length := by
      have hn' := congrArg UInt8.toNat hn
      rwa [UInt8.toNat_ofNat', UInt8.toNat_ofNat', Nat.mod_eq_of_lt (by omega),
        Nat.mod_eq_of_lt (by omega)] at hn'
    exact (bcdOctets_eq_iff hlen).mp hbcd
  · intro h
    have hlen : (digitsOf a).length = (digitsOf b).length := by
      simpa using congrArg List.length h
    exact ⟨congrArg UInt8.ofNat hlen, rfl, (bcdOctets_eq_iff hlen).mpr h⟩

/-! ## The SMSC -/

theorem of_readDigits {n : Nat} {hs l : List UInt8} (h : readDigits n hs = some l) :
    l = (hs.take n).map digitChar ∧ l.length = n := by
  rw [readDigits] at h
  split at h
  · rename_i hcond
    obtain rfl := Option.some.inj h
    exact ⟨rfl, by rw [List.length_map, hcond.1]⟩
  · cases h

theorem encodeAddress_tail (number : List UInt8) :
    (encodeAddress number).tail = bcdOctets (digitsOf number) (min (digitsOf number).length 20) := by
  rw [encodeAddress]
  dsimp only [List.tail_cons]
  congr 1
  rw [digitsOf]
  split <;> omega

/-- What is read from an SMSC field has been read from the half octets. -/
theorem of_readSmsc {m rest digits : List UInt8} {n : UInt8} (hn : n ≠ 0)
    (h : readSmsc (n :: encodeAddress m) = some (digits, rest))
    (hlen : (encodeAddress m).length = n.toNat) :
    ∃ count, readDigits count (halves (encodeAddress m).tail) = some digits := by
  rw [readSmsc, if_neg hn, List.take_of_length_le (Nat.le_of_eq hlen)] at h
  split at h
  · rename_i type bcd heq
    dsimp only at h
    split at h
    · obtain ⟨digits', hread, hpair⟩ := Option.map_eq_some_iff.mp h
      obtain ⟨rfl, -⟩ := Prod.mk.inj hpair
      rw [heq]
      exact ⟨_, hread⟩
    · cases h
  · cases h

/-- **Which SMSC is read back.** -/
theorem readSmsc_smscField_iff (smsc : Option (List UInt8)) :
    readSmsc (smscField smsc) = some (digitsOf (smsc.getD []), []) ↔
      (digitsOf (smsc.getD [])).length ≤ 20 ∧
        (digitsOf (smsc.getD [])).all isAddressChar = true := by
  constructor
  · intro h
    rw [smscField] at h
    split at h
    · rename_i hnil
      rw [digitsOf_eq_nil hnil]
      exact ⟨Nat.zero_le _, rfl⟩
    generalize smsc.getD [] = m at h ⊢
    have haddr := length_encodeAddress m
    have hn : (UInt8.ofNat (encodeAddress m).length).toNat = (encodeAddress m).length := by
      rw [UInt8.toNat_ofNat', Nat.mod_eq_of_lt (by omega)]
    have hn0 : UInt8.ofNat (encodeAddress m).length ≠ 0 := by
      intro h0
      rw [h0] at hn
      have hz : UInt8.toNat 0 = 0 := rfl
      omega
    obtain ⟨count, hread⟩ := of_readSmsc hn0 h hn.symm
    obtain ⟨hdigits, hcount⟩ := of_readDigits hread
    rw [encodeAddress_tail] at hdigits
    -- no more characters are read than there are half octets
    have hle : (digitsOf m).length ≤ 20 := by
      have hlen := congrArg List.length hdigits
      rw [List.length_map, List.length_take, halves_bcdOctets_range, List.length_map,
        List.length_range] at hlen
      omega
    refine ⟨hle, (map_digitChar_nibble_iff _).mp ?_⟩
    rw [Nat.min_eq_left hle, halves_bcdOctets (Nat.le_refl _), List.take_length, ← hcount,
      List.take_left' (List.length_map _)] at hdigits
    exact hdigits.symm
  · rintro ⟨hlen, h⟩
    have hread := readSmsc_smscField hlen h []
    rwa [List.append_nil] at hread

/-! ## The messages of a call -/

/-- A call that is accepted puts this message into the queue. (A text of one part
goes from `at_gsm_send_long` to `at_gsm_cmgs_pdu`.) -/
inductive Submits (cfg : Config) (smsc : Option (List UInt8)) (number : List UInt8) :
    List UInt8 → Prop
  /-- `at_gsm_cmgs_pdu` -/
  | single {stk : Stack} {cb : Option Ptr} {user : Ptr} {g g' : Engine cfg} {text pdu : List UInt8} :
    atGsmCmgsPdu stk cb user g smsc (some number) (some text) = (.ok, g') →
      cmgsPdu stk smsc (some number) (some text) = some pdu → Submits cfg smsc number pdu
  /-- a part of `at_gsm_send_long` -/
  | part {stks : Nat → Stack} {cb : Option Ptr} {user : Ptr} {g g' : Engine cfg}
      {text pdu : List UInt8} {refId : UInt8} {i : Nat} :
    atGsmSendLong stks cb user g smsc (some number) (some text) refId = (.ok, g') →
      1 < (atGsmPartCount (some text)).toNat → i < (atGsmPartCount (some text)).toNat →
      partPdu stks smsc number text refId (atGsmPartCount (some text)) i = some pdu →
      Submits cfg smsc number pdu

/-- Its number has passed the checks, and its fields are those of the arguments. -/
theorem Submits.spec {smsc : Option (List UInt8)} {number pdu : List UInt8}
    (h : Submits cfg smsc number pdu) :
    validatePhoneNumber (some number) = true ∧ strlen (skipPlus number) ≤ 20 ∧
      smscPart pdu = smscField smsc ∧ addressPart pdu = daField number := by
  cases h with
  | single hok hpdu =>
    obtain ⟨hdig, -, -, ud, -, heq⟩ := of_cmgsPdu hpdu
    refine ⟨?_, hdig, ?_, ?_⟩
    · rw [cmgsPdu] at hpdu
      split at hpdu
      · cases hpdu
      · rename_i hvalid
        simpa using hvalid
    · rw [heq, smscPart_eq]
    · rw [heq, (addressPart_eq smsc hdig _ _ _).1]
  | part hok _ _ hpdu =>
    obtain ⟨ud, n, hdig, -, -, heq⟩ := concatPdu_some _ hpdu
    refine ⟨?_, hdig, ?_, ?_⟩
    · rw [atGsmSendLong] at hok
      simpa using (of_guard (by decide) hok).1
    · rw [heq, smscPart_eq]
    · simp only [List.append_assoc, List.cons_append, List.nil_append] at heq
      rw [heq, (addressPart_eq smsc hdig _ _ _).1]

/-- **Which addresses are altered.** Two accepted numbers have different address
fields if and only if they differ with `#` read as `3` and `;` as `+`; an SMSC can be
read back from its field if and only if it has at most 20 characters behind the `+`,
digits and `*`. -/
theorem addresses_kept_iff (cfg : Config) :
    (∀ smsc smsc' a b pdu pdu', Submits cfg smsc a pdu → Submits cfg smsc' b pdu' →
      (addressPart pdu ≠ addressPart pdu' ↔
        (digitsOf a).map readAs ≠ (digitsOf b).map readAs)) ∧
    ∀ smsc number pdu, Submits cfg smsc number pdu →
      (readSmsc (smscPart pdu) = some (digitsOf (smsc.getD []), []) ↔
        (digitsOf (smsc.getD [])).length ≤ 20 ∧
          (digitsOf (smsc.getD [])).all isAddressChar = true) := by
  constructor
  · intro smsc smsc' a b pdu pdu' ha hb
    obtain ⟨hva, hlena, -, hfa⟩ := ha.spec
    obtain ⟨hvb, hlenb, -, hfb⟩ := hb.spec
    rw [hfa, hfb]
    exact (daField_eq_iff hva hvb hlena hlenb).not
  · intro smsc number pdu h
    obtain ⟨-, -, hsmsc, -⟩ := h.spec
    rw [hsmsc]
    exact readSmsc_smscField_iff smsc

/-- A single message from a fresh engine. -/
theorem submits_hi {smsc : Option (List UInt8)} {number pdu : List UInt8}
    (h : cmgsPdu .zero smsc (some number) (some (ascii "hi")) = some pdu) :
    Submits Config.default smsc number pdu := by
  have hroom : (atInit Config.default).qCount < Config.default.cmdQueueDepth := by decide
  obtain ⟨g', hg'⟩ := sendPdu_accepted .zero none 0 hroom pdu 401
  have hok : atGsmCmgsPdu .zero none 0 (atInit Config.default) smsc (some number)
      (some (ascii "hi")) = (.ok, g') := by
    rw [atGsmCmgsPdu, h]
    exact hg'
  exact .single hok h

/-- `12` and `13`, by way of an SMSC that is read back. -/
theorem addresses_kept_iff_12 :
    (∃ pdu pdu', Submits Config.default none (ascii "12") pdu ∧
      Submits Config.default none (ascii "13") pdu' ∧ addressPart pdu ≠ addressPart pdu') ∧
    ∃ pdu, Submits Config.default (some (ascii "+4912")) (ascii "12") pdu ∧
      readSmsc (smscPart pdu) = some (ascii "4912", []) := by
  have h12 : Submits Config.default none (ascii "12")
      [0x00, 0x01, 0x00, 0x02, 0x91, 0x21, 0x00, 0x00, 0x02, 0xE8, 0x34] :=
    submits_hi (by decide +kernel)
  have h13 : Submits Config.default none (ascii "13")
      [0x00, 0x01, 0x00, 0x02, 0x91, 0x31, 0x00, 0x00, 0x02, 0xE8, 0x34] :=
    submits_hi (by decide +kernel)
  have hsmsc : Submits Config.default (some (ascii "+4912")) (ascii "12")
      [0x03, 0x91, 0x94, 0x21, 0x01, 0x00, 0x02, 0x91, 0x21, 0x00, 0x00, 0x02, 0xE8, 0x34] :=
    submits_hi (by decide +kernel)
  refine ⟨⟨_, _, h12, h13, ?_⟩, _, hsmsc, ?_⟩
  · exact ((addresses_kept_iff _).1 none none _ _ _ _ h12 h13).mpr (by decide)
  · exact ((addresses_kept_iff _).2 _ _ _ hsmsc).mpr ⟨by decide, by decide⟩

/-- `1#` is sent as `13`, and an SMSC of 21 digits without the last one. -/
theorem addresses_altered :
    (∃ pdu, Submits Config.default none (ascii "1#") pdu ∧
      Submits Config.default none (ascii "13") pdu ∧
      digitsOf (ascii "1#") ≠ digitsOf (ascii "13")) ∧
    ∃ pdu, Submits Config.default (some (ascii "123456789012345678901")) (ascii "13") pdu ∧
      readSmsc (smscPart pdu) = some (ascii "12345678901234567890", []) := by
  have hhash : Submits Config.default none (ascii "1#")
      [0x00, 0x01, 0x00, 0x02, 0x91, 0x31, 0x00, 0x00, 0x02, 0xE8, 0x34] :=
    submits_hi (by decide +kernel)
  have hthree : Submits Config.default none (ascii "13")
      [0x00, 0x01, 0x00, 0x02, 0x91, 0x31, 0x00, 0x00, 0x02, 0xE8, 0x34] :=
    submits_hi (by decide +kernel)
  have hlong : Submits Config.default (some (ascii "123456789012345678901")) (ascii "13")
      [0x0B, 0x91, 0x21, 0x43, 0x65, 0x87, 0x09, 0x21, 0x43, 0x65, 0x87, 0x09,
        0x01, 0x00, 0x02, 0x91, 0x31, 0x00, 0x00, 0x02, 0xE8, 0x34] :=
    submits_hi (by decide +kernel)
  exact ⟨⟨_, hhash, hthree, by decide⟩, _, hlong, by decide +kernel⟩

end LibAt
