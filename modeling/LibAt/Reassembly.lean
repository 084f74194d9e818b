import LibAt.Concat

/-!
# Reading the parts of a long message

`decodeSubmit` reads an SMS-SUBMIT with a concatenation header the way a
receiver does, and `Reassembles` says that the parts of a message, so read,
give the message back. No message of more than one part does
(`never_reassembles`): `send_concat_part` writes the user data header before
the octet that counts the user data, so the receiver takes the header's own
length for the length of the user data, and what follows for the header
(`decodeSubmit_eq_none`). The queue entries of the parts are found by
`sendParts_stored`.
-/

namespace LibAt

open Circular (window slot)

variable {cfg : Config}

/-! ## The receiver -/

/-- What a receiver reads from one part. -/
structure SmsPart where
  ref : UInt8
  total : UInt8
  number : UInt8
  text : List UInt8
  deriving DecidableEq, Repr

/-- The septet that starts at bit `bit`, low bits first. -/
def septetAt (ud : List UInt8) (bit : Nat) : UInt8 :=
  let pair := (ud.getD (bit / 8) 0).toNat + 256 * (ud.getD (bit / 8 + 1) 0).toNat
  UInt8.ofNat (pair / 2 ^ (bit % 8) % 128)

/-- Read an SMS-SUBMIT with a concatenation header: SMSC field, first octet,
message reference, address, PID, DCS, user data length, user data. The header
takes six octets of the user data, and the text starts at the next septet. -/
def decodeSubmit : List UInt8 → Option SmsPart
  | [] => none
  | smscLen :: o =>
    match o.drop smscLen.toNat with
    | first :: _mr :: daLen :: _daType :: o =>
      match o.drop ((daLen.toNat + 1) / 2) with
      | _pid :: _dcs :: udl :: ud =>
        match ud with
        | udhl :: iei :: iedl :: ref :: total :: number :: _ =>
          if first = 0x41 ∧ udhl = 0x05 ∧ iei = 0x00 ∧ iedl = 0x03 then
            some ⟨ref, total, number, (List.range (udl.toNat - 7)).map fun k =>
              gsm7SeptetToAscii (septetAt ud (49 + 7 * k))⟩
          else none
        | _ => none
      | _ => none
    | _ => none

/-- The first of two parts, reference 7, with the text `hi`. -/
example : decodeSubmit [0x00, 0x41, 0x00, 0x04, 0x91, 0x21, 0x43, 0x00, 0x00, 0x09,
    0x05, 0x00, 0x03, 0x07, 0x02, 0x01, 0xD0, 0x69] = some ⟨7, 2, 1, ascii "hi"⟩ := by decide

/-- What a receiver reads from the body of a command. -/
def decodeBody (e : CmdEntry cfg) : Option SmsPart := (hexDecode e.body.bytes).bind decodeSubmit

/-- All parts can be read and carry the reference and their total, they are
numbered from one on, and their texts together are the text. -/
def Reassembles (text : List UInt8) (refId : UInt8) (es : List (CmdEntry cfg)) : Prop :=
  ∃ parts : List SmsPart, es.map decodeBody = parts.map some ∧
    (∀ p ∈ parts, p.ref = refId ∧ p.total.toNat = parts.length) ∧
    parts.map (fun p => p.number.toNat) = (List.range parts.length).map (· + 1) ∧
    parts.flatMap SmsPart.text = text

/-- One part that cannot be read is enough. -/
theorem not_reassembles_of_head {text : List UInt8} {refId : UInt8} {es : List (CmdEntry cfg)}
    (h : (es.map decodeBody).head? = some none) : ¬Reassembles text refId es := by
  rintro ⟨parts, hparts, -⟩
  rw [hparts] at h
  cases parts with
  | nil => exact nomatch h
  | cons p parts => exact nomatch h

/-! ## What is read where -/

theorem eq_append_of_drop {α : Type} {l r : List α} {k : Nat} {x : α} (h : l.drop k = x :: r) :
    l = l.take k ++ x :: r ∧ (l.take k).length = k := by
  refine ⟨by rw [← h, List.take_append_drop], ?_⟩
  have hlen := congrArg List.length h
  rw [List.length_drop, List.length_cons] at hlen
  rw [List.length_take]
  omega

/-- The octets of anything that can be read. -/
theorem of_decodeSubmit {o : List UInt8} {p : SmsPart} (h : decodeSubmit o = some p) :
    ∃ (smscLen mr daLen daType pid dcs udl : UInt8) (smsc bcd rest : List UInt8),
      smsc.length = smscLen.toNat ∧ bcd.length = (daLen.toNat + 1) / 2 ∧
      o = smscLen :: (smsc ++ 0x41 :: mr :: daLen :: daType ::
        (bcd ++ pid :: dcs :: udl :: 0x05 :: 0x00 :: 0x03 :: rest)) := by
  obtain _ | ⟨smscLen, o⟩ := o
  · exact nomatch h
  rw [decodeSubmit] at h
  split at h
  · rename_i first mr daLen daType o' ho
    split at h
    · rename_i pid dcs udl ud ho'
      split at h
      · rename_i udhl iei iedl ref total number rest
        split at h
        · rename_i hcond
          obtain ⟨rfl, rfl, rfl, rfl⟩ := hcond
          obtain ⟨hsmsc, hsmscLen⟩ := eq_append_of_drop ho
          obtain ⟨hbcd, hbcdLen⟩ := eq_append_of_drop ho'
          refine ⟨smscLen, mr, daLen, daType, pid, dcs, udl, o.take smscLen.toNat,
            o'.take ((daLen.toNat + 1) / 2), ref :: total :: number :: rest, hsmscLen, hbcdLen, ?_⟩
          rw [← hbcd, ← hsmsc]
        · exact nomatch h
      · exact nomatch h
    · exact nomatch h
  · exact nomatch h

/-- **The header stands in the wrong place.** Of the octets of a part, and of any
beginning of them, a receiver can make nothing: it takes 05 for the length of
the user data, which then does not begin with 05. -/
theorem decodeSubmit_eq_none {stk : Stack} {smsc : Option (List UInt8)}
    {number segText : List UInt8} {segLen : Nat} {refId totalParts partNum : UInt8}
    {pdu o : List UInt8}
    (h : concatPdu stk smsc number segText segLen refId totalParts partNum = some pdu)
    (ho : o <+: pdu) : decodeSubmit o = none := by
  rcases hp : decodeSubmit o with _ | p
  · rfl
  obtain ⟨smscLen, mr, daLen, daType, pid, dcs, udl, smsc', bcd', rest, hsmsc', hbcd', rfl⟩ :=
    of_decodeSubmit hp
  obtain ⟨ud, n, hdig, -, -, rfl⟩ := concatPdu_some stk h
  obtain ⟨k, addr, hfield, haddr, -⟩ := smscField_eq smsc
  obtain ⟨d, bcd, hda, -, hbcd⟩ := daField_eq hdig
  obtain ⟨t, ht⟩ := ho
  rw [hfield, hda] at ht
  simp only [List.cons_append, List.append_assoc, List.nil_append, List.cons.injEq] at ht
  -- the SMSC fields are equally long, then the addresses
  obtain ⟨rfl, ht⟩ := ht
  obtain ⟨-, ht⟩ := List.append_inj ht (by rw [hsmsc', haddr])
  simp only [List.cons.injEq, true_and] at ht
  obtain ⟨-, rfl, -, ht⟩ := ht
  obtain ⟨-, ht⟩ := List.append_inj ht (by rw [hbcd', hbcd])
  simp only [List.cons.injEq] at ht
  exact absurd ht.2.2.2.1 (by decide)

/-! ## What the loop stores -/

/-- The queue entries between two positions of `q_head`: as many as `q_count`
has grown by. -/
def Engine.added (g g' : Engine cfg) : List (CmdEntry cfg) :=
  window g'.queue g.qHead (g'.qCount - g.qCount)

/-- What `rounds` rounds of the loop, from round `i` on, have done. -/
structure Stored (stks : Nat → Stack) (cb : Option Ptr) (user : Ptr)
    (pdus : Nat → Option (List UInt8)) (rounds i : Nat) (g g' : Engine cfg) : Prop where
  /-- the count has grown by one a part, -/
  count : g'.qCount = g.qCount + rounds
  /-- within the queue; -/
  room : rounds = 0 ∨ g'.qCount ≤ cfg.cmdQueueDepth
  /-- other slots are as they were; -/
  frame : ∀ s, (∀ j < rounds, slot g.qHead j ≠ s) → g'.queue s = g.queue s
  /-- and these hold the parts. -/
  entry : ∀ j < rounds, ∃ pdu, pdus (i + j) = some pdu ∧
    g'.queue (slot g.qHead j) = partEntry stks cb user (i + j) pdu

theorem sendParts_stored (hfit : cfg.Fits) {stks : Nat → Stack} {cb : Option Ptr} {user : Ptr}
    {smsc : Option (List UInt8)} {number text : List UInt8} {refId nParts : UInt8}
    (rounds : Nat) : ∀ {i : Nat} {g g' : Engine cfg},
      sendParts stks cb user smsc number text refId nParts rounds i g = (.ok, g') →
      Stored stks cb user (partPdu stks smsc number text refId nParts) rounds i g g' := by
  have hdepth := hfit.depth
  induction rounds with
  | zero =>
    intro i g g' h
    obtain rfl : g = g' := (Prod.mk.inj h).2
    exact ⟨rfl, .inl rfl, fun s _ => rfl, fun j hj => absurd hj (Nat.not_lt_zero _)⟩
  | succ rounds ih =>
    intro i g g' h
    rcases hpdu : partPdu stks smsc number text refId nParts i with _ | pdu
    · rw [sendParts_none hpdu] at h
      exact nomatch (Prod.mk.inj h).1
    rw [sendParts_succ hpdu] at h
    obtain ⟨hroom, h⟩ := of_guard (by decide) h
    have hs := ih h
    have hcount : (addPart stks cb user i pdu g).qCount = g.qCount + 1 :=
      Nat.mod_eq_of_lt (by omega)
    have hhead : (addPart stks cb user i pdu g).qHead = slot g.qHead 1 := nextSlot_eq hfit _
    have hle : g.qCount + rounds < cfg.cmdQueueDepth := by
      have := hs.room
      rw [hs.count, hcount] at this
      omega
    -- the slots of the later parts do not come round to this one
    have hself : g'.queue g.qHead = partEntry stks cb user i pdu := by
      rw [hs.frame g.qHead ?_]
      · exact Function.update_self _ _ _
      · intro j hj heq
        rw [hhead, Circular.slot_slot] at heq
        have := Circular.slot_inj (by omega) (by omega) (heq.trans (Circular.slot_zero _).symm)
        omega
    refine ⟨by rw [hs.count, hcount]; omega, .inr (by rw [hs.count, hcount]; omega), ?_, ?_⟩
    · intro s hne
      rw [hs.frame s ?_]
      · refine Function.update_of_ne (fun heq => ?_) _ _
        exact hne 0 (Nat.succ_pos _) (by rw [Circular.slot_zero, heq])
      · intro j hj heq
        rw [hhead, Circular.slot_slot] at heq
        exact hne (1 + j) (by omega) heq
    · intro j hj
      match j with
      | 0 => exact ⟨pdu, hpdu, by rw [Circular.slot_zero]; exact hself⟩
      | j + 1 =>
        obtain ⟨pdu', hpdu', hentry⟩ := hs.entry j (by omega)
        rw [hhead, Circular.slot_slot, Nat.add_comm 1 j] at hentry
        rw [Nat.add_assoc, Nat.add_comm 1 j] at hpdu' hentry
        exact ⟨pdu', hpdu', hentry⟩

/-- A text of more than one part that is sent goes through the loop. -/
theorem of_sendLong_ok {stks : Nat → Stack} {cb : Option Ptr} {user : Ptr} {g g' : Engine cfg}
    {smsc : Option (List UInt8)} {number text : List UInt8} {refId : UInt8}
    (hlong : 160 < strlen text)
    (h : atGsmSendLong stks cb user g smsc (some number) (some text) refId = (.ok, g')) :
    2 ≤ (atGsmPartCount (some text)).toNat ∧
      sendParts stks cb user smsc number text refId (atGsmPartCount (some text))
        (atGsmPartCount (some text)).toNat 0 g = (.ok, g') := by
  rw [atGsmSendLong] at h
  obtain ⟨-, h⟩ := of_guard (by decide) h
  obtain ⟨h0, h⟩ := of_guard (by decide) h
  split at h
  · -- the 8-bit count has come round to one: the text does not fit a single PDU
    exfalso
    rw [atGsmCmgsPdu] at h
    rcases hp : cmgsPdu (stks 0) smsc (some number) (some text) with _ | pdu
    · rw [hp] at h
      exact absurd (Prod.mk.inj h).1 (by decide)
    · obtain ⟨num, txt, ud, -, htxt, -, hlen, -⟩ := cmgsPdu_some _ hp
      obtain rfl := Option.some.inj htxt
      omega
  · rename_i h1
    have h0' : (atGsmPartCount (some text)).toNat ≠ 0 := fun hn => h0 (UInt8.toNat_inj.mp hn)
    have h1' : (atGsmPartCount (some text)).toNat ≠ 1 := fun hn => h1 (UInt8.toNat_inj.mp hn)
    exact ⟨by omega, h⟩

/-- **No long message can be put together.** Whenever `at_gsm_send_long` accepts
a text of more than 160 characters, the parts it has put into the queue do not
give the text back. -/
theorem never_reassembles (hfit : cfg.Fits) (stks : Nat → Stack) (cb : Option Ptr) (user : Ptr)
    (g g' : Engine cfg) (smsc : Option (List UInt8)) (number text : List UInt8) (refId : UInt8)
    (hlong : 160 < strlen text)
    (h : atGsmSendLong stks cb user g smsc (some number) (some text) refId = (.ok, g')) :
    ¬Reassembles (cstr text) refId (g.added g') := by
  obtain ⟨h2, hparts⟩ := of_sendLong_ok hlong h
  have hs := sendParts_stored hfit _ hparts
  obtain ⟨pdu, hpdu, hentry⟩ := hs.entry 0 (by omega)
  -- the first part is the head of what was added
  obtain ⟨m, hm⟩ : ∃ m, g'.qCount - g.qCount = m + 1 :=
    ⟨(atGsmPartCount (some text)).toNat - 1, by rw [hs.count]; omega⟩
  apply not_reassembles_of_head
  rw [Engine.added, hm, Circular.window_succ, List.map_cons, List.head?_cons]
  rw [Circular.slot_zero] at hentry
  refine congrArg some ?_
  rw [decodeBody, hentry]
  -- its body is the text of the PDU, possibly cut
  have hbody : (partEntry stks cb user (0 + 0) pdu : CmdEntry cfg).body.bytes =
      (hexOf pdu).take (cfg.txBufSize * 2 - 1) := by
    have hlen := concatPdu_length _ hpdu
    rw [partEntry, hexEncode_eq (by omega)]
    exact congrArg (List.take _) (cstr_eq_self (zero_notMem_hexOf pdu))
  rw [hbody]
  rcases hdec : hexDecode ((hexOf pdu).take (cfg.txBufSize * 2 - 1)) with _ | o
  · rfl
  · exact decodeSubmit_eq_none hpdu (isPrefix_of_hexDecode_take pdu _ hdec)

/-- Sending the two-part text from a fresh engine. -/
def sendTwoParts : AtResult × Engine Config.default :=
  atGsmSendLong (fun _ => .zero) none 0 (atInit _) none (some (ascii "+491234")) (some twoPartText) 1

theorem never_reassembles_twoPart : sendTwoParts = (.ok, sendTwoParts.2) ∧
    ¬Reassembles (cstr twoPartText) 1 ((atInit Config.default).added sendTwoParts.2) :=
  have hrun := eq_ok_of_fst (show sendTwoParts.1 = .ok by decide +kernel)
  ⟨hrun, never_reassembles Config.default_fits _ none 0 _ _ none (ascii "+491234") twoPartText 1
    (by decide +kernel) hrun⟩

/-- The two parts are in the queue, and the first cannot be read. -/
theorem twoPart_unreadable : sendTwoParts.1 = .ok ∧
    ((atInit Config.default).added sendTwoParts.2).length = 2 ∧
    ¬Reassembles (cstr twoPartText) 1 ((atInit Config.default).added sendTwoParts.2) :=
  ⟨by decide +kernel, by decide +kernel, not_reassembles_of_head (by decide +kernel)⟩

end LibAt
