import LibAt.Addresses

/-!
# The segments of a long message

`at_gsm_send_long` cuts a text into segments of 153 characters, one a part. How
many there are is computed by `at_gsm_part_count`, and returned in eight bits. A
message that is sent carries the text in segments (`segmentOf_partPdu`), and these
are the whole text as long as the count is right and the messages fit the slot for
a body (`sentWhole_iff`). From 256 parts on the count is too small, and all the text
behind the parts it counts is left out; and the empty text is sent as one segment
that is empty.
-/

namespace LibAt

variable {cfg : Config}

/-! ## Cutting a list -/

/-- Slices one behind the other are the list up to the last one. -/
theorem flatten_slices {α : Type} (l : List α) (k n : Nat) :
    ((List.range n).map fun i => (l.drop (i * k)).take k).flatten = l.take (n * k) := by
  induction n with
  | zero => simp
  | succ n ih =>
    rw [List.range_succ, List.map_append, List.flatten_append, ih, Nat.succ_mul, List.take_add]
    simp

/-! ## The segment of a message -/

/-- The text of a message as the senders lay it out: behind the address come PID
and DCS, in a part of several (first octet 41) the six octets of the header, the
number of septets, of which the header counts for seven, and the septets. -/
def segmentOf (pdu : List UInt8) : Option (List UInt8) :=
  if firstOctet pdu = 0x01 then
    match behindAddress pdu with
    | _pid :: _dcs :: udl :: ud => readText udl.toNat ud
    | _ => none
  else if firstOctet pdu = 0x41 then
    match behindAddress pdu with
    | _pid :: _dcs :: _ :: _ :: _ :: _ref :: _total :: _number :: udl :: ud =>
      readText (udl.toNat - 7) ud
    | _ => none
  else none

/-- A single message carries its text. -/
theorem segmentOf_cmgsPdu {stk : Stack} {smsc : Option (List UInt8)} {number text pdu : List UInt8}
    (h : cmgsPdu stk smsc (some number) (some text) = some pdu) :
    segmentOf pdu = some (cstr text) := by
  obtain ⟨hdig, hlen, himg, ud, hud, rfl⟩ := of_cmgsPdu h
  have hudl : (UInt8.ofNat (strlen text)).toNat = (cstr text).length := by
    rw [UInt8.toNat_ofNat', Nat.mod_eq_of_lt (by omega)]
    rfl
  rw [segmentOf, (behindReference_eq smsc _ _ _).1, if_pos rfl, (addressPart_eq smsc hdig _ _ _).2]
  simp only [hudl]
  exact readText_packed himg hud

/-- What `send_concat_part` builds, with the septets. -/
theorem of_concatPdu {stk : Stack} {smsc : Option (List UInt8)} {number segText pdu : List UInt8}
    {segLen : Nat} {refId totalParts partNum : UInt8}
    (h : concatPdu stk smsc number segText segLen refId totalParts partNum = some pdu) :
    strlen (skipPlus number) ≤ 20 ∧ ∃ seg, seg = (cstr segText).take (min segLen 153) ∧
      seg.all gsm7Image = true ∧ ∃ ud, Packed 7 (septets seg) ud ∧
        pdu = smscField smsc ++ 0x41 :: 0x00 :: (daField number ++ 0x00 :: 0x00 :: 0x05 :: 0x00 ::
          0x03 :: refId :: totalParts :: partNum :: UInt8.ofNat (7 + seg.length) :: ud) := by
  obtain ⟨ud, udLen, nChars, hdig, henc, rfl⟩ := concatPdu_encodes stk h
  obtain ⟨-, -, rfl, rfl⟩ := atGsm7Encode_some henc
  have himg := (of_atGsm7Encode_ok henc).2.1
  have hud := (atGsm7Encode_packed henc).1
  rw [cstr_take] at himg hud
  refine ⟨hdig, _, rfl, himg, _, hud, ?_⟩
  rw [← cstr_take]
  simp only [List.append_assoc, List.cons_append, List.nil_append, strlen]

/-- A part carries its segment. -/
theorem segmentOf_concatPdu {stk : Stack} {smsc : Option (List UInt8)}
    {number segText pdu : List UInt8} {segLen : Nat} {refId totalParts partNum : UInt8}
    (h : concatPdu stk smsc number segText segLen refId totalParts partNum = some pdu) :
    segmentOf pdu = some ((cstr segText).take (min segLen 153)) := by
  obtain ⟨hdig, seg, hseg, himg, ud, hud, rfl⟩ := of_concatPdu h
  have hlen : seg.length ≤ 153 := by
    rw [hseg, List.length_take]
    omega
  have hudl : (UInt8.ofNat (7 + seg.length)).toNat - 7 = seg.length := by
    rw [UInt8.toNat_ofNat', Nat.mod_eq_of_lt (by omega)]
    omega
  rw [segmentOf, (behindReference_eq smsc _ _ _).1, if_neg (by decide), if_pos rfl,
    (addressPart_eq smsc hdig _ _ _).2, ← hseg]
  simp only [hudl]
  exact readText_packed himg hud

/-- Segment `i` of the text. -/
def segment (text : List UInt8) (i : Nat) : List UInt8 := ((cstr text).drop (i * 153)).take 153

/-- **Round `i` of the loop sends segment `i`**, if the text is that long. -/
theorem segmentOf_partPdu {stks : Nat → Stack} {smsc : Option (List UInt8)}
    {number text : List UInt8} {refId nParts : UInt8} {i : Nat} {pdu : List UInt8} (hi : i * 153 ≤ strlen text)
    (h : partPdu stks smsc number text refId nParts i = some pdu) :
    segmentOf pdu = some (segment text i) := by
  rw [partPdu, segLen_eq, gsm7ConcatMax] at h
  rw [segmentOf_concatPdu h, cstr_drop text hi, segment]
  congr 1
  have hlen : ((cstr text).drop (i * 153)).length = strlen text - i * 153 := List.length_drop
  rcases Nat.le_total (strlen text - i * 153) 153 with hle | hle
  · rw [List.take_of_length_le (by omega), List.take_of_length_le (by omega)]
  · rw [Nat.min_eq_right hle, Nat.min_self]

/-! ## What is put into the queue -/

/-- Put an entry into the queue. -/
def Engine.enqueue (g : Engine cfg) (e : CmdEntry cfg) : Engine cfg :=
  { g with
    queue := Function.update g.queue g.qHead e
    qHead := nextSlot g.qHead
    qCount := (g.qCount + 1) % 256 }

/-- The body of the entry is the text of a message with this segment, to its last
octet. -/
def Carries (e : CmdEntry cfg) (seg : List UInt8) : Prop :=
  ∃ pdu, segmentOf pdu = some seg ∧ e.body.bytes = hexOf pdu

/-- From `g` to `g'`, messages with these segments have been put into the queue, in
this order, and nothing else has been done. -/
def Enqueued (g g' : Engine cfg) (segs : List (List UInt8)) : Prop :=
  ∃ es : List (CmdEntry cfg), List.Forall₂ Carries es segs ∧ g' = es.foldl Engine.enqueue g

/-- The entry for a message of one part. -/
def singleEntry (stk : Stack) (cb : Option Ptr) (user : Ptr) (pdu : List UInt8) : CmdEntry cfg :=
  cmdEntryOf cfg ⟨some (cmdMem stk pdu), some (hexEncode pdu 401), cfg.promptTimeoutMs, .sms, cb, user⟩

/-- A single message is one entry. -/
theorem atGsmCmgsPdu_enqueues {stk : Stack} {cb : Option Ptr} {user : Ptr} {g g' : Engine cfg}
    {smsc : Option (List UInt8)} {number text : List UInt8}
    (h : atGsmCmgsPdu stk cb user g smsc (some number) (some text) = (.ok, g')) :
    ∃ pdu, cmgsPdu stk smsc (some number) (some text) = some pdu ∧
      g' = g.enqueue (singleEntry stk cb user pdu) := by
  rw [atGsmCmgsPdu] at h
  split at h
  · cases (Prod.mk.inj h).1
  rename_i pdu hpdu
  rw [sendPdu_eq] at h
  obtain ⟨-, -, hg'⟩ := atSend_ok h
  exact ⟨pdu, hpdu, hg'⟩

/-- **The loop puts one entry a part into the queue**, in order. -/
theorem sendParts_enqueues {stks : Nat → Stack} {cb : Option Ptr} {user : Ptr}
    {smsc : Option (List UInt8)} {number text : List UInt8} {refId nParts : UInt8} (rounds : Nat) :
    ∀ {i : Nat} {g g' : Engine cfg},
      sendParts stks cb user smsc number text refId nParts rounds i g = (.ok, g') →
      ∃ es, g' = es.foldl Engine.enqueue g ∧ List.Forall₂ (fun e j => ∃ pdu,
        partPdu stks smsc number text refId nParts j = some pdu ∧
          e = partEntry stks cb user j pdu) es (List.range' i rounds) := by
  induction rounds with
  | zero =>
    intro i g g' h
    obtain rfl : g = g' := (Prod.mk.inj h).2
    exact ⟨[], rfl, .nil⟩
  | succ rounds ih =>
    intro i g g' h
    rcases hpdu : partPdu stks smsc number text refId nParts i with _ | pdu
    · rw [sendParts_none hpdu] at h
      cases (Prod.mk.inj h).1
    rw [sendParts_succ hpdu] at h
    obtain ⟨-, h⟩ := of_guard (by decide) h
    obtain ⟨es, hg', hes⟩ := ih h
    rw [List.range'_succ]
    exact ⟨partEntry stks cb user i pdu :: es, hg', .cons ⟨pdu, hpdu, rfl⟩ hes⟩

/-- The body of a part is its text, cut to the slot. -/
theorem partEntry_body {stks : Nat → Stack} {cb : Option Ptr} {user : Ptr}
    {smsc : Option (List UInt8)} {number text : List UInt8} {refId nParts : UInt8} {i : Nat}
    {pdu : List UInt8} (hpdu : partPdu stks smsc number text refId nParts i = some pdu) :
    (partEntry stks cb user i pdu : CmdEntry cfg).body.bytes =
      (hexOf pdu).take (cfg.txBufSize * 2 - 1) := by
  have hlen := concatPdu_length _ hpdu
  rw [partEntry, hexEncode_eq (by omega)]
  exact congrArg (List.take _) (cstr_eq_self (zero_notMem_hexOf pdu))

/-- The body of a single message is its text, cut to the slot. -/
theorem singleEntry_body {stk : Stack} {cb : Option Ptr} {user : Ptr}
    {smsc : Option (List UInt8)} {number text pdu : List UInt8}
    (hpdu : cmgsPdu stk smsc (some number) (some text) = some pdu) :
    (singleEntry stk cb user pdu : CmdEntry cfg).body.bytes =
      (hexOf pdu).take (cfg.txBufSize * 2 - 1) := by
  have hlen := length_cmgsPdu_le hpdu
  rw [singleEntry, hexEncode_eq (by omega)]
  exact congrArg (List.take _) (cstr_eq_self (zero_notMem_hexOf pdu))

/-! ## The length of the messages -/

/-- Octets of the longest message of a text of `n` characters, of its first part if
it takes several: 12 for the SMSC, two, 12 for the address, and the rest. -/
def longestPdu (n : Nat) : Nat := if n ≤ 160 then 29 + (7 * n + 7) / 8 else 169

/-- 20 digits, the longest number for a PDU. -/
def fullNumber : List UInt8 := List.replicate 20 49

/-- The fields of a single message. -/
theorem length_cmgsPdu {stk : Stack} {smsc : Option (List UInt8)} {number text pdu : List UInt8}
    (h : cmgsPdu stk smsc (some number) (some text) = some pdu) :
    pdu.length = (smscField smsc).length + (strlen (skipPlus number) + 1) / 2 + 7 +
      (7 * strlen text + 7) / 8 := by
  obtain ⟨hdig, -, -, ud, hud, rfl⟩ := of_cmgsPdu h
  have hudLen : ud.length = (7 * strlen text + 7) / 8 := by
    rw [hud.length, length_septets, strlen]
  simp only [List.length_append, List.length_cons, length_daField hdig, hudLen]
  omega

/-- The fields of a part. -/
theorem length_partPdu {stks : Nat → Stack} {smsc : Option (List UInt8)}
    {number text pdu : List UInt8} {refId nParts : UInt8} {i : Nat} (hi : i * 153 ≤ strlen text)
    (h : partPdu stks smsc number text refId nParts i = some pdu) :
    strlen (skipPlus number) ≤ 20 ∧
      pdu.length = (smscField smsc).length + (strlen (skipPlus number) + 1) / 2 + 13 +
        (7 * min (strlen text - i * 153) 153 + 7) / 8 := by
  rw [partPdu, segLen_eq, gsm7ConcatMax] at h
  obtain ⟨hdig, seg, hseg, -, ud, hud, rfl⟩ := of_concatPdu h
  have hsegLen : seg.length = min (strlen text - i * 153) 153 := by
    rw [hseg, cstr_drop text hi, List.length_take, List.length_drop]
    change min _ (strlen text - i * 153) = _
    omega
  have hudLen : ud.length = (7 * min (strlen text - i * 153) 153 + 7) / 8 := by
    rw [hud.length, length_septets, hsegLen]
  refine ⟨hdig, ?_⟩
  simp only [List.length_append, List.length_cons, length_daField hdig, hudLen]
  omega

/-- A message whose octets fit the slot is there whole. -/
theorem Carries.of_cut {e : CmdEntry cfg} {seg pdu : List UInt8} (hseg : segmentOf pdu = some seg)
    (hbody : e.body.bytes = (hexOf pdu).take (cfg.txBufSize * 2 - 1))
    (hlen : pdu.length < cfg.txBufSize) : Carries e seg := by
  refine ⟨pdu, hseg, ?_⟩
  rw [hbody]
  apply List.take_of_length_le
  rw [length_hexOf]
  omega

/-- **A message that is cut is no message**: the last octet has one digit only. -/
theorem not_carries_of_cut {e : CmdEntry cfg} {seg pdu : List UInt8}
    (hbody : e.body.bytes = (hexOf pdu).take (cfg.txBufSize * 2 - 1))
    (hlen : cfg.txBufSize ≤ pdu.length) : ¬Carries e seg := by
  rintro ⟨pdu', -, hbody'⟩
  have hpos := cfg.tx_pos
  have hodd := congrArg List.length (hbody.symm.trans hbody')
  rw [List.length_take, length_hexOf, length_hexOf] at hodd
  omega

/-! ## The number of parts -/

/-- As many parts as the text needs. -/
def partsNeeded (len : Nat) : Nat := if len ≤ 160 then 1 else (len + 152) / 153

/-- **The count is right** up to 255 parts, and is what is left of it in eight bits
from there on. -/
theorem toNat_atGsmPartCount {text : List UInt8} (himg : (cstr text).all gsm7Image = true) :
    (atGsmPartCount (some text)).toNat = partsNeeded (strlen text) % 256 := by
  rw [atGsmPartCount, partsNeeded]
  split
  · rename_i h0
    rw [h0]
    rfl
  · rw [if_neg (by simpa using himg), gsm7SingleMax, gsm7ConcatMax]
    split
    · rfl
    · rw [UInt8.toNat_ofNat', Nat.add_sub_assoc (by decide)]

theorem atGsmPartCount_invalid {text : List UInt8} (himg : (cstr text).all gsm7Image = false) :
    atGsmPartCount (some text) = 0 := by
  rw [atGsmPartCount]
  split
  · rename_i h0
    rw [List.length_eq_zero_iff.mp h0] at himg
    cases himg
  · rw [himg]
    rfl

/-- 255 parts hold 39015 characters. -/
theorem partsNeeded_lt_iff (len : Nat) : partsNeeded len < 256 ↔ len ≤ 39015 := by
  rw [partsNeeded]
  split <;> omega

/-! ## Long messages -/

/-- The segments are the whole text: in order, as many as it needs, none longer than
a message holds, and none empty. -/
structure Whole (text : List UInt8) (segs : List (List UInt8)) : Prop where
  join : segs.flatten = text
  count : segs.length = partsNeeded text.length
  size : ∀ s ∈ segs, s.length ≤ if text.length ≤ 160 then 160 else 153
  nonempty : ∀ s ∈ segs, s ≠ []

/-- **The segments of the loop are the whole text.** -/
theorem whole_segments {text : List UInt8} (hlen : 160 < strlen text) :
    Whole (cstr text) ((List.range (partsNeeded (strlen text))).map (segment text)) := by
  have hlen' : ¬(cstr text).length ≤ 160 := Nat.not_le.mpr hlen
  have hn : partsNeeded (strlen text) = (strlen text + 152) / 153 := if_neg hlen'
  refine ⟨?_, ?_, ?_, ?_⟩
  · rw [show List.map (segment text) = List.map fun i => ((cstr text).drop (i * 153)).take 153 from
      rfl, flatten_slices, hn]
    exact List.take_of_length_le (show strlen text ≤ _ by omega)
  · rw [List.length_map, List.length_range]
    rfl
  · intro s hs
    obtain ⟨i, -, rfl⟩ := List.mem_map.mp hs
    rw [if_neg hlen', segment]
    exact List.length_take_le _ _
  · intro s hs hnil
    obtain ⟨i, hi, rfl⟩ := List.mem_map.mp hs
    have hi' := List.mem_range.mp hi
    have hl := congrArg List.length hnil
    rw [segment, List.length_take, List.length_drop, List.length_nil] at hl
    have hstr : (cstr text).length = strlen text := rfl
    omega

/-- What the two functions promise for a text: the count is 0 for a text that is no
text of the alphabet, and otherwise that of the parts it needs; no part starts
behind the end of the text; and a message that is accepted is the whole text. -/
structure SentWhole (cfg : Config) (text : Option (List UInt8)) : Prop where
  invalid : atGsmPartCount text = 0 ↔ atGsm7IsValid text = false
  count : ∀ t, text = some t → atGsm7IsValid text = true →
    (atGsmPartCount text).toNat = partsNeeded (strlen t)
  offset : ∀ t, text = some t → ∀ i < (atGsmPartCount text).toNat, i * gsm7ConcatMax ≤ strlen t
  whole : ∀ t, text = some t → ∀ (stks : Nat → Stack) (cb : Option Ptr) (user : Ptr)
    (g g' : Engine cfg) (smsc number : Option (List UInt8)) (refId : UInt8),
    atGsmSendLong stks cb user g smsc number text refId = (.ok, g') →
      ∃ segs, Whole (cstr t) segs ∧ Enqueued g g' segs

/-- The condition. A text that is one has a character, needs no more than 255 parts,
and its messages fit the slot for a body; those of a text that needs more parts
than the queue has slots are never accepted. -/
def Sendable (cfg : Config) (text : Option (List UInt8)) : Prop :=
  ∀ t, text = some t → atGsm7IsValid text = true →
    1 ≤ strlen t ∧ strlen t ≤ 39015 ∧
      (longestPdu (strlen t) < cfg.txBufSize ∨
        cfg.cmdQueueDepth ≤ 255 ∧ cfg.cmdQueueDepth < partsNeeded (strlen t))

/-- The loop needs a slot a part. -/
theorem sendParts_room {stks : Nat → Stack} {cb : Option Ptr} {user : Ptr}
    {smsc : Option (List UInt8)} {number text : List UInt8} {refId nParts : UInt8}
    (hdepth : cfg.cmdQueueDepth ≤ 255) (rounds : Nat) : ∀ {i : Nat} {g g' : Engine cfg},
      sendParts stks cb user smsc number text refId nParts rounds i g = (.ok, g') →
      rounds = 0 ∨ g.qCount + rounds ≤ cfg.cmdQueueDepth := by
  induction rounds with
  | zero =>
    intros
    exact .inl rfl
  | succ rounds ih =>
    intro i g g' h
    rcases hpdu : partPdu stks smsc number text refId nParts i with _ | pdu
    · rw [sendParts_none hpdu] at h
      cases (Prod.mk.inj h).1
    rw [sendParts_succ hpdu] at h
    obtain ⟨hroom, h⟩ := of_guard (by decide) h
    have hrest := ih h
    have hcount : (addPart stks cb user i pdu g).qCount = g.qCount + 1 :=
      Nat.mod_eq_of_lt (by omega)
    rw [hcount] at hrest
    omega

/-- **The loop sends the segments in order.** -/
theorem sendParts_enqueued {stks : Nat → Stack} {cb : Option Ptr} {user : Ptr}
    {smsc : Option (List UInt8)} {number text : List UInt8} {refId nParts : UInt8} {rounds : Nat}
    {g g' : Engine cfg} (hslot : 169 < cfg.txBufSize)
    (h : sendParts stks cb user smsc number text refId nParts rounds 0 g = (.ok, g'))
    (hlen : ∀ j < rounds, j * 153 ≤ strlen text) :
    Enqueued g g' ((List.range rounds).map (segment text)) := by
  obtain ⟨es, hg', hes⟩ := sendParts_enqueues rounds h
  refine ⟨es, ?_, hg'⟩
  rw [List.forall₂_map_right_iff, List.range_eq_range']
  refine (List.forall₂_iff_zip.mpr ⟨hes.length_eq, ?_⟩)
  intro e j hmem
  obtain ⟨pdu, hpdu, rfl⟩ := (List.forall₂_iff_zip.mp hes).2 hmem
  have hj := hlen j (by simpa using List.of_mem_zip hmem |>.2)
  have hsmsc := length_smscField_le smsc
  obtain ⟨hdig, hpduLen⟩ := length_partPdu hj hpdu
  exact .of_cut (segmentOf_partPdu hj hpdu) (partEntry_body hpdu) (by omega)

/-- A text that meets the condition is sent whole. -/
theorem sendLong_whole {stks : Nat → Stack} {cb : Option Ptr} {user : Ptr} {g g' : Engine cfg}
    {smsc number : Option (List UInt8)} {text : List UInt8} {refId : UInt8}
    (hpos : 1 ≤ strlen text)
    (hcount : (atGsmPartCount (some text)).toNat = partsNeeded (strlen text))
    (hslot : longestPdu (strlen text) < cfg.txBufSize ∨
      cfg.cmdQueueDepth ≤ 255 ∧ cfg.cmdQueueDepth < partsNeeded (strlen text))
    (h : atGsmSendLong stks cb user g smsc number (some text) refId = (.ok, g')) :
    ∃ segs, Whole (cstr text) segs ∧ Enqueued g g' segs := by
  obtain _ | number := number
  · cases (Prod.mk.inj h).1
  by_cases hlong : 160 < strlen text
  · obtain ⟨-, hparts⟩ := of_sendLong_ok hlong h
    rw [hcount] at hparts
    have hn : partsNeeded (strlen text) = (strlen text + 152) / 153 := if_neg (Nat.not_le.mpr hlong)
    rw [longestPdu, if_neg (Nat.not_le.mpr hlong)] at hslot
    refine ⟨_, whole_segments hlong, ?_⟩
    rcases hslot with hslot | ⟨hdepth, hfew⟩
    · exact sendParts_enqueued hslot hparts fun j hj => by omega
    · -- the queue is too short for the parts
      have hroom := sendParts_room hdepth _ hparts
      omega
  · have hshort : strlen text ≤ 160 := Nat.not_lt.mp hlong
    have hone : partsNeeded (strlen text) = 1 := if_pos hshort
    rw [hone] at hcount hslot
    rw [longestPdu, if_pos hshort] at hslot
    have hcount' : atGsmPartCount (some text) = 1 := UInt8.toNat_inj.mp hcount
    rw [atGsmSendLong, hcount'] at h
    obtain ⟨-, h⟩ := of_guard (by decide) h
    rw [if_neg (by decide), if_pos rfl] at h
    obtain ⟨pdu, hpdu, hg'⟩ := atGsmCmgsPdu_enqueues h
    have hdepth := cfg.depth_ge
    have hsmsc := length_smscField_le smsc
    have hdig := (of_cmgsPdu hpdu).1
    have hpduLen := length_cmgsPdu hpdu
    have hcarries : Carries (singleEntry (stks 0) cb user pdu : CmdEntry cfg) (cstr text) :=
      .of_cut (segmentOf_cmgsPdu hpdu) (singleEntry_body hpdu) (by omega)
    refine ⟨[cstr text], ⟨by simp, hone.symm, ?_, ?_⟩, [_], .cons hcarries .nil, hg'⟩
    · intro s hs
      obtain rfl := List.mem_singleton.mp hs
      exact hshort.trans_eq (if_pos hshort).symm
    · intro s hs hnil
      obtain rfl := List.mem_singleton.mp hs
      have := congrArg List.length hnil
      exact absurd this (Nat.one_le_iff_ne_zero.mp hpos)

/-- A text that is not in the alphabet is not sent. -/
theorem atGsmSendLong_invalid {stks : Nat → Stack} {cb : Option Ptr} {user : Ptr} {g g' : Engine cfg}
    {smsc number text : Option (List UInt8)} {refId : UInt8} (h0 : atGsmPartCount text = 0) :
    atGsmSendLong stks cb user g smsc number text refId ≠ (.ok, g') := by
  intro h
  obtain _ | number := number
  · cases (Prod.mk.inj h).1
  obtain _ | text := text
  · cases (Prod.mk.inj h).1
  rw [atGsmSendLong] at h
  obtain ⟨-, h⟩ := of_guard (by decide) h
  exact (of_guard (by decide) h).1 h0

/-- A text of several parts goes through the loop. -/
theorem atGsmSendLong_parts {number text : List UInt8} {n : UInt8}
    (hvalid : validatePhoneNumber (some number) = true) (hcount : atGsmPartCount (some text) = n)
    (h0 : n ≠ 0) (h1 : n ≠ 1) (stks : Nat → Stack) (cb : Option Ptr) (user : Ptr) (g : Engine cfg)
    (smsc : Option (List UInt8)) (refId : UInt8) :
    atGsmSendLong stks cb user g smsc (some number) (some text) refId =
      sendParts stks cb user smsc number text refId n n.toNat 0 g := by
  rw [atGsmSendLong, hvalid, hcount, if_neg (by decide), if_neg h0, if_neg h1]

/-! ## A message that shows what is missing -/

/-- The next slot, where neither the queue nor the byte comes round. -/
theorem nextSlot_val {i : Fin cfg.cmdQueueDepth} (hdepth : i.val + 1 < cfg.cmdQueueDepth)
    (hbyte : i.val + 1 < 256) : (nextSlot i).val = i.val + 1 := by
  change (i.val + 1) % cfg.cmdQueueDepth % 256 = _
  rw [Nat.mod_eq_of_lt hdepth, Nat.mod_eq_of_lt hbyte]

/-- Later entries leave the first slot alone, as long as the queue has room for
them. -/
theorem foldl_enqueue_frame (es : List (CmdEntry cfg)) : ∀ {g : Engine cfg},
    1 ≤ g.qHead.val → g.qHead.val + es.length ≤ cfg.cmdQueueDepth → g.qHead.val + es.length ≤ 256 →
      (es.foldl Engine.enqueue g).queue ⟨0, cfg.depth_ge⟩ = g.queue ⟨0, cfg.depth_ge⟩ := by
  induction es with
  | nil =>
    intros
    rfl
  | cons e es ih =>
    intro g hpos hdepth hbyte
    rw [List.length_cons] at hdepth hbyte
    have hslot : (g.enqueue e).queue ⟨0, cfg.depth_ge⟩ = g.queue ⟨0, cfg.depth_ge⟩ :=
      Function.update_of_ne (fun h => by have := congrArg Fin.val h; dsimp only at this; omega) _ _
    rw [List.foldl_cons, ← hslot]
    rcases es with _ | ⟨e', es⟩
    · rfl
    · rw [List.length_cons] at hdepth hbyte
      have hhead : (g.enqueue e).qHead.val = g.qHead.val + 1 := nextSlot_val (by omega) (by omega)
      apply ih <;> rw [hhead]
      · omega
      · rw [List.length_cons]
        omega
      · rw [List.length_cons]
        omega

/-- The first of the entries put into an empty queue. -/
theorem first_enqueued (e : CmdEntry cfg) {es : List (CmdEntry cfg)}
    (hdepth : (e :: es).length ≤ cfg.cmdQueueDepth) (hbyte : (e :: es).length ≤ 256) :
    ((e :: es).foldl Engine.enqueue (atInit cfg)).queue ⟨0, cfg.depth_ge⟩ = e := by
  rw [List.length_cons] at hdepth hbyte
  have hslot : ((atInit cfg).enqueue e).queue ⟨0, cfg.depth_ge⟩ = e := by
    change Function.update (atInit cfg).queue (atInit cfg).qHead e (atInit cfg).qHead = e
    exact Function.update_self _ _ _
  rw [List.foldl_cons]
  rcases es with _ | ⟨e', es⟩
  · exact hslot
  · rw [List.length_cons] at hdepth hbyte
    have hhead : ((atInit cfg).enqueue e).qHead.val = 1 :=
      nextSlot_val (i := (atInit cfg).qHead) (show 1 < _ by omega) Nat.one_lt_ofNat
    rw [foldl_enqueue_frame, hslot] <;> rw [hhead]
    · rw [List.length_cons]
      omega
    · rw [List.length_cons]
      omega

/-- With a full number, SMSC too, and an empty queue with room for it, a text is
accepted, and its first entry is as long as can be. -/
theorem sendLong_full {text : List UInt8} (himg : (cstr text).all gsm7Image = true)
    (hcount : (atGsmPartCount (some text)).toNat = partsNeeded (strlen text))
    (hroom : 256 ≤ cfg.cmdQueueDepth ∨ partsNeeded (strlen text) ≤ cfg.cmdQueueDepth) :
    ∃ g' pdu e, ∃ es : List (CmdEntry cfg),
      atGsmSendLong (fun _ => .zero) none 0 (atInit cfg) (some fullNumber) (some fullNumber)
        (some text) 0 = (.ok, g') ∧ g' = (e :: es).foldl Engine.enqueue (atInit cfg) ∧
      (e :: es).length = partsNeeded (strlen text) ∧ pdu.length = longestPdu (strlen text) ∧
      e.body.bytes = (hexOf pdu).take (cfg.txBufSize * 2 - 1) := by
  have hvalid : validatePhoneNumber (some fullNumber) = true := by decide
  have hdig : strlen (skipPlus fullNumber) = 20 := by decide
  have hsmsc : (smscField (some fullNumber)).length = 12 := by decide
  have hbyte := UInt8.toNat_lt (atGsmPartCount (some text))
  by_cases hshort : strlen text ≤ 160
  · have hone : partsNeeded (strlen text) = 1 := if_pos hshort
    have hcount' : atGsmPartCount (some text) = 1 := UInt8.toNat_inj.mp (hcount.trans hone)
    obtain ⟨pdu, hpdu⟩ := exists_cmgsPdu .zero (some fullNumber) hvalid hdig.le hshort himg
    have hfree : (atInit cfg).qCount < cfg.cmdQueueDepth := cfg.depth_ge
    obtain ⟨g', hg'⟩ := sendPdu_accepted .zero none 0 hfree pdu 401
    have hsend : atGsmCmgsPdu .zero none 0 (atInit cfg) (some fullNumber) (some fullNumber)
        (some text) = (.ok, g') := by rw [atGsmCmgsPdu, hpdu]; exact hg'
    obtain ⟨pdu', hpdu', rfl⟩ := atGsmCmgsPdu_enqueues hsend
    have hlen := length_cmgsPdu hpdu'
    refine ⟨_, pdu', singleEntry .zero none 0 pdu', [], ?_, rfl, hone.symm, ?_,
      singleEntry_body hpdu'⟩
    · rw [atGsmSendLong, hvalid, hcount', if_neg (by decide), if_neg (by decide), if_pos rfl]
      exact hsend
    · rw [longestPdu, if_pos hshort]
      omega
  · have hn : partsNeeded (strlen text) = (strlen text + 152) / 153 := if_neg hshort
    have hne : ∀ k < 2, atGsmPartCount (some text) ≠ UInt8.ofNat k := by
      intro k hk heq
      have := congrArg UInt8.toNat heq
      rw [hcount, UInt8.toNat_ofNat'] at this
      omega
    have hsend := atGsmSendLong_parts hvalid rfl (hne 0 (by decide)) (hne 1 (by decide))
      (fun _ => .zero) none 0 (atInit cfg) (some fullNumber) 0
    rw [hcount] at hsend
    have hok : (sendParts (fun _ => .zero) none 0 (some fullNumber) fullNumber text 0
        (atGsmPartCount (some text)) (partsNeeded (strlen text)) 0 (atInit cfg)).1 = .ok := by
      refine sendParts_ok _ (fun j _ hj => exists_partPdu hdig.le himg (by omega)) ?_
      change 256 ≤ cfg.cmdQueueDepth ∧ 0 < cfg.cmdQueueDepth ∨
        cfg.cmdQueueDepth ≤ 255 ∧ 0 + _ ≤ cfg.cmdQueueDepth
      omega
    obtain ⟨es, hg', hes⟩ := sendParts_enqueues _ (eq_ok_of_fst hok)
    obtain ⟨m, hm⟩ : ∃ m, partsNeeded (strlen text) = m + 1 :=
      ⟨partsNeeded (strlen text) - 1, by omega⟩
    have hlen := hes.length_eq
    rw [hm, List.range'_succ] at hes
    obtain _ | ⟨⟨pdu, hpdu, rfl⟩, hrest⟩ := hes
    have hpduLen := (length_partPdu (by omega) hpdu).2
    refine ⟨_, pdu, _, _, hsend.trans (eq_ok_of_fst hok), hg', by simpa using hlen, ?_,
      partEntry_body hpdu⟩
    rw [longestPdu, if_neg hshort]
    omega

/-- **What is sent whole meets the condition.** -/
theorem SentWhole.sendable {text : Option (List UInt8)} (h : SentWhole cfg text) :
    Sendable cfg text := by
  rintro t rfl hvalid
  have hcount := h.count t rfl hvalid
  have hlt := UInt8.toNat_lt (atGsmPartCount (some t))
  rw [hcount] at hlt
  have hlen := (partsNeeded_lt_iff _).mp hlt
  -- unless the queue is too short, there is a call that is accepted
  have hfull : 256 ≤ cfg.cmdQueueDepth ∨ partsNeeded (strlen t) ≤ cfg.cmdQueueDepth →
      1 ≤ strlen t ∧ longestPdu (strlen t) < cfg.txBufSize := by
    intro hroom
    obtain ⟨g', pdu, e, es, hsend, hg', hes, hpdu, hbody⟩ := sendLong_full hvalid hcount hroom
    obtain ⟨segs, hwhole, es', hcarries, hg''⟩ := h.whole t rfl _ _ _ _ _ _ _ _ hsend
    have hlen' := hcarries.length_eq.trans hwhole.count
    change es'.length = partsNeeded (strlen t) at hlen'
    rw [List.length_cons] at hes
    obtain _ | @⟨e', seg, es', segs, hfirst, hrest⟩ := hcarries
    · exact absurd (hlen'.trans hes.symm) (by simp)
    -- both see the same first entry
    have hsame : e = e' := by
      have hdepth : (e :: es).length ≤ cfg.cmdQueueDepth := by
        rw [List.length_cons]
        omega
      rw [← first_enqueued e hdepth (by rw [List.length_cons]; omega), ← hg', hg'',
        first_enqueued e' (by omega) (by omega)]
    refine ⟨?_, ?_⟩
    · have hseg := List.length_pos_iff.mpr (hwhole.nonempty seg (List.mem_cons_self ..))
      have hjoin := congrArg List.length hwhole.join
      rw [List.flatten_cons, List.length_append] at hjoin
      change _ = strlen t at hjoin
      omega
    · by_contra hcut
      exact not_carries_of_cut hbody (by omega) (hsame ▸ hfirst)
  have hdepth := cfg.depth_ge
  refine ⟨?_, hlen, ?_⟩
  · by_contra h0
    have hone : partsNeeded (strlen t) = 1 := if_pos (by omega)
    have := (hfull (by omega)).1
    omega
  · by_contra hbad
    have := (hfull (by omega)).2
    omega

/-- **A long message is never shortened** if and only if it is `Sendable`. -/
theorem sentWhole_iff (cfg : Config) (text : Option (List UInt8)) :
    SentWhole cfg text ↔ Sendable cfg text := by
  refine ⟨SentWhole.sendable, fun hfits => ?_⟩
  obtain _ | text := text
  · exact ⟨by decide, (by rintro _ ⟨⟩), (by rintro _ ⟨⟩), (by rintro _ ⟨⟩)⟩
  by_cases himg : (cstr text).all gsm7Image = true
  · obtain ⟨hpos, hlong, hslot⟩ := hfits text rfl himg
    have hlt := (partsNeeded_lt_iff _).mpr hlong
    have hcount := toNat_atGsmPartCount himg
    rw [Nat.mod_eq_of_lt hlt] at hcount
    have hneeded : 1 ≤ partsNeeded (strlen text) ∧
        partsNeeded (strlen text) * 153 ≤ strlen text + 153 := by
      rw [partsNeeded]
      split <;> omega
    refine ⟨iff_of_false (fun h0 => ?_) (fun hv => ?_), ?_, ?_, ?_⟩
    · rw [h0] at hcount
      exact absurd hneeded.1 (by rw [← hcount]; decide)
    · exact absurd (himg.symm.trans hv) (by decide)
    · rintro _ ⟨⟩ -
      exact hcount
    · rintro _ ⟨⟩ i hi
      rw [gsm7ConcatMax]
      omega
    · rintro _ ⟨⟩ stks cb user g g' smsc number refId hok
      exact sendLong_whole hpos hcount hslot hok
  · have hinvalid := Bool.eq_false_of_not_eq_true himg
    have h0 := atGsmPartCount_invalid hinvalid
    refine ⟨iff_of_true h0 hinvalid, ?_, ?_, ?_⟩
    · rintro _ ⟨⟩ hv
      exact absurd hv himg
    · rintro _ ⟨⟩ i hi
      rw [h0] at hi
      exact absurd hi (Nat.not_lt_zero _)
    · rintro _ ⟨⟩ stks cb user g g' smsc number refId hok
      exact absurd hok (atGsmSendLong_invalid h0)

/-- 39474 characters, which take 258 parts. -/
def longText : List UInt8 := List.replicate 39474 65

theorem longText_spec : strlen longText = 39474 ∧ (cstr longText).all gsm7Image = true := by
  have hz : (0 : UInt8) ∉ longText := fun h => absurd (List.eq_of_mem_replicate h) (by decide)
  rw [strlen, cstr_eq_self hz]
  refine ⟨List.length_replicate, List.all_eq_true.mpr fun c hc => ?_⟩
  rw [List.eq_of_mem_replicate hc]
  decide

/-- Of 258 parts, two are sent, and the call answers that all is well. -/
theorem longText_shortened : ∃ g' : Engine Config.default,
    atGsmSendLong (fun _ => .zero) none 0 (atInit _) none (some (ascii "+491234"))
      (some longText) 1 = (.ok, g') ∧
    g'.qCount = 2 ∧ ¬SentWhole Config.default (some longText) := by
  obtain ⟨hlen, himg⟩ := longText_spec
  have hcount : atGsmPartCount (some longText) = 2 := by
    apply UInt8.toNat_inj.mp
    rw [toNat_atGsmPartCount himg, hlen]
    decide
  have hvalid : validatePhoneNumber (some (ascii "+491234")) = true := by decide
  have hsend := atGsmSendLong_parts hvalid hcount (by decide) (by decide) (fun _ => .zero) none 0
    (atInit Config.default) none 1
  have hrounds : UInt8.toNat 2 = 2 := rfl
  rw [hrounds] at hsend
  have hok : (sendParts (fun _ => .zero) none 0 none (ascii "+491234") longText 1 2 2 0
      (atInit Config.default)).1 = .ok := by
    refine sendParts_ok 2 (fun j _ hj => ?_) (.inr ⟨by decide, by decide⟩)
    exact exists_partPdu (by decide) himg (by omega)
  have hadded := (sendParts_stored Config.default_fits 2 (eq_ok_of_fst hok)).count
  refine ⟨_, hsend.trans (eq_ok_of_fst hok), hadded.trans (by decide), fun h => ?_⟩
  have hc := h.count longText rfl himg
  rw [hcount, hlen] at hc
  exact absurd hc (by decide)

end LibAt
