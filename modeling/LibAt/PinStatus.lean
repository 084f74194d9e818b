import LibAt.PrefixTable
import LibAt.Readings

/-!
# The PIN status

`at_parse_cpin` goes through a table of status strings and takes the first one that the
value of the `+CPIN` line begins with. Some strings of the table are the beginning of
others, and the shorter ones come first. So `SIM PIN2` is reported as `SIM PIN`, and
`SIM PUK2` as `SIM PUK`: their own entries are never reached. Everywhere else the status
is that of the longest string of the table (`pinExact_iff`).
-/

namespace LibAt

open PrefixTable

/-- The strings of the table, with their values. -/
def cpinTable : List (List UInt8 × AtCpin) :=
  Checked.cpinMap.map fun e => (e.1, e.2.2)

/-- What `at_parse_cpin` reads. -/
def readCpin (text : List UInt8) : AtCpin :=
  ((firstMatch cpinTable text).map Prod.snd).getD .unknown

/-- The status is the one that a value text is meant to have. -/
structure PinLongest (text : List UInt8) (v : AtCpin) : Prop where
  /-- the value of the longest string that the text begins with, if there is one -/
  longest : (∃ e ∈ cpinTable, e.1 <+: text) → ∃ e, LongestMatch cpinTable text e ∧ v = e.2
  /-- unknown exactly when there is none -/
  unknown : v = .unknown ↔ ∀ e ∈ cpinTable, ¬e.1 <+: text
  /-- a string of the table is itself, unless what is behind it makes it another one -/
  itself : ∀ e ∈ cpinTable, e.1 <+: text →
    (∀ e' ∈ cpinTable, e.1 <+: e'.1 → e'.1 <+: text → e' = e) → v = e.2

namespace Checked

/-- `at_parse_cpin` reports the status that the value text is meant to have. -/
def PinExact (r : Response) (text : List UInt8) : Prop :=
  ∀ out, ∃ v, atParseCpin (some r) (some out) = .ok (true, some v) ∧ PinLongest text v

/-! ## The loop over the table -/

/-- **The loop** takes the first string that the text begins with, if the lengths in the
table are those of its strings. -/
theorem cpinLookup_eq (m : List UInt8) {map : List (List UInt8 × Nat × AtCpin)}
    (hmap : ∀ e ∈ map, e.2.1 = e.1.length ∧ (0 : UInt8) ∉ e.1) :
    cpinLookup (cursor m) map =
      .ok (((firstMatch (map.map fun e => (e.1, e.2.2)) (cstr m)).map Prod.snd).getD .unknown) := by
  induction map with
  | nil => rfl
  | cons e map ih =>
    obtain ⟨str, len, val⟩ := e
    obtain ⟨hlen, h0⟩ := hmap (str, len, val) List.mem_cons_self
    obtain rfl : len = str.length := hlen
    have hrest := ih fun e he => hmap e (List.mem_cons_of_mem _ he)
    rw [cpinLookup, strncmpEq_cursor, ok_bind, List.map_cons, firstMatch]
    by_cases hstr : str <+: cstr m
    · rw [if_pos ((strncmpEq_length_iff h0).mpr hstr), List.find?_cons_of_pos (by simpa using hstr)]
      rfl
    · rw [if_neg (mt (strncmpEq_length_iff h0).mp hstr),
        List.find?_cons_of_neg (by simpa using hstr), hrest, firstMatch]

theorem cpinMap_lengths : ∀ e ∈ cpinMap, e.2.1 = e.1.length ∧ (0 : UInt8) ∉ e.1 := by
  decide

variable {r : Response}

theorem atParseCpin_eq (hr : r.Valid) (hs : r.status = .ok) (out : AtCpin) :
    atParseCpin (some r) (some out) =
      .ok (outcome out
        ((findValue r (ascii "+CPIN")).map fun m => readCpin (cstr m))) := by
  rw [atParseCpin, withArgs, if_neg (not_not.mpr hs), respFindValue_cursor hr, ok_bind]
  cases findValue r (ascii "+CPIN") with
  | none => rfl
  | some m =>
    simp only [Option.map_some]
    rw [cpinLookup_eq m cpinMap_lengths]
    rfl

end Checked

/-! ## The longest string -/

variable {text : List UInt8}

theorem shorterFirst_cpinTable : ShorterFirst cpinTable := by
  decide

/-- The strings that begin with another one. -/
theorem extending_cpinTable :
    ∀ e ∈ cpinTable, Extending cpinTable e ↔ e.1 = ascii "SIM PIN2" ∨ e.1 = ascii "SIM PUK2" := by
  decide

theorem readCpin_of_match {e : List UInt8 × AtCpin} (h : firstMatch cpinTable text = some e) :
    readCpin text = e.2 := by
  rw [readCpin, h]
  rfl

/-- Unknown is the status of the texts that begin with no string of the table. -/
theorem readCpin_unknown : readCpin text = .unknown ↔ ∀ e ∈ cpinTable, ¬e.1 <+: text := by
  have hknown : ∀ e ∈ cpinTable, e.2 ≠ .unknown := by decide
  rw [← firstMatch_eq_none]
  rcases hmatch : firstMatch cpinTable text with _ | e
  · simp [readCpin, hmatch]
  · rw [readCpin_of_match hmatch]
    simp [hknown e (firstMatch_mem hmatch)]

theorem pinLongest_of_longest {e : List UInt8 × AtCpin}
    (hmatch : firstMatch cpinTable text = some e) (hlongest : LongestMatch cpinTable text e) :
    PinLongest text (readCpin text) where
  longest _ := ⟨e, hlongest, readCpin_of_match hmatch⟩
  unknown := readCpin_unknown
  itself e' he' hm hno := by
    have hkeys : (cpinTable.map Prod.fst).Nodup := by decide
    rw [readCpin_of_match hmatch, hlongest.unique hkeys (longest_of_notExtended he' hm hno)]

theorem pinLongest_of_unmatched (hno : ∀ e ∈ cpinTable, ¬e.1 <+: text) :
    PinLongest text (readCpin text) where
  longest := fun ⟨e, he, hm⟩ => absurd hm (hno e he)
  unknown := readCpin_unknown
  itself e he hm _ := absurd hm (hno e he)

/-- The status tells which entry it is from, so what is read can only be the longest
match if the first match is. -/
theorem firstMatch_longest (h : PinLongest text (readCpin text)) {e : List UInt8 × AtCpin}
    (hmatch : firstMatch cpinTable text = some e) : LongestMatch cpinTable text e := by
  have hvalues : (cpinTable.map Prod.snd).Nodup := by decide
  obtain ⟨e', hlongest, hread⟩ := h.longest ⟨e, firstMatch_mem hmatch, firstMatch_matched hmatch⟩
  rw [readCpin_of_match hmatch] at hread
  obtain rfl := List.inj_on_of_nodup_map hvalues (firstMatch_mem hmatch) hlongest.mem hread
  exact hlongest

/-- **What is read is as it should be** where the text begins with neither of the strings
that begin with another one. -/
theorem pinLongest_iff :
    PinLongest text (readCpin text) ↔
      ¬ascii "SIM PIN2" <+: text ∧ ¬ascii "SIM PUK2" <+: text := by
  constructor
  · intro h
    have hno (e : List UInt8 × AtCpin) (he : e ∈ cpinTable) (hext : Extending cpinTable e) :
        ¬e.1 <+: text := by
      intro hm
      rcases hmatch : firstMatch cpinTable text with _ | first
      · exact firstMatch_eq_none.mp hmatch e he hm
      · have hlongest := firstMatch_longest h hmatch
        exact (firstMatch_longest_iff shorterFirst_cpinTable hmatch).mp hlongest e he hm hext
    have hpin2 : (ascii "SIM PIN2", AtCpin.simPin2) ∈ cpinTable := by decide
    have hpuk2 : (ascii "SIM PUK2", AtCpin.simPuk2) ∈ cpinTable := by decide
    exact ⟨hno _ hpin2 ((extending_cpinTable _ hpin2).mpr (.inl rfl)),
      hno _ hpuk2 ((extending_cpinTable _ hpuk2).mpr (.inr rfl))⟩
  · rintro ⟨hpin2, hpuk2⟩
    rcases hmatch : firstMatch cpinTable text with _ | first
    · exact pinLongest_of_unmatched (firstMatch_eq_none.mp hmatch)
    · refine pinLongest_of_longest hmatch (longest_of_notExtending hmatch fun e he hm hext => ?_)
      rcases (extending_cpinTable e he).mp hext with hkey | hkey
      · exact hpin2 (hkey ▸ hm)
      · exact hpuk2 (hkey ▸ hm)

/-! ## The report -/

namespace Checked

variable {r : Response} {rest : List UInt8}

/-- **When the longest string is reported.** -/
theorem pinExact_iff (hr : r.Valid) (hs : r.status = .ok)
    (hline : FirstLine r (ascii "+CPIN") rest) :
    PinExact r (cstr (valueText rest)) ↔
      ¬ascii "SIM PIN2" <+: cstr (valueText rest) ∧
        ¬ascii "SIM PUK2" <+: cstr (valueText rest) := by
  have hrun (out : AtCpin) : atParseCpin (some r) (some out) =
      .ok (true, some (readCpin (cstr (valueText rest)))) := by
    rw [atParseCpin_eq hr hs, findValue_firstLine (by decide) hline]
    rfl
  rw [← pinLongest_iff]
  constructor
  · intro h
    obtain ⟨v, hv, hlongest⟩ := h .unknown
    obtain rfl := Option.some.inj (Prod.mk.inj (Except.ok.inj ((hrun _).symm.trans hv))).2
    exact hlongest
  · exact fun hlongest out => ⟨_, hrun out, hlongest⟩

/-- A locked card, behind a line of another answer. -/
theorem pinExact_iff_puk :
    PinExact ⟨.ok, 0, 2, [ascii "+CSQ: 17,99", ascii "+CPIN: SIM PUK"]⟩
        (cstr (valueText (ascii ": SIM PUK"))) ↔
      ¬ascii "SIM PIN2" <+: cstr (valueText (ascii ": SIM PUK")) ∧
        ¬ascii "SIM PUK2" <+: cstr (valueText (ascii ": SIM PUK")) :=
  pinExact_iff ⟨by decide, by decide⟩ rfl ⟨[ascii "+CSQ: 17,99"], [], rfl, by decide⟩

/-- The second code is taken for the first. -/
theorem pin2_misreported :
    FirstLine ⟨.ok, 0, 1, [ascii "+CPIN: SIM PIN2"]⟩ (ascii "+CPIN") (ascii ": SIM PIN2") ∧
      ¬PinExact ⟨.ok, 0, 1, [ascii "+CPIN: SIM PIN2"]⟩ (ascii "SIM PIN2") := by
  refine ⟨⟨[], [], rfl, by simp⟩, fun h => ?_⟩
  obtain ⟨v, hv, hlongest⟩ := h .unknown
  obtain rfl : AtCpin.simPin = v := Option.some.inj (Prod.mk.inj (Except.ok.inj hv)).2
  have hself := hlongest.itself (ascii "SIM PIN2", .simPin2) (by decide) (List.prefix_refl _)
    (by decide)
  cases hself

end Checked

end LibAt
