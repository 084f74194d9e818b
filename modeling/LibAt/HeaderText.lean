import LibAt.Timestamps

/-!
# The header of a message in text mode

How a `+CMGR` header has to be written for the originating address and the timestamp to be
found in it: a status field, a text in quotes, something in place of the alpha field, and
an opening quote (`TextHeader`). This is a grammar of texts, and the parser is compared
with it in both directions (`textHeader_iff`): what it passes over derives the header, and
over every header that is derived it comes to the quotes.
-/

namespace LibAt

/-! ## Quotes and commas -/

/-- A text that can stand in quotes. -/
def Quotable (t : List UInt8) : Prop := 34 ∉ t ∧ 0 ∉ t

instance (t : List UInt8) : Decidable (Quotable t) := inferInstanceAs (Decidable (_ ∧ _))

/-- The text in quotes. -/
def inQuotes (t : List UInt8) : List UInt8 := 34 :: t ++ [34]

variable {t rest : List UInt8}

theorem inQuotes_append (t rest : List UInt8) : inQuotes t ++ rest = 34 :: (t ++ 34 :: rest) := by
  rw [inQuotes, List.append_assoc]
  rfl

/-- A scan that stops at a character does not get beyond it. -/
theorem dropWhile_stop {q : UInt8 → Bool} {c : UInt8} (hstop : q c = false) (t rest : List UInt8) :
    (t ++ c :: rest).dropWhile q = t.dropWhile q ++ c :: rest := by
  rw [List.dropWhile_append, List.dropWhile_cons_of_neg (by simp [hstop])]
  split
  · next h => rw [List.isEmpty_iff.mp h, List.nil_append]
  · rfl

/-- A scan that passes a text stops behind it. -/
theorem dropWhile_passed {q : UInt8 → Bool} {c : UInt8} (hpass : ∀ b ∈ t, q b = true)
    (hstop : q c = false) : (t ++ c :: rest).dropWhile q = c :: rest := by
  rw [dropWhile_stop hstop, List.dropWhile_eq_nil_iff.mpr hpass, List.nil_append]

/-- A scan to a character, or to the end, passes a text that has none. -/
theorem passed_of_notMem {c : UInt8} (hc : c ∉ t) (h0 : 0 ∉ t) :
    ∀ b ∈ t, (b != 0 && b != c) = true := by
  intro b hb
  have hbc : b ≠ c := fun heq => hc (heq ▸ hb)
  have hb0 : b ≠ 0 := fun heq => h0 (heq ▸ hb)
  simp [hbc, hb0]

theorem Quotable.passed (h : Quotable t) : ∀ b ∈ t, (b != 0 && b != 34) = true :=
  passed_of_notMem h.1 h.2

theorem quotedText_inQuotes (h : Quotable t) : quotedText (inQuotes t ++ rest) = t := by
  rw [inQuotes_append, quotedText]
  rw [List.drop_succ_cons, List.drop_zero, List.takeWhile_append_of_pos h.passed,
    List.takeWhile_cons_of_neg (by decide), List.append_nil]

theorem behindQuoted_inQuotes (h : Quotable t) : behindQuoted (inQuotes t ++ rest) = rest := by
  rw [inQuotes_append, behindQuoted, List.headD_cons, if_pos rfl]
  dsimp only
  rw [List.drop_succ_cons, List.drop_zero, dropWhile_passed h.passed rfl, List.head?_cons,
    if_pos rfl, List.drop_succ_cons, List.drop_zero]

theorem fillQuoted_inQuotes {n : Nat} (h : Quotable t) (buf : Vector UInt8 n) :
    fillQuoted (inQuotes t ++ rest) buf = put buf (t.take (n - 1)) := by
  rw [fillQuoted, quotedText_inQuotes h, inQuotes_append, List.headD_cons, if_pos rfl]

/-- Behind a comma, spaces are passed over. -/
theorem behindComma_comma (m : List UInt8) : behindComma (44 :: m) = m.dropWhile (· == 32) := by
  rw [behindComma]
  rfl

/-- Behind a comma, what does not begin with a space. -/
theorem behindComma_of_head (h : rest.head? ≠ some 32) : behindComma (44 :: rest) = rest := by
  rw [behindComma_comma]
  cases rest with
  | nil => rfl
  | cons b rest =>
    have hb : b ≠ 32 := fun heq => h (congrArg some heq)
    exact List.dropWhile_cons_of_neg (by simpa using hb)

theorem behindComma_inQuotes (t rest : List UInt8) :
    behindComma (44 :: (inQuotes t ++ rest)) = inQuotes t ++ rest := by
  refine behindComma_of_head ?_
  rw [inQuotes_append, List.head?_cons]
  decide

/-- A run of spaces. -/
def Blank (s : List UInt8) : Prop := ∀ b ∈ s, b = 32

/-- A comma, and spaces around it. -/
def Comma (s : List UInt8) : Prop := ∃ a b, Blank a ∧ Blank b ∧ s = a ++ 44 :: b

/-- What may stand between two fields: a comma is not asked for. -/
def Gap (s : List UInt8) : Prop := Blank s ∨ Comma s

/-! ## The grammar -/

/-- The status, with what is behind it: a text in quotes, or a number, which may be
missing if there is a gap. -/
inductive StatField : List UInt8 → Prop
  | name {t g : List UInt8} : Quotable t → Gap g → StatField (inQuotes t ++ g)
  | number {d g : List UInt8} : (∀ b ∈ d, isDigit b = true) → Gap g → d ++ g ≠ [] →
      StatField (d ++ g)

/-- What stands between the address and the timestamp: two commas, or a quote and
anything up to the next comma. -/
inductive AlphaField : List UInt8 → Prop
  | empty {c c' : List UInt8} : Comma c → Comma c' → AlphaField (c ++ c')
  | text {g t c : List UInt8} : Gap g → 44 ∉ t → 0 ∉ t → Comma c → AlphaField (g ++ 34 :: (t ++ c))

/-- A header in text mode, up to the opening quote of the timestamp. -/
def TextHeader (m : List UInt8) : Prop :=
  ∃ stat oa alpha rest, StatField stat ∧ Quotable oa ∧ AlphaField alpha ∧
    m = stat ++ (inQuotes oa ++ (alpha ++ 34 :: rest))

/-! ## What is passed over -/

theorem dropWhile_blank {a : List UInt8} (ha : Blank a) (m : List UInt8) :
    (a ++ m).dropWhile (· == 32) = m.dropWhile (· == 32) := by
  rw [List.dropWhile_append, List.dropWhile_eq_nil_iff.mpr fun b hb => beq_iff_eq.mpr (ha b hb)]
  rfl

/-- A comma is passed with all the spaces behind it. -/
theorem behindComma_of_comma {c : List UInt8} (hc : Comma c) (m : List UInt8) :
    behindComma (c ++ m) = m.dropWhile (· == 32) := by
  obtain ⟨a, b, ha, hb, rfl⟩ := hc
  rw [List.append_assoc, List.cons_append, behindComma]
  rw [dropWhile_blank ha, List.dropWhile_cons_of_neg (by decide), List.headD_cons, if_pos rfl,
    List.drop_succ_cons, List.drop_zero]
  exact dropWhile_blank hb m

/-- **A gap is passed over.** -/
theorem behindComma_of_gap {g : List UInt8} (hg : Gap g) (m : List UInt8) :
    behindComma (g ++ 34 :: m) = 34 :: m := by
  rcases hg with hg | hg
  · rw [behindComma]
    rw [dropWhile_blank hg, List.dropWhile_cons_of_neg (by decide), List.headD_cons,
      if_neg (by decide)]
  · rw [behindComma_of_comma hg, List.dropWhile_cons_of_neg (by decide)]

/-- What comes next is no space. -/
theorem dropWhile_head (m : List UInt8) : (m.dropWhile (· == 32)).head? ≠ some 32 := by
  intro h
  have hne : m.dropWhile (· == 32) ≠ [] := fun hnil => by rw [hnil] at h; cases h
  have := List.head_dropWhile_not (· == 32) hne
  rw [List.head?_eq_some_head hne] at h
  rw [Option.some.inj h] at this
  exact absurd this (by decide)

theorem behindComma_head (m : List UInt8) : (behindComma m).head? ≠ some 32 := by
  rw [behindComma]
  split <;> exact dropWhile_head _

theorem blank_takeWhile (m : List UInt8) : Blank (m.takeWhile (· == 32)) :=
  fun _ hb => beq_iff_eq.mp (List.mem_takeWhile_imp (p := (· == 32)) hb)

/-- **What is passed over is a comma**, or else spaces with no comma behind them. -/
theorem behindComma_cases (m : List UInt8) :
    (∃ c, Comma c ∧ m = c ++ behindComma m) ∨
      ∃ g, Blank g ∧ m = g ++ behindComma m ∧ (behindComma m).headD 0 ≠ 44 := by
  have hsplit := (List.takeWhile_append_dropWhile (p := (· == 32)) (l := m)).symm
  rw [behindComma]
  split
  · next hcomma =>
    left
    obtain ⟨q, hq⟩ : ∃ q, m.dropWhile (· == 32) = 44 :: q := by
      rcases hd : m.dropWhile (· == 32) with _ | ⟨b, q⟩
      · rw [hd] at hcomma
        exact absurd hcomma (by decide)
      · rw [hd, List.headD_cons] at hcomma
        exact ⟨q, by rw [hcomma]⟩
    refine ⟨_, ⟨_, _, blank_takeWhile m, blank_takeWhile q, rfl⟩, ?_⟩
    rw [hq, List.drop_succ_cons, List.drop_zero, List.append_assoc, List.cons_append,
      List.takeWhile_append_dropWhile, ← hq]
    exact hsplit
  · next hcomma => exact .inr ⟨_, blank_takeWhile m, hsplit, hcomma⟩

/-- Between two fields a gap is passed over. -/
theorem gap_behindComma (m : List UInt8) : ∃ g, Gap g ∧ m = g ++ behindComma m := by
  rcases behindComma_cases m with ⟨c, hc, hm⟩ | ⟨g, hg, hm, -⟩
  · exact ⟨c, .inr hc, hm⟩
  · exact ⟨g, .inl hg, hm⟩

/-- At the end nothing is passed over. -/
theorem behindComma_end {m : List UInt8} (h : m.headD 0 = 0) : behindComma m = m := by
  have hdrop : m.dropWhile (· == 32) = m := by
    rcases m with _ | ⟨b, m⟩
    · rfl
    · rw [List.headD_cons] at h
      rw [h]
      rfl
  rw [behindComma]
  rw [hdrop, h, if_neg (by decide)]

/-- A text that begins with a quote is a text in quotes, or is not closed. -/
theorem behindQuoted_cases {m : List UInt8} (h : m.headD 0 = 34) :
    (∃ t, Quotable t ∧ m = inQuotes t ++ behindQuoted m) ∨ (behindQuoted m).headD 0 = 0 := by
  rw [behindQuoted, if_pos h]
  rcases m with _ | ⟨b, m⟩
  · exact absurd h (by decide)
  rw [List.headD_cons] at h
  subst h
  dsimp only
  rw [List.drop_succ_cons, List.drop_zero]
  have hsplit := (List.takeWhile_append_dropWhile (p := fun b => b != 0 && b != 34) (l := m)).symm
  have hpass : Quotable (m.takeWhile fun b => b != 0 && b != 34) := by
    constructor <;> intro hmem <;> exact absurd (List.mem_takeWhile_imp hmem) (by decide)
  rcases hd : m.dropWhile (fun b => b != 0 && b != 34) with _ | ⟨b, q⟩
  · exact .inr rfl
  · have hb := List.head_dropWhile_not (fun b => b != 0 && b != 34) (l := m) (by simp [hd])
    simp only [hd, List.head_cons] at hb
    by_cases hq : b = 34
    · subst hq
      left
      refine ⟨_, hpass, ?_⟩
      rw [List.head?_cons, if_pos rfl, List.drop_succ_cons, List.drop_zero, inQuotes_append,
        ← hd, ← hsplit]
    · right
      have hb0 : b = 0 := by simpa [hq] using hb
      rw [List.head?_cons, if_neg fun heq => hq (Option.some.inj heq), hb0]
      rfl

/-! ## Both directions -/

/-- What is passed over on the way to the address is a status field. -/
theorem statField_of_smsOa {m : List UInt8} (h : (smsOa m).headD 0 = 34) :
    ∃ s, StatField s ∧ m = s ++ smsOa m := by
  rw [smsOa] at h ⊢
  by_cases hm : m.headD 0 = 34
  · rw [if_pos hm] at h ⊢
    rcases behindQuoted_cases hm with ⟨t, ht, hsplit⟩ | hend
    · obtain ⟨g, hg, hgap⟩ := gap_behindComma (behindQuoted m)
      refine ⟨_, .name ht hg, ?_⟩
      rw [List.append_assoc, ← hgap]
      exact hsplit
    · rw [behindComma_end hend, hend] at h
      exact absurd h (by decide)
  · rw [if_neg hm] at h ⊢
    obtain ⟨g, hg, hgap⟩ := gap_behindComma (behindUint m)
    have hsplit := (List.takeWhile_append_dropWhile (p := isDigit) (l := m)).symm
    have hall : ∀ b ∈ m.takeWhile isDigit, isDigit b = true := fun _ hb => List.mem_takeWhile_imp hb
    have heq : m = m.takeWhile isDigit ++ g ++ behindComma (behindUint m) := by
      rw [List.append_assoc, ← hgap]
      exact hsplit
    refine ⟨_, .number hall hg ?_, heq⟩
    intro hnil
    rw [hnil, List.nil_append] at heq
    exact hm (heq ▸ h)

/-- An alpha field that begins with a quote ends at a comma. -/
theorem alphaField_of_quote {q x : List UInt8} (hx : behindComma q = 34 :: x)
    (h : (behindComma (behindAlpha (34 :: x))).headD 0 = 34) :
    ∃ a, AlphaField a ∧ q = a ++ behindComma (behindAlpha (34 :: x)) := by
  obtain ⟨g, hg, hgap⟩ := gap_behindComma q
  rw [hx] at hgap
  rw [behindAlpha, List.headD_cons, if_pos rfl, List.dropWhile_cons_of_pos (by decide)] at h ⊢
  obtain ⟨y, hy⟩ : ∃ y, x.dropWhile (fun b => b != 0 && b != 44) = y := ⟨_, rfl⟩
  have hsplit := (List.takeWhile_append_dropWhile (p := fun b => b != 0 && b != 44) (l := x)).symm
  rw [hy] at h hsplit ⊢
  rcases behindComma_cases y with ⟨c, hc, hcomma⟩ | ⟨g', hg', hblank, hno⟩
  · refine ⟨g ++ 34 :: ((x.takeWhile fun b => b != 0 && b != 44) ++ c), .text hg ?_ ?_ hc, ?_⟩
    · exact fun hmem => absurd (List.mem_takeWhile_imp hmem) (by decide)
    · exact fun hmem => absurd (List.mem_takeWhile_imp hmem) (by decide)
    · rw [List.append_assoc, List.cons_append, List.append_assoc, ← hcomma, ← hsplit]
      exact hgap
  · -- without a comma the text goes on to the end
    exfalso
    rcases y with _ | ⟨b, y⟩
    · exact absurd h (by decide)
    have hb := List.head_dropWhile_not (fun b => b != 0 && b != 44) (l := x) (by simp [hy])
    simp only [hy, List.head_cons] at hb
    rcases g' with _ | ⟨b', g'⟩
    · rw [List.nil_append] at hblank
      rw [← hblank, List.headD_cons] at h
      rw [h] at hb
      exact absurd hb (by decide)
    · rw [List.cons_append] at hblank
      rw [(List.cons.inj hblank).1, hg' b' List.mem_cons_self] at hb
      exact absurd hb (by decide)

/-- Without a quote there are two commas. -/
theorem alphaField_of_commas {q : List UInt8} (hquote : (behindComma q).headD 0 ≠ 34)
    (h : (behindComma (behindComma q)).headD 0 = 34) :
    ∃ a, AlphaField a ∧ q = a ++ behindComma (behindComma q) := by
  have hspace := behindComma_head q
  rcases behindComma_cases (behindComma q) with ⟨c', hc', hcomma'⟩ | ⟨g', hg', hblank, -⟩
  · rcases behindComma_cases q with ⟨c, hc, hcomma⟩ | ⟨g, -, -, hno⟩
    · refine ⟨_, .empty hc hc', ?_⟩
      rw [List.append_assoc, ← hcomma']
      exact hcomma
    · -- a comma that comes next has been passed over before
      exfalso
      obtain ⟨a, b, ha, -, rfl⟩ := hc'
      rw [hcomma'] at hno hspace
      rcases a with _ | ⟨d, a⟩
      · exact hno rfl
      · exact hspace (congrArg some (ha d List.mem_cons_self))
  · exfalso
    rcases g' with _ | ⟨d, g'⟩
    · rw [List.nil_append] at hblank
      exact hquote (hblank ▸ h)
    · rw [hblank] at hspace
      exact hspace (congrArg some (hg' d List.mem_cons_self))

/-- What is passed over behind the address is an alpha field. -/
theorem alphaField_of_smsScts {q : List UInt8}
    (h : (behindComma (behindAlpha (behindComma q))).headD 0 = 34) :
    ∃ a, AlphaField a ∧ q = a ++ behindComma (behindAlpha (behindComma q)) := by
  by_cases hquote : (behindComma q).headD 0 = 34
  · rcases hx : behindComma q with _ | ⟨b, x⟩
    · rw [hx] at hquote
      exact absurd hquote (by decide)
    · rw [hx, List.headD_cons] at hquote
      rw [hquote] at hx
      rw [hx] at h
      subst hquote
      exact alphaField_of_quote hx h
  · have hskip : behindAlpha (behindComma q) = behindComma q := if_neg hquote
    rw [hskip] at h ⊢
    exact alphaField_of_commas hquote h

/-- A gap begins with a space or a comma. -/
theorem head_gap {g : List UInt8} (hg : Gap g) (hne : g ≠ []) (m : List UInt8) :
    (g ++ m).headD 0 = 32 ∨ (g ++ m).headD 0 = 44 := by
  rcases hg with hg | ⟨a, b, ha, -, rfl⟩
  · rcases g with _ | ⟨c, g⟩
    · exact absurd rfl hne
    · exact .inl (hg c List.mem_cons_self)
  · rcases a with _ | ⟨c, a⟩
    · exact .inr rfl
    · exact .inl (ha c List.mem_cons_self)

/-- **Over a status field** the parser comes to the address. -/
theorem smsOa_of_statField {s : List UInt8} (hs : StatField s) (m : List UInt8) :
    smsOa (s ++ 34 :: m) = 34 :: m := by
  rw [smsOa]
  cases hs with
  | @name t g ht hg =>
    rw [List.append_assoc, if_pos (by rw [inQuotes_append]; rfl), behindQuoted_inQuotes ht,
      behindComma_of_gap hg]
  | @number d g hd hg hne =>
    rw [List.append_assoc]
    have hstop : behindUint (d ++ (g ++ 34 :: m)) = g ++ 34 :: m := by
      rw [behindUint, List.dropWhile_append, List.dropWhile_eq_nil_iff.mpr hd]
      change (g ++ 34 :: m).dropWhile isDigit = _
      rcases g with _ | ⟨c, g⟩
      · exact List.dropWhile_cons_of_neg (by decide)
      · have hc := head_gap hg (List.cons_ne_nil c g) []
        refine List.dropWhile_cons_of_neg fun hdigit => ?_
        rcases hc with rfl | rfl <;> exact absurd hdigit (by decide)
    have hhead : (d ++ (g ++ 34 :: m)).headD 0 ≠ 34 := by
      rcases d with _ | ⟨c, d⟩
      · rw [List.nil_append] at hne ⊢
        rcases head_gap hg hne (34 :: m) with hc | hc <;> rw [hc] <;> decide
      · intro heq
        have hc := hd c List.mem_cons_self
        rw [show c = 34 from heq] at hc
        exact absurd hc (by decide)
    rw [if_neg hhead, hstop, behindComma_of_gap hg]

/-- **Over an alpha field** it comes to the timestamp. -/
theorem smsScts_of_alphaField {a : List UInt8} (ha : AlphaField a) (m : List UInt8) :
    behindComma (behindAlpha (behindComma (a ++ 34 :: m))) = 34 :: m := by
  cases ha with
  | @empty c c' hc hc' =>
    obtain ⟨b, d, hb, hd, rfl⟩ := hc'
    have hrest : (c ++ (b ++ 44 :: d)) ++ 34 :: m = c ++ (b ++ 44 :: (d ++ 34 :: m)) := by simp
    rw [hrest, behindComma_of_comma hc, dropWhile_blank hb, List.dropWhile_cons_of_neg (by decide),
      behindAlpha, List.headD_cons, if_neg (by decide)]
    exact behindComma_of_gap (g := 44 :: d)
      (.inr ⟨[], d, fun _ h => absurd h List.not_mem_nil, hd, rfl⟩) m
  | @text g t c hg h44 h0 hc =>
    have hrest : (g ++ 34 :: (t ++ c)) ++ 34 :: m = g ++ 34 :: (t ++ (c ++ 34 :: m)) := by simp
    rw [hrest, behindComma_of_gap hg, behindAlpha, List.headD_cons, if_pos rfl,
      List.dropWhile_cons_of_pos (by decide), List.dropWhile_append,
      List.dropWhile_eq_nil_iff.mpr (passed_of_notMem h44 h0)]
    obtain ⟨b, d, hb, hd, rfl⟩ := hc
    -- the skip passes the spaces before the comma as well
    have hpass : ((b ++ 44 :: d) ++ 34 :: m).dropWhile (fun b => b != 0 && b != 44) =
        44 :: (d ++ 34 :: m) := by
      rw [List.append_assoc, List.cons_append]
      exact dropWhile_passed (fun e he => by rw [hb e he]; decide) (by decide)
    change behindComma (((b ++ 44 :: d) ++ 34 :: m).dropWhile _) = _
    rw [hpass]
    exact behindComma_of_gap (g := 44 :: d)
      (.inr ⟨[], d, fun _ h => absurd h List.not_mem_nil, hd, rfl⟩) m

/-- **A header is in text mode** if and only if the parser finds a quote at the address
and at the timestamp. -/
theorem textHeader_iff (m : List UInt8) :
    TextHeader m ↔ (smsOa m).headD 0 = 34 ∧ (smsScts m).headD 0 = 34 := by
  constructor
  · rintro ⟨stat, oa, alpha, rest, hstat, hoa, halpha, rfl⟩
    have hstart : smsOa (stat ++ (inQuotes oa ++ (alpha ++ 34 :: rest))) =
        inQuotes oa ++ (alpha ++ 34 :: rest) := by
      rw [inQuotes_append]
      exact smsOa_of_statField hstat _
    constructor
    · rw [hstart, inQuotes_append]
      rfl
    · rw [smsScts, smsAlpha, hstart, behindQuoted_inQuotes hoa, smsScts_of_alphaField halpha]
      rfl
  · rintro ⟨hoa, hscts⟩
    obtain ⟨stat, hstat, hm⟩ := statField_of_smsOa hoa
    rcases behindQuoted_cases hoa with ⟨oa, hquotable, hsplit⟩ | hend
    · rw [smsScts, smsAlpha] at hscts
      obtain ⟨alpha, halpha, hrest⟩ := alphaField_of_smsScts hscts
      obtain ⟨rest, hquote⟩ : ∃ rest, smsScts m = 34 :: rest := by
        rw [smsScts, smsAlpha]
        rcases hd : behindComma (behindAlpha (behindComma (behindQuoted (smsOa m)))) with _ | ⟨b, rest⟩
        · rw [hd] at hscts
          exact absurd hscts (by decide)
        · rw [hd, List.headD_cons] at hscts
          exact ⟨rest, by rw [hscts]⟩
      rw [smsScts, smsAlpha] at hquote
      rw [hquote] at hrest
      exact ⟨stat, oa, alpha, rest, hstat, hquotable, halpha, by rw [← hrest, ← hsplit, ← hm]⟩
    · -- an address that is not closed is the end of the header
      have halpha : behindAlpha (behindQuoted (smsOa m)) = behindQuoted (smsOa m) :=
        if_neg (by rw [hend]; decide)
      rw [smsScts, smsAlpha, behindComma_end hend, halpha, behindComma_end hend, hend] at hscts
      exact absurd hscts (by decide)

end LibAt
