import LibAt.CString
import LibAt.Decimal

/-!
# Serializers and parsers (`at_fmt.h`)

The append primitives `at__ab_*` work on a fixed array and a length, write at
`buf[len]`, and refuse when that would take the byte reserved for the
terminator. The `AB_*` macros chain them and stop at the first failure
(`Ab.andThen`).

`Ab.Spec arr content b` is what every chain maintains, started from an array
that holds `arr`: the chain is still good exactly when the content fits, and
then the array holds the content followed by the untouched rest of `arr` —
no terminator is written before `AB_DONE()`.
-/

namespace LibAt

/-! ## Append primitives -/

/-- A character array, of which `len` bytes have been appended. The `size`
argument of the C functions is the length of the array. -/
structure AbBuf where
  buf : List UInt8
  len : Nat
  deriving DecidableEq, Repr

/-- `at__ab_char`. -/
def abChar (c : UInt8) (s : AbBuf) : Bool × AbBuf :=
  if s.len + 1 ≥ s.buf.length then (false, s)
  else (true, ⟨s.buf.set s.len c, s.len + 1⟩)

/-- `at__ab_str`: one character at a time, up to the terminator of the
argument. -/
def abStr : List UInt8 → AbBuf → Bool × AbBuf
  | [], s => (true, s)
  | c :: m, s =>
    if c = 0 then (true, s)
    else if s.len + 1 ≥ s.buf.length then (false, s)
    else abStr m ⟨s.buf.set s.len c, s.len + 1⟩

/-- The value of `_ab_ok` and the buffer, as the macros thread them. -/
structure Ab where
  ok : Bool
  mem : AbBuf
  deriving DecidableEq, Repr

/-- `_ab_ok = _ab_ok && f(...)`. -/
def Ab.andThen (b : Ab) (f : AbBuf → Bool × AbBuf) : Ab :=
  if b.ok then ⟨(f b.mem).1, (f b.mem).2⟩ else b

/-- `at__ab_qstr`. -/
def abQstr (m : List UInt8) (s : AbBuf) : Bool × AbBuf :=
  let b := (((Ab.mk true s).andThen (abChar 34)).andThen (abStr m)).andThen (abChar 34)
  (b.ok, b.mem)

/-- The final loop of `at__ab_u32`: the scratch digits, last one first. -/
def abChars : List UInt8 → AbBuf → Bool × AbBuf
  | [], s => (true, s)
  | c :: m, s =>
    match abChar c s with
    | (true, s') => abChars m s'
    | (false, s') => (false, s')

/-- `at__ab_u32`: ten scratch digits hold every 32-bit value. -/
def abU32 (v : Nat) (s : AbBuf) : Bool × AbBuf :=
  if v = 0 then abChar 48 s else abChars (lsdDigits 10 v).reverse s

namespace Ab

/-- `AB_INIT(buf, sizeof(buf))` on an array that holds `arr`. -/
def init (arr : List UInt8) : Ab := ⟨true, ⟨arr, 0⟩⟩

/-- `AB_CHAR(c)`. -/
def char (c : UInt8) (b : Ab) : Ab := b.andThen (abChar c)

/-- `AB_STR(s)`. -/
def str (m : List UInt8) (b : Ab) : Ab := b.andThen (abStr m)

/-- `AB_QSTR(s)`. -/
def qstr (m : List UInt8) (b : Ab) : Ab := b.andThen (abQstr m)

/-- `AB_U32(v)`. -/
def u32 (v : Nat) (b : Ab) : Ab := b.andThen (abU32 (v % 2 ^ 32))

/-- `AB_U8(v)`. -/
def u8 (v : Nat) (b : Ab) : Ab := b.u32 (v % 2 ^ 8)

/-- `AB_DONE()`: terminate, and hand out the array. -/
def done (b : Ab) : List UInt8 := b.mem.buf.set b.mem.len 0

/-- What a chain of appends maintains. -/
structure Spec (arr content : List UInt8) (b : Ab) : Prop where
  /-- the chain is good exactly when the content and a terminator fit -/
  ok_iff : b.ok = true ↔ content.length < arr.length
  /-- the array holds the content, then the old bytes -/
  buf : b.ok = true → b.mem.buf = content ++ arr.drop content.length
  /-- the length is the content's -/
  len : b.ok = true → b.mem.len = content.length

variable {arr content : List UInt8} {b : Ab}

theorem Spec.init (h : 0 < arr.length) : Spec arr [] (Ab.init arr) :=
  ⟨by simpa [Ab.init] using h, fun _ => rfl, fun _ => rfl⟩

/-- Writing behind the content: the first old byte is replaced. -/
theorem set_append_drop {c : UInt8} (h : content.length < arr.length) :
    (content ++ arr.drop content.length).set content.length c =
      (content ++ [c]) ++ arr.drop (content.length + 1) := by
  rw [List.set_append_right _ _ (Nat.le_refl _), Nat.sub_self, List.drop_eq_getElem_cons h,
    List.set_cons_zero, List.append_assoc]
  rfl

/-- One step of a chain: `f` appends `piece` where it fits and reports whether
it did. -/
theorem Spec.andThen {f : AbBuf → Bool × AbBuf} {piece : List UInt8}
    (hf : ∀ s : AbBuf, s.len = content.length → s.buf = content ++ arr.drop content.length →
      content.length < arr.length → Spec arr (content ++ piece) ⟨(f s).1, (f s).2⟩)
    (h : Spec arr content b) : Spec arr (content ++ piece) (b.andThen f) := by
  rw [Ab.andThen]
  cases hok : b.ok with
  | true =>
    rw [if_pos rfl]
    exact hf b.mem (h.len hok) (h.buf hok) (h.ok_iff.mp hok)
  | false =>
    have hlt : ¬ content.length < arr.length := fun hlt => by simp [h.ok_iff.mpr hlt] at hok
    refine ⟨?_, fun hb => ?_, fun hb => ?_⟩
    · simp only [Bool.false_eq_true, if_false, hok, false_iff, List.length_append]
      omega
    · simp [hok] at hb
    · simp [hok] at hb

/-- `at__ab_char` appends its character. -/
theorem abChar_spec (c : UInt8) (s : AbBuf) (hl : s.len = content.length)
    (hb : s.buf = content ++ arr.drop content.length) (hlt : content.length < arr.length) :
    Spec arr (content ++ [c]) ⟨(abChar c s).1, (abChar c s).2⟩ := by
  have hsize : s.buf.length = arr.length := by
    rw [hb, List.length_append, List.length_drop]
    omega
  rw [abChar, hl, hsize]
  by_cases hfull : content.length + 1 ≥ arr.length
  · rw [if_pos hfull]
    refine ⟨?_, fun h => by simp at h, fun h => by simp at h⟩
    simp only [Bool.false_eq_true, false_iff, List.length_append, List.length_singleton]
    omega
  · rw [if_neg hfull]
    refine ⟨?_, fun _ => ?_, fun _ => ?_⟩
    · simp only [true_iff, List.length_append, List.length_singleton]
      omega
    · simp only [hb, List.length_append, List.length_singleton]
      exact set_append_drop hlt
    · simp

theorem Spec.char (c : UInt8) (h : Spec arr content b) :
    Spec arr (content ++ [c]) (b.char c) :=
  h.andThen (abChar_spec c)

/-- A run of `at__ab_char` that stops at the first failure appends all of its
characters or reports that they do not fit. -/
theorem abChars_spec (m : List UInt8) :
    ∀ (content : List UInt8) (s : AbBuf), s.len = content.length →
      s.buf = content ++ arr.drop content.length → content.length < arr.length →
      Spec arr (content ++ m) ⟨(abChars m s).1, (abChars m s).2⟩ := by
  induction m with
  | nil =>
    intro content s hl hb hlt
    rw [List.append_nil]
    exact ⟨by simpa [abChars] using hlt, fun _ => hb, fun _ => hl⟩
  | cons c m ih =>
    intro content s hl hb hlt
    have hc : Spec arr (content ++ [c]) ⟨(abChar c s).1, (abChar c s).2⟩ :=
      abChar_spec c s hl hb hlt
    rw [abChars]
    rcases hcs : abChar c s with ⟨_ | _, s'⟩ <;> rw [hcs] at hc
    · have hno := hc.ok_iff
      refine ⟨?_, fun h => by simp at h, fun h => by simp at h⟩
      simp only [Bool.false_eq_true, false_iff, List.length_append, List.length_cons,
        List.length_nil] at hno ⊢
      omega
    · have := ih (content ++ [c]) s' (hc.len rfl) (hc.buf rfl) (hc.ok_iff.mp rfl)
      rwa [List.append_assoc] at this

/-- `at__ab_str` is the same loop, stopped at the terminator. -/
theorem abStr_eq_abChars (m : List UInt8) : ∀ s, abStr m s = abChars (cstr m) s := by
  induction m with
  | nil => intro s; rfl
  | cons c m ih =>
    intro s
    by_cases h0 : c = 0
    · subst h0
      simp [abStr, abChars]
    · rw [cstr_cons h0, abStr, abChars, if_neg h0, abChar]
      split <;> simp [ih]

theorem Spec.str (m : List UInt8) (h : Spec arr content b) :
    Spec arr (content ++ cstr m) (b.str m) := by
  refine h.andThen fun s hl hb hlt => ?_
  rw [abStr_eq_abChars]
  exact abChars_spec (cstr m) content s hl hb hlt

theorem Spec.qstr (m : List UInt8) (h : Spec arr content b) :
    Spec arr (content ++ (34 :: cstr m ++ [34])) (b.qstr m) := by
  refine h.andThen fun s hl hb hlt => ?_
  have h0 : Spec arr content ⟨true, s⟩ := ⟨by simpa using hlt, fun _ => hb, fun _ => hl⟩
  have h3 := (((h0.char 34).str m).char 34)
  have hassoc : content ++ [34] ++ cstr m ++ [34] = content ++ (34 :: cstr m ++ [34]) := by
    simp
  rw [hassoc] at h3
  exact h3

theorem Spec.u32 {v : Nat} (hv : v < 2 ^ 32) (h : Spec arr content b) :
    Spec arr (content ++ decimal v) (b.u32 v) := by
  refine h.andThen fun s hl hb hlt => ?_
  rw [Nat.mod_eq_of_lt hv, abU32]
  by_cases h0 : v = 0
  · rw [if_pos h0, decimal, if_pos h0]
    exact abChar_spec 48 s hl hb hlt
  · rw [if_neg h0, lsdDigits_reverse (by omega) h0]
    exact abChars_spec (decimal v) content s hl hb hlt

theorem Spec.u8 {v : Nat} (hv : v < 2 ^ 8) (h : Spec arr content b) :
    Spec arr (content ++ decimal v) (b.u8 v) := by
  rw [Ab.u8, Nat.mod_eq_of_lt hv]
  exact h.u32 (by omega)

/-- `AB_DONE()` hands out exactly the content. -/
theorem Spec.done (h : Spec arr content b) (hok : b.ok = true) (h0 : (0 : UInt8) ∉ content) :
    cstr b.done = content := by
  rw [Ab.done, h.buf hok, h.len hok, set_append_drop (h.ok_iff.mp hok), List.append_assoc,
    cstr_append h0]
  simp

end Ab

/-! ## Integer parser -/

/-- `c >= '0' && c <= '9'`. -/
def isDigit (b : UInt8) : Bool := 48 ≤ b && b ≤ 57

/-- The digit loop of `at__parse_int`. -/
def parseIntDigits : Nat → List UInt8 → Nat × List UInt8
  | v, [] => (v, [])
  | v, b :: p =>
    if isDigit b then
      parseIntDigits (if v ≤ (0x7FFFFFFF - 9) / 10 then v * 10 + (b.toNat - 48) else 0x7FFFFFFF) p
    else (v, b :: p)

/-- `at__parse_int`: the value and the rest of the text. -/
def atParseInt (p : List UInt8) : Int × List UInt8 :=
  let p := p.dropWhile fun b => b == 32 || b == 9
  let (neg, p) : Bool × List UInt8 :=
    match p with
    | 45 :: q => (true, q)
    | 43 :: q => (false, q)
    | q => (false, q)
  let (v, p) := parseIntDigits 0 p
  (if neg then -(v : Int) else v, p)

end LibAt
