import LibAt.Saturation

/-!
# The law of the builder

The append primitives of `at_fmt.h` get an array and its size, and never write the last
byte of it: that one is for the terminator of `AB_DONE()`. To see this in their writes,
the primitives are stated once more with every write checked (`storeAt`), and are run
with the full size on memory that ends one byte before it. They never fault there, and
leave what they leave in the whole array (`Inside`).

**The law** (`builder_law`) is about every array and every sequence of appends: the
length stays below the size, no append writes the last byte, `AB_OK()` says whether all
texts fit, `AB_DONE()` hands out all of them, and a failed append is the last one that
has changed anything.
-/

namespace LibAt

/-! ## Checked appends -/

namespace Checked

/-- `buf[i] = b` in memory of any size. -/
def storeAt (mem : List UInt8) (i : Nat) (b : UInt8) : M (List UInt8) :=
  if i < mem.length then pure (mem.set i b) else throw .write

/-- `at__ab_char`. -/
def abChar (size : Nat) (c : UInt8) (s : AbBuf) : M (Bool × AbBuf) :=
  if s.len + 1 ≥ size then pure (false, s)
  else do return (true, ⟨← storeAt s.buf s.len c, s.len + 1⟩)

/-- `at__ab_str`. -/
def abStr (size : Nat) : List UInt8 → AbBuf → M (Bool × AbBuf)
  | [], _ => throw .read
  | c :: m, s =>
    if c = 0 then pure (true, s)
    else if s.len + 1 ≥ size then pure (false, s)
    else do abStr size m ⟨← storeAt s.buf s.len c, s.len + 1⟩

/-- `_ab_ok = _ab_ok && f(...)`. -/
def andThen (b : Ab) (f : AbBuf → M (Bool × AbBuf)) : M Ab :=
  if b.ok then do
    let (ok, s) ← f b.mem
    return ⟨ok, s⟩
  else pure b

/-- `at__ab_qstr`. -/
def abQstr (size : Nat) (m : List UInt8) (s : AbBuf) : M (Bool × AbBuf) := do
  let b ← andThen ⟨true, s⟩ (abChar size 34)
  let b ← andThen b (abStr size m)
  let b ← andThen b (abChar size 34)
  return (b.ok, b.mem)

/-- The scratch digits of `at__ab_u32`, last one first, in an array with `room` bytes
left. -/
def scratchDigits : Nat → Nat → M (List UInt8)
  | 0, v => if v = 0 then pure [] else throw .write
  | room + 1, v =>
    if v = 0 then pure [] else do return asciiDigit (v % 10) :: (← scratchDigits room (v / 10))

/-- The final loop of `at__ab_u32`. -/
def abChars (size : Nat) : List UInt8 → AbBuf → M (Bool × AbBuf)
  | [], s => pure (true, s)
  | c :: m, s => do
    let (ok, s) ← abChar size c s
    if ok then abChars size m s else return (false, s)

/-- `at__ab_u32`. -/
def abU32 (size : Nat) (v : UInt32) (s : AbBuf) : M (Bool × AbBuf) :=
  if v = 0 then abChar size 48 s
  else do abChars size (← scratchDigits 10 v.toNat).reverse s

/-- `at__ab_i32`. -/
def abI32 (size : Nat) (v : Int32) (s : AbBuf) : M (Bool × AbBuf) :=
  if v.toInt < 0 then do
    let b ← andThen ⟨true, s⟩ (abChar size 45)
    let next ← int32 (v.toInt + 1)
    let magnitude := UInt32.ofInt (← int32 (-next)) + 1
    let b ← andThen b (abU32 size magnitude)
    return (b.ok, b.mem)
  else abU32 size (UInt32.ofInt v.toInt) s

/-- The primitive of a macro, with its argument. -/
def abItem (size : Nat) : AbItem → AbBuf → M (Bool × AbBuf)
  | .char c => abChar size c
  | .str m => abStr size (cursor m)
  | .qstr m => abQstr size (cursor m)
  | .u32 v => abU32 size v
  | .i32 v => abI32 size v
  | .u8 v => abU32 size v.toUInt32

/-- A chain of macros. -/
def appends (size : Nat) : List AbItem → Ab → M Ab
  | [], b => pure b
  | i :: items, b => do appends size items (← andThen b (abItem size i))

end Checked

/-! ## Memory without the last byte -/

/-- The memory with one more byte behind it. -/
def AbBuf.withLast (last : UInt8) (s : AbBuf) : AbBuf := ⟨s.buf ++ [last], s.len⟩

/-- The chain with one more byte behind its memory. -/
def Ab.withLast (last : UInt8) (b : Ab) : Ab := ⟨b.ok, b.mem.withLast last⟩

/-- There are `k` bytes of memory, and the length does not exceed them. -/
structure AbBuf.Within (k : Nat) (s : AbBuf) : Prop where
  size : s.buf.length = k
  le : s.len ≤ k

namespace Checked

/-- With only `k` bytes of memory, `g` does what `f` does with one byte more. -/
def Inside (k : Nat) (g : AbBuf → M (Bool × AbBuf)) (f : AbBuf → Bool × AbBuf) : Prop :=
  ∀ s : AbBuf, s.Within k → Yields (g s) fun r =>
    r.2.Within k ∧ ∀ last, f (s.withLast last) = (r.1, r.2.withLast last)

variable {k : Nat}

theorem storeAt_eq {mem : List UInt8} {i : Nat} (h : i < mem.length) (b : UInt8) :
    storeAt mem i b = .ok (mem.set i b) := if_pos h

/-- Behind a character that fits there is still room for the last byte. -/
theorem within_set {s : AbBuf} (hs : s.Within k) (h : s.len < s.buf.length) (c : UInt8) :
    AbBuf.Within k ⟨s.buf.set s.len c, s.len + 1⟩ := by
  refine ⟨(List.length_set ..).trans hs.size, ?_⟩
  rw [← hs.size]
  exact h

/-- A character that fits is written before the last byte. -/
theorem set_withLast {s : AbBuf} (h : s.len < s.buf.length) (c last : UInt8) :
    (⟨(s.withLast last).buf.set s.len c, s.len + 1⟩ : AbBuf) =
      AbBuf.withLast last ⟨s.buf.set s.len c, s.len + 1⟩ := by
  rw [AbBuf.withLast, AbBuf.withLast, List.set_append_left _ _ h]

theorem length_withLast {s : AbBuf} (hs : s.Within k) (last : UInt8) :
    (s.withLast last).buf.length = k + 1 := by
  rw [AbBuf.withLast, List.length_append, hs.size, List.length_singleton]

theorem abChar_inside (c : UInt8) : Inside k (abChar (k + 1) c) (LibAt.abChar c) := by
  intro s hs
  rw [abChar]
  apply Yields.ite
  · intro hfull
    refine .pure ⟨hs, fun last => ?_⟩
    rw [LibAt.abChar, length_withLast hs]
    exact if_pos hfull
  · intro hroom
    have hlt : s.len < s.buf.length := by
      rw [hs.size]
      omega
    rw [storeAt_eq hlt]
    refine .pure ⟨within_set hs hlt c, fun last => ?_⟩
    rw [LibAt.abChar, length_withLast hs, if_neg (by exact hroom)]
    exact congrArg (Prod.mk true) (set_withLast hlt c last)

theorem abStr_inside (m : List UInt8) : Inside k (abStr (k + 1) (cursor m)) (LibAt.abStr m) := by
  induction m with
  | nil =>
    intro s hs
    exact .pure ⟨hs, fun _ => rfl⟩
  | cons c m ih =>
    intro s hs
    by_cases hc : c = 0
    · rw [hc, cursor_cons_zero]
      exact .pure ⟨hs, fun _ => rfl⟩
    · rw [cursor_cons hc, abStr, if_neg hc]
      apply Yields.ite
      · intro hfull
        refine .pure ⟨hs, fun last => ?_⟩
        rw [LibAt.abStr, if_neg hc, length_withLast hs]
        exact if_pos hfull
      · intro hroom
        have hlt : s.len < s.buf.length := by
          rw [hs.size]
          omega
        rw [storeAt_eq hlt]
        refine (ih _ (within_set hs hlt c)).imp ?_
        rintro r ⟨hr, hrest⟩
        refine ⟨hr, fun last => ?_⟩
        rw [LibAt.abStr, if_neg hc, length_withLast hs, if_neg (by exact hroom), ← hrest last]
        exact congrArg (LibAt.abStr m) (set_withLast hlt c last)

/-- One append of a chain. -/
theorem andThen_inside {g : AbBuf → M (Bool × AbBuf)} {f : AbBuf → Bool × AbBuf}
    (h : Inside k g f) {b : Ab} (hb : b.mem.Within k) :
    Yields (andThen b g) fun b' =>
      b'.mem.Within k ∧ ∀ last, (b.withLast last).andThen f = b'.withLast last := by
  rw [andThen]
  apply Yields.ite
  · intro hok
    refine (h b.mem hb).bind ?_
    rintro ⟨ok, s⟩ ⟨hs, hlast⟩
    refine .pure ⟨hs, fun last => ?_⟩
    rw [Ab.andThen, if_pos (by exact hok), Ab.withLast, hlast last]
    rfl
  · intro hok
    refine .pure ⟨hb, fun last => ?_⟩
    rw [Ab.andThen, if_neg (by exact hok)]

theorem abQstr_inside (m : List UInt8) :
    Inside k (abQstr (k + 1) (cursor m)) (LibAt.abQstr m) := by
  intro s hs
  refine (andThen_inside (abChar_inside 34) (b := ⟨true, s⟩) hs).bind ?_
  rintro b₁ ⟨hb₁, hlast₁⟩
  refine (andThen_inside (abStr_inside m) hb₁).bind ?_
  rintro b₂ ⟨hb₂, hlast₂⟩
  refine (andThen_inside (abChar_inside 34) hb₂).bind ?_
  rintro b₃ ⟨hb₃, hlast₃⟩
  refine .pure ⟨hb₃, fun last => ?_⟩
  have hstart : Ab.mk true (s.withLast last) = Ab.withLast last ⟨true, s⟩ := rfl
  rw [LibAt.abQstr, hstart, hlast₁, hlast₂, hlast₃]
  rfl

/-- Ten scratch digits are enough for 32 bits. -/
theorem scratchDigits_eq (room : Nat) : ∀ v, v < 10 ^ room →
    scratchDigits room v = .ok (lsdDigits room v) := by
  induction room with
  | zero =>
    intro v hv
    obtain rfl : v = 0 := by simpa using hv
    rfl
  | succ room ih =>
    intro v hv
    rw [scratchDigits, lsdDigits]
    split
    · rfl
    · rw [ih _ (Nat.div_lt_of_lt_mul (by rwa [Nat.pow_succ'] at hv))]
      rfl

theorem abChars_inside (m : List UInt8) :
    Inside k (abChars (k + 1) m) (LibAt.abChars m) := by
  induction m with
  | nil =>
    intro s hs
    exact .pure ⟨hs, fun _ => rfl⟩
  | cons c m ih =>
    intro s hs
    refine (abChar_inside c s hs).bind ?_
    rintro ⟨ok, s'⟩ ⟨hs', hlast⟩
    cases ok with
    | false =>
      refine .pure ⟨hs', fun last => ?_⟩
      rw [LibAt.abChars, hlast last]
    | true =>
      refine (ih s' hs').imp ?_
      rintro r ⟨hr, hrest⟩
      refine ⟨hr, fun last => ?_⟩
      rw [LibAt.abChars, hlast last]
      exact hrest last

theorem abU32_inside (v : UInt32) : Inside k (abU32 (k + 1) v) (LibAt.abU32 v.toNat) := by
  intro s hs
  have hv : v.toNat < 10 ^ 10 := Nat.lt_trans v.toNat_lt (by decide)
  rw [abU32]
  apply Yields.ite
  · rintro rfl
    exact abChar_inside 48 s hs
  · intro h0
    have h0' : v.toNat ≠ 0 := fun h => h0 (UInt32.toNat_inj.mp h)
    rw [scratchDigits_eq 10 _ hv, ok_bind]
    refine (abChars_inside _ s hs).imp ?_
    rintro r ⟨hr, hlast⟩
    refine ⟨hr, fun last => ?_⟩
    rw [LibAt.abU32, if_neg h0']
    exact hlast last

/-- A cast to `uint32_t` keeps what is not negative. -/
theorem toNat_ofInt {v : Int} (h0 : 0 ≤ v) (h : v < 4294967296) :
    (UInt32.ofInt v).toNat = v.toNat := by
  rw [UInt32.ofInt, UInt32.toNat_ofNat']
  omega

theorem abI32_inside (v : Int32) : Inside k (abI32 (k + 1) v) (LibAt.abI32 v) := by
  intro s hs
  have hmin := v.le_toInt
  have hmax := v.toInt_lt
  rw [abI32]
  apply Yields.ite
  · intro hneg
    refine (andThen_inside (abChar_inside 45) (b := ⟨true, s⟩) hs).bind ?_
    rintro b₁ ⟨hb₁, hlast₁⟩
    rw [int32_eq (by omega), ok_bind, int32_eq (by omega), ok_bind]
    have hmagnitude : (UInt32.ofInt (-(v.toInt + 1)) + 1).toNat = (-(v.toInt + 1)).toNat + 1 := by
      rw [UInt32.toNat_add, toNat_ofInt (by omega) (by omega)]
      change ((-(v.toInt + 1)).toNat + 1) % 2 ^ 32 = _
      exact Nat.mod_eq_of_lt (by omega)
    refine (andThen_inside (abU32_inside _) hb₁).bind ?_
    rintro b₂ ⟨hb₂, hlast₂⟩
    refine .pure ⟨hb₂, fun last => ?_⟩
    have hstart : Ab.mk true (s.withLast last) = Ab.withLast last ⟨true, s⟩ := rfl
    rw [LibAt.abI32, if_pos hneg, hstart, hlast₁, Ab.u32, Nat.mod_eq_of_lt (by omega),
      ← hmagnitude, hlast₂]
    rfl
  · intro hpos
    have hvalue : (UInt32.ofInt v.toInt).toNat = v.toInt.toNat % 2 ^ 32 := by
      rw [toNat_ofInt (by omega) (by omega)]
      exact (Nat.mod_eq_of_lt (by omega)).symm
    refine (abU32_inside _ s hs).imp ?_
    rintro r ⟨hr, hlast⟩
    refine ⟨hr, fun last => ?_⟩
    rw [LibAt.abI32, if_neg hpos, ← hvalue]
    exact hlast last

/-- The primitive of each macro, and with it the macro. -/
theorem abItem_inside (i : AbItem) {b : Ab} (hb : b.mem.Within k) :
    Yields (andThen b (abItem (k + 1) i)) fun b' =>
      b'.mem.Within k ∧ ∀ last, i.run (b.withLast last) = b'.withLast last := by
  have hu32 {v : UInt32} {last : UInt8} : (b.withLast last).u32 v.toNat =
      (b.withLast last).andThen (LibAt.abU32 v.toNat) := by
    rw [Ab.u32, Nat.mod_eq_of_lt v.toNat_lt]
  cases i with
  | char c => exact andThen_inside (abChar_inside c) hb
  | str m => exact andThen_inside (abStr_inside m) hb
  | qstr m => exact andThen_inside (abQstr_inside m) hb
  | u32 v =>
    refine (andThen_inside (abU32_inside v) hb).imp ?_
    rintro b' ⟨hb', hlast⟩
    exact ⟨hb', fun last => hu32.trans (hlast last)⟩
  | i32 v => exact andThen_inside (abI32_inside v) hb
  | u8 v =>
    refine (andThen_inside (abU32_inside v.toUInt32) hb).imp ?_
    rintro b' ⟨hb', hlast⟩
    refine ⟨hb', fun last => ?_⟩
    rw [AbItem.run, Ab.u8, Nat.mod_eq_of_lt v.toNat_lt, ← UInt8.toNat_toUInt32, hu32]
    exact hlast last

/-- **A chain does without the last byte.** -/
theorem appends_inside (items : List AbItem) : ∀ {b : Ab}, b.mem.Within k →
    Yields (appends (k + 1) items b) fun b' =>
      b'.mem.Within k ∧ ∀ last, (b.withLast last).appends items = b'.withLast last := by
  induction items with
  | nil =>
    intro b hb
    exact .pure ⟨hb, fun _ => rfl⟩
  | cons i items ih =>
    intro b hb
    refine (abItem_inside i hb).bind ?_
    rintro b₁ ⟨hb₁, hlast₁⟩
    refine (ih hb₁).imp ?_
    rintro b₂ ⟨hb₂, hlast₂⟩
    refine ⟨hb₂, fun last => ?_⟩
    rw [← hlast₂ last, ← hlast₁ last]
    rfl

end Checked

/-! ## The law -/

/-- After a failure every further append does nothing. -/
theorem Ab.appends_failed {b : Ab} (hb : b.ok = false) (items : List AbItem) :
    b.appends items = b := by
  have hrun (i : AbItem) : i.run b = b := by
    have hstop (f : AbBuf → Bool × AbBuf) : b.andThen f = b := if_neg (by simp [hb])
    cases i <;> exact hstop _
  induction items with
  | nil => rfl
  | cons i items ih =>
    rw [Ab.appends, List.foldl_cons, hrun]
    exact ih

/-- What a chain does with an array that holds `mem` and one last byte. -/
structure BuilderLaw (mem : List UInt8) (last : UInt8) (items : List AbItem) : Prop where
  /-- the length never exceeds the size less one -/
  length_le : ∀ items', items' <+: items →
    ((Ab.init (mem ++ [last])).appends items').mem.len ≤ mem.length
  /-- no append writes behind `mem`: with the same size it runs without a fault where the
  memory ends there -/
  inside : ∃ b, Checked.appends (mem.length + 1) items (Ab.init mem) = .ok b ∧
    (Ab.init (mem ++ [last])).appends items = b.withLast last
  /-- `AB_OK()` holds when all texts fit -/
  ok_iff : ((Ab.init (mem ++ [last])).appends items).ok = true ↔
    (AbItem.texts items).length ≤ mem.length
  /-- then `AB_DONE()` yields their concatenation -/
  done : ((Ab.init (mem ++ [last])).appends items).ok = true →
    cstr ((Ab.init (mem ++ [last])).appends items).done = AbItem.texts items
  /-- a failed append is the last one that has changed anything -/
  failed : ∀ items' rest, items = items' ++ rest →
    ((Ab.init (mem ++ [last])).appends items').ok = false →
    (Ab.init (mem ++ [last])).appends items = (Ab.init (mem ++ [last])).appends items'

/-- **The law of the builder**, for every array and every sequence of appends without a
NUL among the characters. -/
theorem builder_law (mem : List UInt8) (last : UInt8) (items : List AbItem)
    (hitems : AbItem.char 0 ∉ items) : BuilderLaw mem last items := by
  have hinit : (Ab.init mem).mem.Within mem.length := ⟨rfl, Nat.zero_le _⟩
  have hstart : Ab.init (mem ++ [last]) = (Ab.init mem).withLast last := rfl
  have hsize : 0 < (mem ++ [last]).length := by simp
  have hspec := (Ab.Spec.init hsize).appends items
  rw [List.nil_append] at hspec
  refine ⟨fun items' _ => ?_, ?_, ?_, fun hok => ?_, ?_⟩
  · obtain ⟨b, -, hb, hlast⟩ := Checked.appends_inside items' hinit
    rw [hstart, hlast last]
    exact hb.le
  · obtain ⟨b, hrun, -, hlast⟩ := Checked.appends_inside items hinit
    exact ⟨b, hrun, hlast last⟩
  · rw [hspec.ok_iff, List.length_append, List.length_singleton]
    exact Nat.lt_succ_iff
  · exact hspec.done hok (AbItem.zero_notMem_texts hitems)
  · rintro items' rest rfl hfailed
    rw [Ab.appends, List.foldl_append]
    exact Ab.appends_failed hfailed rest

/-- A quoted text that breaks off in the middle, and a shorter one that would fit. -/
theorem builder_law_broken_off :
    BuilderLaw [1, 2, 3, 4] 5 [.qstr (ascii "abc"), .i32 (-7), .char 44] :=
  builder_law _ _ _ (by decide)

end LibAt
