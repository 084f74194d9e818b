import LibAt.Fmt

/-!
# Chains of `AB_*` macros

The helpers of `at_gsm.c` build their commands on a local array, by `AB_INIT`
and a sequence of appends. `AbItem` is one append with its argument,
`Ab.appends` runs a sequence of them, and `AbItem.text` is what one of them is
meant to write. A chain of items keeps `Ab.Spec` for the concatenation of the
texts (`Ab.Spec.appends`), so that it is good exactly when the texts and a
terminator fit (`Ab.appends_ok_iff`).

A local array is not initialised: `Local n` is a `char[n]` with whatever the
stack held at its place, and with the memory behind it.
-/

namespace LibAt

/-! ## Local arrays -/

/-- An uninitialised array of `n` bytes on the stack. -/
structure Local (n : Nat) where
  /-- what the array happens to hold -/
  bytes : List UInt8
  size : bytes.length = n
  /-- what happens to stand behind it -/
  beyond : List UInt8

/-- What a call finds at the place of a local array of each size. -/
abbrev Stack := (n : Nat) → Local n

/-- A stack that is all zero. -/
def Stack.zero : Stack := fun n => ⟨List.replicate n 0, List.length_replicate, []⟩

/-! ## Items -/

/-- `at__ab_i32`. -/
def abI32 (v : Int32) (s : AbBuf) : Bool × AbBuf :=
  if v.toInt < 0 then
    -- INT32_MIN has no negative: the detour over `v + 1` stays in range
    let b := ((Ab.mk true s).andThen (abChar 45)).u32 ((-(v.toInt + 1)).toNat + 1)
    (b.ok, b.mem)
  else abU32 (v.toInt.toNat % 2 ^ 32) s

/-- `AB_I32(v)`. -/
def Ab.i32 (v : Int32) (b : Ab) : Ab := b.andThen (abI32 v)

/-- One `AB_*` macro with its argument. -/
inductive AbItem where
  | char (c : UInt8)
  | str (m : List UInt8)
  | qstr (m : List UInt8)
  | u32 (v : UInt32)
  | i32 (v : Int32)
  | u8 (v : UInt8)
  deriving DecidableEq

namespace AbItem

/-- Run the macro. -/
def run : AbItem → Ab → Ab
  | char c, b => b.char c
  | str m, b => b.str m
  | qstr m, b => b.qstr m
  | u32 v, b => b.u32 v.toNat
  | i32 v, b => b.i32 v
  | u8 v, b => b.u8 v.toNat

/-- What it is meant to append. -/
def text : AbItem → List UInt8
  | char c => [c]
  | str m => cstr m
  | qstr m => 34 :: cstr m ++ [34]
  | u32 v => decimal v.toNat
  | i32 v => if v.toInt < 0 then 45 :: decimal v.toInt.natAbs else decimal v.toInt.toNat
  | u8 v => decimal v.toNat

/-- What a sequence of appends is meant to write. -/
def texts (items : List AbItem) : List UInt8 := items.flatMap text

@[simp] theorem texts_nil : texts [] = [] := rfl

@[simp] theorem texts_cons (i : AbItem) (items : List AbItem) :
    texts (i :: items) = i.text ++ texts items := rfl

@[simp] theorem texts_append (items items' : List AbItem) :
    texts (items ++ items') = texts items ++ texts items' :=
  List.flatMap_append

/-- Only a terminator appended as a character would be a NUL. -/
theorem zero_notMem_text {i : AbItem} (h : i ≠ char 0) : (0 : UInt8) ∉ i.text := by
  cases i with
  | char c => simpa [text, eq_comm] using h
  | str m => exact zero_notMem_cstr m
  | qstr m => simp [text, zero_notMem_cstr]
  | u32 v => exact zero_notMem_decimal _
  | i32 v =>
    rw [text]
    split
    · simp [zero_notMem_decimal]
    · exact zero_notMem_decimal _
  | u8 v => exact zero_notMem_decimal _

theorem zero_notMem_texts {items : List AbItem} (h : char 0 ∉ items) :
    (0 : UInt8) ∉ texts items := by
  intro h0
  obtain ⟨i, hi, hmem⟩ := List.mem_flatMap.mp h0
  exact zero_notMem_text (fun heq => h (heq ▸ hi)) hmem

end AbItem

namespace Ab

/-- The macros of a chain, one after the other. -/
def appends (items : List AbItem) (b : Ab) : Ab := items.foldl (fun b i => i.run b) b

variable {arr content : List UInt8} {b : Ab}

theorem Spec.i32 (v : Int32) (h : Spec arr content b) :
    Spec arr (content ++ AbItem.text (.i32 v)) (b.i32 v) := by
  refine h.andThen fun s hl hb hlt => ?_
  have h0 : Spec arr content ⟨true, s⟩ := ⟨by simpa using hlt, fun _ => hb, fun _ => hl⟩
  have hmin := Int32.le_toInt v
  have hmax := Int32.toInt_lt v
  rw [abI32, AbItem.text]
  by_cases hneg : v.toInt < 0
  · rw [if_pos hneg, if_pos hneg]
    have habs : (-(v.toInt + 1)).toNat + 1 = v.toInt.natAbs := by omega
    have h2 := (h0.char 45).u32 (v := v.toInt.natAbs) (by omega)
    rw [List.append_assoc] at h2
    rw [habs]
    exact h2
  · rw [if_neg hneg, if_neg hneg]
    have h2 := h0.u32 (v := v.toInt.toNat) (by omega)
    exact h2

/-- Each macro appends its text. -/
theorem Spec.item (i : AbItem) (h : Spec arr content b) :
    Spec arr (content ++ i.text) (i.run b) := by
  cases i with
  | char c => exact h.char c
  | str m => exact h.str m
  | qstr m => exact h.qstr m
  | u32 v => exact h.u32 v.toNat_lt
  | i32 v => exact h.i32 v
  | u8 v => exact h.u8 v.toNat_lt

theorem Spec.appends (items : List AbItem) :
    ∀ {content : List UInt8} {b : Ab}, Spec arr content b →
      Spec arr (content ++ AbItem.texts items) (b.appends items) := by
  induction items with
  | nil =>
    intro content b h
    rwa [AbItem.texts_nil, List.append_nil]
  | cons i items ih =>
    intro content b h
    have h' := ih (h.item i)
    rwa [List.append_assoc] at h'

/-- A chain started on an array of positive size. -/
theorem spec_of_init {n : Nat} (hn : 0 < n) (buf : Local n) (items : List AbItem) :
    Spec buf.bytes (AbItem.texts items) ((Ab.init buf.bytes).appends items) :=
  (Spec.init (by rw [buf.size]; exact hn)).appends items

/-- `AB_OK()` holds when the texts and a terminator fit. -/
theorem appends_ok_iff {n : Nat} (hn : 0 < n) (buf : Local n) (items : List AbItem) :
    ((Ab.init buf.bytes).appends items).ok = true ↔ (AbItem.texts items).length < n := by
  rw [(spec_of_init hn buf items).ok_iff, buf.size]

/-- Then `AB_DONE()` hands out their concatenation. -/
theorem appends_done {n : Nat} (hn : 0 < n) {buf : Local n} {items : List AbItem}
    (hwf : AbItem.char 0 ∉ items) (hok : ((Ab.init buf.bytes).appends items).ok = true) :
    cstr ((Ab.init buf.bytes).appends items).done = AbItem.texts items :=
  (spec_of_init hn buf items).done hok (AbItem.zero_notMem_texts hwf)

end Ab

end LibAt
