import Mathlib.Data.List.Basic
import Mathlib.Data.List.TakeWhile

/-!
# C strings

A `char *` argument is modelled by the memory block it points at, a list of
bytes; behind the end of the block the memory reads as NUL. The C string at
the pointer is what precedes the first NUL (`cstr`), and the `<string.h>`
functions the library uses are functions of it.

`CString n` is the other side: the content of a `char[n]` that holds a
NUL-terminated string. Its fields say that the bytes contain no NUL and that
the terminator fits, so an unterminated buffer cannot be built.
-/

namespace LibAt

/-- The C string at the start of a memory block: the bytes before the first
NUL. -/
def cstr (mem : List UInt8) : List UInt8 := mem.takeWhile (· != 0)

/-- `strlen`. -/
def strlen (mem : List UInt8) : Nat := (cstr mem).length

/-- `strcmp(a, b) == 0`. -/
def strcmpEq (a b : List UInt8) : Bool := cstr a == cstr b

/-- `strncmp(a, b, n) == 0`: the strings agree on their first `n` bytes, a
terminator counting as the end of both. -/
def strncmpEq (a b : List UInt8) (n : Nat) : Bool := (cstr a).take n == (cstr b).take n

/-- The bytes of an ASCII string literal. -/
def ascii (s : String) : List UInt8 := s.toList.map fun c => UInt8.ofNat c.toNat

theorem zero_notMem_cstr (mem : List UInt8) : (0 : UInt8) ∉ cstr mem := by
  intro h
  have := List.mem_takeWhile_imp h
  simp at this

/-- A NUL-free block is its own C string. -/
theorem cstr_eq_self {mem : List UInt8} (h : (0 : UInt8) ∉ mem) : cstr mem = mem := by
  refine List.takeWhile_eq_self_iff.mpr fun b hb => ?_
  have : b ≠ 0 := fun h0 => h (h0 ▸ hb)
  simpa using this

@[simp] theorem cstr_cstr (mem : List UInt8) : cstr (cstr mem) = cstr mem :=
  cstr_eq_self (zero_notMem_cstr mem)

/-- The C string of a NUL-free block stops at the first NUL behind it, or runs
on into what follows. -/
theorem cstr_append {a : List UInt8} (h : (0 : UInt8) ∉ a) (b : List UInt8) :
    cstr (a ++ b) = a ++ cstr b := by
  induction a with
  | nil => rfl
  | cons x a ih =>
    simp only [List.mem_cons, not_or] at h
    have hx : (x != 0) = true := by simpa using Ne.symm h.1
    simp only [cstr, List.cons_append, List.takeWhile_cons, hx, if_true]
    exact congrArg (x :: ·) (ih h.2)

@[simp] theorem cstr_nil : cstr [] = [] := rfl

@[simp] theorem cstr_cons_zero (b : List UInt8) : cstr (0 :: b) = [] := by
  simp [cstr]

@[simp] theorem cstr_cons {c : UInt8} (h : c ≠ 0) (m : List UInt8) :
    cstr (c :: m) = c :: cstr m := by
  simp [cstr, h]

/-- Within the string, its rest is the string at the later pointer. -/
theorem cstr_drop (mem : List UInt8) : ∀ {off : Nat}, off ≤ strlen mem →
    cstr (mem.drop off) = (cstr mem).drop off := by
  induction mem with
  | nil => intro off _; simp
  | cons b mem ih =>
    intro off h
    by_cases hb : b = 0
    · -- the empty string: there is no room to move
      subst hb
      obtain rfl : off = 0 := by simpa [strlen] using h
      rfl
    · rw [strlen, cstr_cons hb] at h
      match off with
      | 0 => rfl
      | off + 1 =>
        rw [cstr_cons hb, List.drop_succ_cons, List.drop_succ_cons]
        exact ih (Nat.le_of_succ_le_succ h)

/-- A block that is cut has the same string, or a cut one. -/
theorem cstr_take (mem : List UInt8) : ∀ n, cstr (mem.take n) = (cstr mem).take n := by
  induction mem with
  | nil => intro n; simp
  | cons b mem ih =>
    intro n
    match n with
    | 0 => simp
    | n + 1 =>
      by_cases hb : b = 0
      · simp [hb]
      · rw [List.take_succ_cons, cstr_cons hb, cstr_cons hb, List.take_succ_cons, ih]

/-- The content of a `char[n]` holding a NUL-terminated string. -/
@[ext] structure CString (n : Nat) where
  /-- the bytes before the terminator -/
  bytes : List UInt8
  /-- the terminator is the first NUL -/
  nulFree : (0 : UInt8) ∉ bytes
  /-- the terminator fits -/
  fits : bytes.length < n
  deriving DecidableEq, Repr

namespace CString

variable {n : Nat}

/-- A zeroed buffer. -/
def empty (h : 0 < n) : CString n := ⟨[], by simp, by simpa using h⟩

/-- `strlen` of the buffer. -/
def length (s : CString n) : Nat := s.bytes.length

@[simp] theorem empty_bytes (h : 0 < n) : (empty h).bytes = [] := rfl

@[simp] theorem cstr_bytes (s : CString n) : cstr s.bytes = s.bytes :=
  cstr_eq_self s.nulFree

/-- Copy a C string into a buffer, cutting it so that the terminator fits. -/
def copy (h : 0 < n) (src : List UInt8) : CString n where
  bytes := (cstr src).take (n - 1)
  nulFree hm := zero_notMem_cstr src (List.mem_of_mem_take hm)
  fits := by
    have := List.length_take_le (n - 1) (cstr src)
    omega

@[simp] theorem copy_bytes (h : 0 < n) (src : List UInt8) :
    (copy h src).bytes = (cstr src).take (n - 1) := rfl

end CString

end LibAt
