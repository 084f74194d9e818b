import LibAt.CString

/-!
# Runs without a fault

C leaves it undefined what a read behind the terminator of a string does, or a
write outside an array, or a signed operation whose result is no `int`. Here each
of them is a `Fault`, and `M` is the result of code that can run into one.

A pointer into a string is modelled by the bytes from there to the terminator,
with the terminator (`cursor`), so that there is nothing behind the terminator to
be read: the pointer behind it is the empty list. A loop that moves the pointer
is a recursion on that list, and one that does not stop at the terminator ends in
a fault. A loop over an 8-bit index that never reaches its bound is one as well
(`Fault.endless`).

**A safe run is one that yields a result** (`Yields`). Its rules follow the code:
a sequence (`Yields.bind`) and a branch (`Yields.ite`). Each access to memory has an
equation for pointers into a string, and with them a run is followed from one pointer
into the string to the next.
-/

namespace LibAt

/-! ## Results -/

/-- There is a result, and `Q` holds of it. -/
def Yields {ε α : Type} (m : Except ε α) (Q : α → Prop) : Prop := ∃ a, m = .ok a ∧ Q a

namespace Yields

variable {ε α β : Type} {m m' : Except ε α} {f : α → Except ε β} {P Q : α → Prop}
  {R : β → Prop} {a : α}

theorem of_eq (hm : m = .ok a) (h : Q a) : Yields m Q := ⟨a, hm, h⟩

theorem pure (h : Q a) : Yields (pure a : Except ε α) Q := ⟨a, rfl, h⟩

theorem bind (hm : Yields m P) (hf : ∀ a, P a → Yields (f a) R) : Yields (m >>= f) R := by
  obtain ⟨a, rfl, ha⟩ := hm
  exact hf a ha

theorem imp (hm : Yields m P) (h : ∀ a, P a → Q a) : Yields m Q := by
  obtain ⟨a, hm, ha⟩ := hm
  exact ⟨a, hm, h a ha⟩

theorem ite {c : Prop} [Decidable c] (hm : c → Yields m Q) (hm' : ¬c → Yields m' Q) :
    Yields (if c then m else m') Q := by
  by_cases hc : c
  · rw [if_pos hc]
    exact hm hc
  · rw [if_neg hc]
    exact hm' hc

end Yields

@[simp] theorem ok_bind {ε α β : Type} (a : α) (f : α → Except ε β) :
    (Except.ok a >>= f) = f a := rfl

namespace Checked

/-! ## Faults -/

/-- What must not happen. -/
inductive Fault where
  /-- a read behind a terminator or of a pointer that was never set -/
  | read
  /-- a write outside an array -/
  | write
  /-- a signed result that is out of range -/
  | overflow
  /-- a loop that does not end -/
  | endless
  deriving DecidableEq, Repr

/-- The result of code that may fault. -/
abbrev M := Except Fault

/-- The result of a signed operation on `int`. -/
def int32 (v : Int) : M Int :=
  if -0x80000000 ≤ v ∧ v ≤ 0x7FFFFFFF then pure v else throw .overflow

theorem int32_eq {v : Int} (h : -0x80000000 ≤ v ∧ v ≤ 0x7FFFFFFF) : int32 v = .ok v := if_pos h

/-! ## Loops over an index -/

/-- `for (i = 0; i < n; i++)` with an index that starts again at 0 after `w - 1`,
left when the body gives a result. -/
def countedFrom {β : Type} (w n : Nat) (body : Nat → M (Option β)) : Nat → Nat → M (Option β)
  | 0, _ => throw .endless
  | rounds + 1, i =>
    if i < n then do
      match ← body i with
      | some r => return some r
      | none => countedFrom w n body rounds ((i + 1) % w)
    else pure none

/-- As many rounds as there are values of the index. -/
def countedLoop {β : Type} (w n : Nat) (body : Nat → M (Option β)) : M (Option β) :=
  countedFrom w n body w 0

/-! ## Pointers into a string -/

/-- The bytes from a pointer into a string to the terminator, with the terminator. -/
def cursor (mem : List UInt8) : List UInt8 := cstr mem ++ [0]

@[simp] theorem cursor_nil : cursor [] = [0] := rfl

@[simp] theorem cursor_cons_zero (m : List UInt8) : cursor (0 :: m) = [0] := by
  rw [cursor, cstr_cons_zero, List.nil_append]

@[simp] theorem cursor_cons {b : UInt8} (hb : b ≠ 0) (m : List UInt8) :
    cursor (b :: m) = b :: cursor m := by
  rw [cursor, cstr_cons hb, List.cons_append, cursor]

theorem length_cursor (m : List UInt8) : (cursor m).length = strlen m + 1 := by
  rw [cursor, List.length_append, List.length_singleton, strlen]

/-- `*p`. -/
def deref : List UInt8 → M UInt8
  | [] => throw .read
  | b :: _ => pure b

/-- `p += n`. -/
def advance (n : Nat) (p : List UInt8) : M (List UInt8) :=
  if n ≤ p.length then pure (p.drop n) else throw .read

/-- `while (q(*p)) p++;` -/
def skipWhile (q : UInt8 → Bool) : List UInt8 → M (List UInt8)
  | [] => throw .read
  | b :: p => if q b then skipWhile q p else pure (b :: p)

/-- `if (*p == c) p++;` -/
def skipIf (c : UInt8) (p : List UInt8) : M (List UInt8) := do
  if (← deref p) = c then advance 1 p else return p

theorem deref_cursor (m : List UInt8) : deref (cursor m) = .ok (m.headD 0) := by
  cases m with
  | nil => rfl
  | cons b m =>
    by_cases hb : b = 0
    · rw [hb, cursor_cons_zero]
      rfl
    · rw [cursor_cons hb]
      rfl

theorem advance_eq {n : Nat} {p : List UInt8} (h : n ≤ p.length) : advance n p = .ok (p.drop n) :=
  if_pos h

/-- A pointer moves on within the string, at most to its terminator. -/
theorem advance_cursor {n : Nat} {m : List UInt8} (h : n ≤ strlen m) :
    advance n (cursor m) = .ok (cursor (m.drop n)) := by
  have hle : n ≤ (cursor m).length := by
    rw [length_cursor]
    omega
  rw [advance_eq hle, cursor, List.drop_append_of_le_length h, ← cstr_drop m h, cursor]

theorem strlen_pos {m : List UInt8} (h : m.headD 0 ≠ 0) : 1 ≤ strlen m := by
  cases m with
  | nil => exact absurd rfl h
  | cons b m =>
    have hb : b ≠ 0 := h
    rw [strlen, cstr_cons hb, List.length_cons]
    omega

/-- **A scan that stops at NUL** stays in the string. -/
theorem skipWhile_cursor {q : UInt8 → Bool} (hq : q 0 = false) (m : List UInt8) :
    skipWhile q (cursor m) = .ok (cursor (m.dropWhile q)) := by
  induction m with
  | nil =>
    rw [List.dropWhile_nil, cursor_nil, skipWhile, hq]
    rfl
  | cons b m ih =>
    by_cases hb : b = 0
    · rw [hb, List.dropWhile_cons, hq, cursor_cons_zero, skipWhile, hq, if_neg (by simp),
        if_neg (by simp), cursor_cons_zero]
      rfl
    · rw [cursor_cons hb, skipWhile, List.dropWhile_cons]
      by_cases hqb : q b = true
      · rw [if_pos hqb, if_pos hqb, ih]
      · rw [if_neg hqb, if_neg hqb, cursor_cons hb]
        rfl

theorem headD_eq_iff {c : UInt8} (hc : c ≠ 0) (m : List UInt8) :
    m.headD 0 = c ↔ m.head? = some c := by
  cases m with
  | nil => simp [hc.symm]
  | cons b m => simp

theorem skipIf_cursor {c : UInt8} (hc : c ≠ 0) (m : List UInt8) :
    skipIf c (cursor m) = .ok (cursor (if m.head? = some c then m.drop 1 else m)) := by
  rw [skipIf, deref_cursor, ok_bind]
  by_cases hm : m.headD 0 = c
  · rw [if_pos hm, if_pos ((headD_eq_iff hc m).mp hm), advance_cursor (strlen_pos (hm ▸ hc))]
  · rw [if_neg hm, if_neg (mt (headD_eq_iff hc m).mpr hm)]
    rfl

/-! ## String functions -/

/-- `strlen(p)`. -/
def strlen : List UInt8 → M Nat
  | [] => throw .read
  | b :: p => if b = 0 then pure 0 else do return (← strlen p) + 1

/-- `strncmp(p, q, n) == 0`: both strings are read up to the first difference, the
first terminator or the `n`-th byte. -/
def strncmpEq : List UInt8 → List UInt8 → Nat → M Bool
  | _, _, 0 => pure true
  | a :: p, b :: q, n + 1 =>
    if a ≠ b then pure false else if a = 0 then pure true else strncmpEq p q n
  | _, _, _ + 1 => throw .read

theorem zero_mem_cursor (m : List UInt8) : 0 ∈ cursor m := by simp [cursor]

@[simp] theorem cstr_cursor (m : List UInt8) : cstr (cursor m) = cstr m := by
  rw [cursor, cstr_append (zero_notMem_cstr m), cstr_cons_zero, List.append_nil]

/-- The length of what holds a terminator. -/
theorem strlen_eq {p : List UInt8} (hp : 0 ∈ p) : strlen p = .ok (LibAt.strlen p) := by
  induction p with
  | nil => cases hp
  | cons b p ih =>
    by_cases hb : b = 0
    · rw [hb]
      rfl
    · rw [strlen, if_neg hb, ih (List.mem_of_ne_of_mem (Ne.symm hb) hp)]
      change _ = Except.ok (cstr (b :: p)).length
      rw [cstr_cons hb]
      rfl

theorem strncmpEq_cons (a b : UInt8) (p q : List UInt8) (n : Nat) :
    LibAt.strncmpEq (a :: p) (b :: q) (n + 1) =
      if a ≠ b then false else if a = 0 then true else LibAt.strncmpEq p q n := by
  by_cases hab : a = b
  · subst hab
    rw [if_neg (by simp)]
    by_cases ha : a = 0
    · rw [if_pos ha, ha]
      simp [LibAt.strncmpEq]
    · rw [if_neg ha]
      simp [LibAt.strncmpEq, ha]
  · rw [if_pos hab]
    by_cases ha : a = 0
    · have hb : b ≠ 0 := fun hb => hab (ha.trans hb.symm)
      simp [LibAt.strncmpEq, ha, hb]
    · by_cases hb : b = 0
      · simp [LibAt.strncmpEq, ha, hb]
      · simp [LibAt.strncmpEq, ha, hb, hab]

/-- The comparison of two blocks that hold a terminator. -/
theorem strncmpEq_eq {p : List UInt8} (hp : 0 ∈ p) : ∀ {q : List UInt8} (_ : 0 ∈ q) (n : Nat),
    strncmpEq p q n = .ok (LibAt.strncmpEq p q n) := by
  induction p with
  | nil => cases hp
  | cons a p ih =>
    intro q hq n
    cases q with
    | nil => cases hq
    | cons b q =>
      cases n with
      | zero => simp [strncmpEq, LibAt.strncmpEq, Pure.pure, Except.pure]
      | succ n =>
        rw [strncmpEq, strncmpEq_cons]
        by_cases hab : a ≠ b
        · rw [if_pos hab, if_pos hab]
          rfl
        · by_cases ha : a = 0
          · rw [if_neg hab, if_neg hab, if_pos ha, if_pos ha]
            rfl
          · have hb : b ≠ 0 := fun hb => hab fun h => ha (h.trans hb)
            rw [if_neg hab, if_neg hab, if_neg ha, if_neg ha]
            exact ih (List.mem_of_ne_of_mem (Ne.symm ha) hp)
              (List.mem_of_ne_of_mem (Ne.symm hb) hq) n

/-- `strlen` of a pointer into a string. -/
theorem strlen_cursor (m : List UInt8) : strlen (cursor m) = .ok (LibAt.strlen m) := by
  rw [strlen_eq (zero_mem_cursor m), LibAt.strlen, cstr_cursor, LibAt.strlen]

/-- `strncmp` of two pointers into strings. -/
theorem strncmpEq_cursor (m m' : List UInt8) (n : Nat) :
    strncmpEq (cursor m) (cursor m') n = .ok (LibAt.strncmpEq m m' n) := by
  rw [strncmpEq_eq (zero_mem_cursor m) (zero_mem_cursor m'), LibAt.strncmpEq, cstr_cursor,
    cstr_cursor, LibAt.strncmpEq]

/-! ## Arrays -/

/-- `buf[i] = b`. -/
def store {n : Nat} (buf : Vector UInt8 n) (i : Nat) (b : UInt8) : M (Vector UInt8 n) :=
  if h : i < n then pure (buf.set i b) else throw .write

/-- The loop of `memcpy(buf + i, p, len)`. -/
def memcpyFrom {n : Nat} : Vector UInt8 n → Nat → List UInt8 → Nat → M (Vector UInt8 n)
  | buf, _, _, 0 => pure buf
  | _, _, [], _ + 1 => throw .read
  | buf, i, b :: p, len + 1 => do memcpyFrom (← store buf i b) (i + 1) p len

/-- `memcpy(buf, p, len)`. -/
def memcpy {n : Nat} (buf : Vector UInt8 n) (p : List UInt8) (len : Nat) : M (Vector UInt8 n) :=
  memcpyFrom buf 0 p len

theorem store_eq {n i : Nat} (h : i < n) (buf : Vector UInt8 n) (b : UInt8) :
    store buf i b = .ok (buf.set i b) := dif_pos h

end Checked

end LibAt
