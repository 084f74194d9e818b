import LibAt.Narrowing
import LibAt.SmsRoundTrip

/-!
# Looking up a PDP address

`at_parse_cgpaddr` goes through the lines of a response for the address of a context. A
line answers for a context when behind the prefix there is a number, equal to the
identifier, and a comma (`IsAnswer`). The code compares the number after a cast to
`uint8_t` (`IsTaken`), stops at the first line that passes, also when it has no comma,
and copies the address into a buffer that it takes to be not empty.

So the lookup is exact where the first line that is taken is one that answers, or where
it makes no difference: no line is taken, or the one that is has no comma and no line
answers. This can be read off the numbers and the commas of the lines, and for lines with
these numbers and commas it is the exact condition (`lookupExact_iff`): under it every
response is looked up rightly, and without it one is not. A single response may still
come out right, when the line that is taken happens to carry the same address.
-/

namespace LibAt

/-- What is behind the prefix of a `+CGPADDR` line and one space. -/
def cgpaddrValue (l : List UInt8) : Option (List UInt8) :=
  if strncmpEq l (ascii "+CGPADDR:") 9 then
    some (if (l.drop 9).head? = some 32 then (l.drop 9).drop 1 else l.drop 9)
  else none

/-- The values of the `+CGPADDR` lines. -/
def cgpaddrValues (r : Response) : List (List UInt8) :=
  (r.lines.take r.numLines).filterMap cgpaddrValue

/-- The value has the form `n,addr`, and the number is the identifier. -/
def IsAnswer (cid : UInt8) (m : List UInt8) : Prop :=
  m.takeWhile isDigit ≠ [] ∧ runValue m = cid.toNat ∧ hasComma (behindUint m) = true

instance (cid : UInt8) (m : List UInt8) : Decidable (IsAnswer cid m) :=
  inferInstanceAs (Decidable (_ ∧ _))

/-- The code takes the number for the identifier. -/
def IsTaken (cid : UInt8) (m : List UInt8) : Prop := (uintAt m).toUInt8 = cid

instance (cid : UInt8) (m : List UInt8) : Decidable (IsTaken cid m) :=
  inferInstanceAs (Decidable (_ = _))

/-- The address in a value: the text in quotes, or all that is there. -/
def addressOf (m : List UInt8) : List UInt8 :=
  let addr := behindComma (behindUint m)
  if addr.headD 0 = 34 then quotedText addr else cstr addr

/-- The value of the first line that answers. -/
def firstAnswer (r : Response) (cid : UInt8) : Option (List UInt8) :=
  (cgpaddrValues r).find? fun m => IsAnswer cid m

/-- The value of the first line that is taken. -/
def firstTaken (r : Response) (cid : UInt8) : Option (List UInt8) :=
  (cgpaddrValues r).find? fun m => IsTaken cid m

/-! ## Numbers and commas -/

/-- What a `+CGPADDR` line is looked at for: its digits, and whether a comma is behind
them. -/
structure Entry where
  digits : List UInt8
  comma : Bool
  deriving DecidableEq, Repr

/-- The entry of a value. -/
def entryOf (m : List UInt8) : Entry := ⟨m.takeWhile isDigit, hasComma (behindUint m)⟩

/-- The entries of the `+CGPADDR` lines, in order. -/
def entries (r : Response) : List Entry := (cgpaddrValues r).map entryOf

namespace Entry

/-- The number is the identifier, and an address can follow. -/
def Answers (cid : UInt8) (e : Entry) : Prop :=
  e.digits ≠ [] ∧ digitsValue e.digits = cid.toNat ∧ e.comma = true

/-- The number, as 32 bits hold it, is the identifier modulo 256. -/
def SameByte (cid : UInt8) (e : Entry) : Prop :=
  saturateUint (digitsValue e.digits) % 256 = cid.toNat

/-- A value with this entry and this address, -/
def value (e : Entry) (addr : List UInt8) : List UInt8 :=
  e.digits ++ if e.comma then 44 :: addr else []

/-- and its line. -/
def line (e : Entry) (addr : List UInt8) : List UInt8 := ascii "+CGPADDR:" ++ e.value addr

end Entry

/-- The condition, on the entries and the size of the buffer: the first number that is the
identifier modulo 256, if there is one, is the identifier, has a comma, and there is a
buffer; or else it has no comma, and nothing in the response answers. (Where the buffer
holds the terminator only, any comma will do, if there is an answer.) -/
def NumbersRight (r : Response) (cid : UInt8) (n : Nat) : Prop :=
  r.status = .ok → ∀ before e after, entries r = before ++ e :: after →
    (∀ x ∈ before, ¬x.SameByte cid) → e.SameByte cid →
      e.Answers cid ∧ 0 < n ∨ e.comma = true ∧ n = 1 ∧ (∃ x ∈ entries r, x.Answers cid) ∨
        e.comma = false ∧ ∀ x ∈ entries r, ¬x.Answers cid

/-- The line whose number is wrong happens to carry the same address as the first line
that answers, as far as the buffer takes it. -/
def SameByChance (r : Response) (cid : UInt8) (n : Nat) : Prop :=
  r.status = .ok ∧ 0 < n ∧ ∃ m m', (addressOf m).take (n - 1) = (addressOf m').take (n - 1) ∧
    (∃ before after, cgpaddrValues r = before ++ m :: after ∧
      (∀ x ∈ before, ¬(entryOf x).SameByte cid) ∧ (entryOf m).SameByte cid ∧
      (entryOf m).comma = true) ∧
    ∃ before after, cgpaddrValues r = before ++ m' :: after ∧
      (∀ x ∈ before, ¬(entryOf x).Answers cid) ∧ (entryOf m').Answers cid

variable {r : Response} {cid : UInt8} {n : Nat}

/-- The code compares what is left of the number in eight bits. -/
theorem isTaken_iff {m : List UInt8} : IsTaken cid m ↔ (entryOf m).SameByte cid := by
  rw [IsTaken, ← UInt8.toNat_inj, UInt32.toNat_toUInt8, toNat_uintAt]
  exact Iff.rfl

/-- A line that answers is taken. -/
theorem IsAnswer.isTaken {m : List UInt8} (h : IsAnswer cid m) : IsTaken cid m := by
  have hcid := cid.toNat_lt
  have hvalue := toNat_uintAt m
  rw [h.2.1, saturateUint, if_pos (by omega)] at hvalue
  rw [IsTaken, ← UInt8.toNat_inj, UInt32.toNat_toUInt8, hvalue]
  exact Nat.mod_eq_of_lt hcid

theorem zero_notMem_addressOf (m : List UInt8) : (0 : UInt8) ∉ addressOf m := by
  rw [addressOf]
  split
  · exact zero_notMem_quotedText _
  · exact zero_notMem_cstr _

theorem firstAnswer_eq_none :
    firstAnswer r cid = none ↔ ¬∃ m ∈ cgpaddrValues r, IsAnswer cid m := by
  simp [firstAnswer]

theorem firstAnswer_of_some {m : List UInt8} (h : firstAnswer r cid = some m) :
    ∃ m ∈ cgpaddrValues r, IsAnswer cid m :=
  ⟨m, List.mem_of_find?_eq_some h, by simpa using List.find?_some h⟩

theorem firstAnswer_of_notTaken (h : firstTaken r cid = none) : firstAnswer r cid = none := by
  rw [firstAnswer_eq_none]
  rintro ⟨m, hm, hans⟩
  have hno := List.find?_eq_none.mp h m hm
  exact hno (by simpa using hans.isTaken)

namespace Checked

/-! ## The lookup -/

/-- `at_parse_cgpaddr` returns `true` exactly when the response is successful and has a
line that answers, and then the buffer holds the address of the first such line, as much
of it as fits. Nothing is written outside the buffer. -/
def LooksUp (r : Response) (cid : UInt8) (buf : Vector UInt8 n) : Prop :=
  Yields (atParseCgpaddr (some r) cid (some buf)) fun x =>
    (x.1 = true ↔ r.status = .ok ∧ ∃ m ∈ cgpaddrValues r, IsAnswer cid m) ∧
      (r.status = .ok → ∀ m ∈ firstAnswer r cid,
        ∃ buf' ∈ x.2, Holds buf' ((addressOf m).take (n - 1)))

/-- It does so for every buffer of a size, whatever the buffer holds. -/
def LookupExact (r : Response) (cid : UInt8) (n : Nat) : Prop :=
  ∀ buf : Vector UInt8 n, LooksUp r cid buf

/-- It does so whatever addresses the lines carry: for every response with the same
status, numbers and commas. -/
def ExactForAll (r : Response) (cid : UInt8) (n : Nat) : Prop :=
  ∀ r' : Response, r'.Valid → r'.status = r.status → entries r' = entries r → LookupExact r' cid n

/-- Of one response, by what the code does with it: the first line that is taken will
do. -/
def TakenRight (r : Response) (cid : UInt8) (n : Nat) : Prop :=
  r.status = .ok → ∀ m ∈ firstTaken r cid,
    if hasComma (behindUint m) then
      0 < n ∧ ∃ m' ∈ firstAnswer r cid, (addressOf m).take (n - 1) = (addressOf m').take (n - 1)
    else firstAnswer r cid = none

/-- The copy of an address. -/
theorem cgpaddrText_eq (hn : 0 < n) (m : List UInt8) (buf : Vector UInt8 n) :
    cgpaddrText (cursor (behindComma (behindUint m))) buf =
      .ok (put buf ((addressOf m).take (n - 1))) := by
  rw [addressOf]
  generalize behindComma (behindUint m) = addr
  rw [cgpaddrText, deref_cursor, ok_bind]
  by_cases hquote : addr.headD 0 = 34
  · rw [if_pos hquote, if_pos hquote, parseQuoted_eq hn, ok_bind, fillQuoted, if_pos hquote]
    rfl
  · rw [if_neg hquote, if_neg hquote, strlen_cursor, ok_bind, copyText_cursor hn]

/-- **Into an empty buffer** the first byte is written behind its end. -/
theorem copyText_empty {b : UInt8} (p : List UInt8) (len : Nat) (buf : Vector UInt8 0) :
    copyText buf (b :: p) len = .error .write := by
  have hcut : (if len ≥ 0 then sizePred 0 else len) = 0xFFFFFFFFFFFFFFFE + 1 :=
    if_pos (Nat.zero_le len)
  rw [copyText, hcut, memcpy, memcpyFrom]
  rfl

theorem exists_cursor_cons (m : List UInt8) : ∃ b p, cursor m = b :: p := by
  rcases h : cursor m with _ | ⟨b, p⟩
  · exact absurd h (List.append_ne_nil_of_right_ne_nil _ (List.cons_ne_nil _ _))
  · exact ⟨b, p, rfl⟩

theorem cgpaddrText_empty (m : List UInt8) (buf : Vector UInt8 0) :
    cgpaddrText (cursor m) buf = .error .write := by
  rw [cgpaddrText, deref_cursor, ok_bind]
  by_cases hquote : m.headD 0 = 34
  · rw [if_pos hquote, parseQuoted, deref_cursor, ok_bind, if_neg (not_not.mpr hquote),
      advance_cursor (strlen_pos (by rw [hquote]; decide)), ok_bind, skipWhile_cursor (by decide),
      ok_bind]
    dsimp only
    rw [skipIf_cursor (by decide), ok_bind]
    obtain ⟨b, p, hp⟩ := exists_cursor_cons (m.drop 1)
    rw [hp, copyText_empty]
    rfl
  · rw [if_neg hquote, strlen_cursor, ok_bind]
    obtain ⟨b, p, hp⟩ := exists_cursor_cons m
    rw [hp, copyText_empty]

/-- What is done with the line that is taken. -/
def onTaken (buf : Vector UInt8 n) (m : List UInt8) : M (Bool × Vector UInt8 n) :=
  if hasComma (behindUint m) then do
    return (true, ← cgpaddrText (cursor (behindComma (behindUint m))) buf)
  else pure (false, buf)

theorem cgpaddrLine_eq (cid : UInt8) (buf : Vector UInt8 n) (l : List UInt8) :
    cgpaddrLine cid buf (cursor l) =
      leave (onTaken buf) ((cgpaddrValue l).filter fun m => IsTaken cid m) := by
  rw [cgpaddrLine, strncmpEq_cursor, ok_bind, cgpaddrValue]
  by_cases hpre : LibAt.strncmpEq l (ascii "+CGPADDR:") 9 = true
  · have hlong : 9 ≤ LibAt.strlen l := @strlen_le_of_strncmpEq l (ascii "+CGPADDR:") hpre
    rw [if_neg (by simp [hpre]), if_pos hpre, advance_cursor hlong, ok_bind,
      skipIf_cursor (by decide), ok_bind, Option.filter_some]
    generalize (if (l.drop 9).head? = some 32 then (l.drop 9).drop 1 else l.drop 9) = m
    rw [uintAt_eq, ok_bind]
    dsimp only
    by_cases htaken : (uintAt m).toUInt8 = cid
    · rw [if_neg (not_not.mpr htaken), atSkipComma_cursor, ok_bind,
        if_pos (decide_eq_true (p := IsTaken cid m) htaken), leave, onTaken]
      cases hasComma (behindUint m) with
      | false => rfl
      | true =>
        simp only [Bool.not_true, Bool.false_eq_true, if_false, if_true]
        cases cgpaddrText (cursor (behindComma (behindUint m))) buf <;> rfl
    · have hfalse : ¬decide (IsTaken cid m) = true := fun h => htaken (of_decide_eq_true h)
      rw [if_pos htaken, if_neg hfalse]
      rfl
  · rw [if_pos (by simp [hpre]), if_neg hpre]
    rfl

theorem findSome?_taken (r : Response) (cid : UInt8) :
    (r.lines.take r.numLines).findSome? (fun l => (cgpaddrValue l).filter fun m => IsTaken cid m) =
      firstTaken r cid := by
  rw [firstTaken, cgpaddrValues]
  generalize r.lines.take r.numLines = ls
  induction ls with
  | nil => rfl
  | cons l ls ih =>
    rw [List.findSome?_cons, List.filterMap_cons]
    cases cgpaddrValue l with
    | none => exact ih
    | some m =>
      dsimp only
      rw [Option.filter_some, List.find?_cons]
      cases decide (IsTaken cid m) with
      | false => exact ih
      | true => rfl

/-- **`at_parse_cgpaddr`** returns what it does with the first line that is taken. -/
theorem atParseCgpaddr_eq (hr : r.Valid) (hs : r.status = .ok) (cid : UInt8)
    (buf : Vector UInt8 n) :
    atParseCgpaddr (some r) cid (some buf) =
      match firstTaken r cid with
      | none => .ok (false, some buf)
      | some m => (onTaken buf m).map fun x => (x.1, some x.2) := by
  rw [atParseCgpaddr, withArgs, if_neg (not_not.mpr hs), eachLine_leave hr (cgpaddrLine_eq cid buf),
    findSome?_taken]
  cases firstTaken r cid with
  | none => rfl
  | some m =>
    dsimp only
    rw [leave]
    generalize onTaken buf m = x
    cases x <;> rfl

theorem atParseCgpaddr_failed (hs : r.status ≠ .ok) (buf : Vector UInt8 n) :
    atParseCgpaddr (some r) cid (some buf) = .ok (false, some buf) := if_pos hs

theorem onTaken_comma (hn : 0 < n) {m : List UInt8} (hcomma : hasComma (behindUint m) = true)
    (buf : Vector UInt8 n) : onTaken buf m = .ok (true, put buf ((addressOf m).take (n - 1))) := by
  rw [onTaken, if_pos hcomma, cgpaddrText_eq hn]
  rfl

theorem onTaken_noComma {m : List UInt8} (hcomma : ¬hasComma (behindUint m) = true)
    (buf : Vector UInt8 n) : onTaken buf m = .ok (false, buf) := if_neg hcomma

/-- The address that is kept, in the buffer. -/
theorem holds_address (hn : 0 < n) (m : List UInt8) (buf : Vector UInt8 n) :
    Holds (put buf ((addressOf m).take (n - 1))) ((addressOf m).take (n - 1)) := by
  refine holds_put ?_ (fun h => zero_notMem_addressOf m (List.mem_of_mem_take h)) buf
  have := List.length_take_le (n - 1) (addressOf m)
  omega

/-- A call that returns `false` is right where no line answers. -/
theorem looksUp_false {buf : Vector UInt8 n} (hno : r.status = .ok → firstAnswer r cid = none)
    (hrun : atParseCgpaddr (some r) cid (some buf) = .ok (false, some buf)) :
    LooksUp r cid buf := by
  refine ⟨(false, some buf), hrun, ?_, ?_⟩
  · constructor
    · intro h
      cases h
    · rintro ⟨hs, hans⟩
      exact absurd hans (firstAnswer_eq_none.mp (hno hs))
  · intro hs m hm
    rw [hno hs] at hm
    cases hm

/-- **Where the first line that is taken will do**, the lookup is exact. -/
theorem exact_of_takenRight (hr : r.Valid) (h : TakenRight r cid n) : LookupExact r cid n := by
  intro buf
  by_cases hs : r.status = .ok
  · rcases htaken : firstTaken r cid with _ | m
    · refine looksUp_false (fun _ => firstAnswer_of_notTaken htaken) ?_
      rw [atParseCgpaddr_eq hr hs, htaken]
    · have hright := h hs m htaken
      by_cases hcomma : hasComma (behindUint m) = true
      · rw [if_pos hcomma] at hright
        obtain ⟨hn, m', hans, hsame⟩ := hright
        refine ⟨(true, some (put buf ((addressOf m).take (n - 1)))), ?_, ?_, ?_⟩
        · rw [atParseCgpaddr_eq hr hs, htaken]
          dsimp only
          rw [onTaken_comma hn hcomma]
          rfl
        · exact ⟨fun _ => ⟨hs, firstAnswer_of_some hans⟩, fun _ => rfl⟩
        · intro _ m'' hm''
          obtain rfl : m' = m'' := Option.some.inj (hans.symm.trans hm'')
          refine ⟨_, rfl, ?_⟩
          rw [← hsame]
          exact holds_address hn m buf
      · -- the search ends at the line without a comma
        rw [if_neg hcomma] at hright
        refine looksUp_false (fun _ => hright) ?_
        rw [atParseCgpaddr_eq hr hs, htaken]
        dsimp only
        rw [onTaken_noComma hcomma]
        rfl
  · exact looksUp_false (fun h => absurd h hs) (atParseCgpaddr_failed hs buf)

/-- The buffer is not empty where a line is taken that has a comma: the lookup does not
run into a fault. -/
theorem pos_of_exact (hr : r.Valid) (hs : r.status = .ok) {m : List UInt8}
    (htaken : firstTaken r cid = some m) (hcomma : hasComma (behindUint m) = true)
    (h : LookupExact r cid n) : 0 < n := by
  rcases Nat.eq_zero_or_pos n with rfl | hn
  · obtain ⟨x, hx, -⟩ := h #v[]
    rw [atParseCgpaddr_eq hr hs, htaken] at hx
    dsimp only at hx
    rw [onTaken, if_pos hcomma, cgpaddrText_empty] at hx
    cases hx
  · exact hn

/-- **Where it will not do**, a wrong address is returned, none at all, or there is a
write behind the end of the buffer. -/
theorem takenRight_of_exact (hr : r.Valid) (h : LookupExact r cid n) : TakenRight r cid n := by
  intro hs m htaken
  split
  · next hcomma =>
    have hn := pos_of_exact hr hs htaken hcomma h
    obtain ⟨x, hx, hbool, haddr⟩ := h (Vector.replicate n 0)
    rw [atParseCgpaddr_eq hr hs, show firstTaken r cid = some m from htaken] at hx
    dsimp only at hx
    rw [onTaken_comma hn hcomma] at hx
    obtain rfl := Except.ok.inj hx
    obtain ⟨m', hans⟩ : ∃ m', firstAnswer r cid = some m' := by
      rw [← Option.ne_none_iff_exists']
      exact fun hno => firstAnswer_eq_none.mp hno (hbool.mp rfl).2
    obtain ⟨buf', hbuf', hholds, -⟩ := haddr hs m' hans
    obtain rfl := Option.some.inj hbuf'
    exact ⟨hn, m', hans, (holds_address hn m _).1.symm.trans hholds⟩
  · next hcomma =>
    obtain ⟨x, hx, hbool, -⟩ := h (Vector.replicate n 0)
    rw [atParseCgpaddr_eq hr hs, show firstTaken r cid = some m from htaken] at hx
    dsimp only at hx
    rw [onTaken_noComma hcomma] at hx
    obtain rfl := Except.ok.inj hx
    refine firstAnswer_eq_none.mpr fun hans => ?_
    have := hbool.mpr ⟨hs, hans⟩
    cases this

theorem takenRight_iff (hr : r.Valid) : LookupExact r cid n ↔ TakenRight r cid n :=
  ⟨takenRight_of_exact hr, exact_of_takenRight hr⟩

/-! ## The condition on the lines -/

/-- The first that has a property, by its place. -/
theorem find?_eq_some_first {α : Type} {p : α → Prop} [DecidablePred p] {l : List α} {a : α} :
    (l.find? fun x => p x) = some a ↔
      ∃ before after, l = before ++ a :: after ∧ (∀ x ∈ before, ¬p x) ∧ p a := by
  rw [List.find?_eq_some_iff_append]
  simp only [decide_eq_true_eq, Bool.not_eq_true', decide_eq_false_iff_not]
  constructor
  · rintro ⟨ha, before, after, hl, hno⟩
    exact ⟨before, after, hl, hno, ha⟩
  · rintro ⟨before, after, hl, hno, ha⟩
    exact ⟨ha, before, after, hl, hno⟩

theorem firstTaken_eq_some {m : List UInt8} : firstTaken r cid = some m ↔
    ∃ before after, cgpaddrValues r = before ++ m :: after ∧
      (∀ x ∈ before, ¬(entryOf x).SameByte cid) ∧ (entryOf m).SameByte cid := by
  simp only [firstTaken, find?_eq_some_first, isTaken_iff]

theorem firstAnswer_eq_some {m : List UInt8} : firstAnswer r cid = some m ↔
    ∃ before after, cgpaddrValues r = before ++ m :: after ∧
      (∀ x ∈ before, ¬(entryOf x).Answers cid) ∧ (entryOf m).Answers cid :=
  find?_eq_some_first

/-- An answer is one of the lines. -/
theorem exists_answer : (∃ m ∈ cgpaddrValues r, IsAnswer cid m) ↔
    ∃ x ∈ entries r, x.Answers cid := by
  rw [entries]
  constructor
  · rintro ⟨m, hm, hans⟩
    exact ⟨_, List.mem_map_of_mem hm, hans⟩
  · rintro ⟨x, hx, hans⟩
    obtain ⟨m, hm, rfl⟩ := List.mem_map.mp hx
    exact ⟨m, hm, hans⟩

/-- **Where the numbers are right**, so is the line that is taken. -/
theorem takenRight_of_numbers (h : NumbersRight r cid n) : TakenRight r cid n := by
  intro hs m hm
  obtain ⟨before, after, hsplit, hno, htaken⟩ := firstTaken_eq_some.mp hm
  have hentries : entries r = before.map entryOf ++ entryOf m :: after.map entryOf := by
    rw [entries, hsplit, List.map_append, List.map_cons]
  have hno' : ∀ x ∈ before.map entryOf, ¬x.SameByte cid := by
    intro x hx
    obtain ⟨l, hl, rfl⟩ := List.mem_map.mp hx
    exact hno l hl
  rcases h hs _ _ _ hentries hno' htaken with ⟨hans, hn⟩ | ⟨hcomma, hn, hans⟩ | ⟨hcomma, hnone⟩
  · have hfirst : firstAnswer r cid = some m := firstAnswer_eq_some.mpr
      ⟨before, after, hsplit, fun x hx hx' => hno x hx (isTaken_iff.mp (IsAnswer.isTaken hx')), hans⟩
    have hcomma : hasComma (behindUint m) = true := hans.2.2
    rw [if_pos hcomma]
    exact ⟨hn, m, hfirst, rfl⟩
  · obtain ⟨m', hm'⟩ : ∃ m', firstAnswer r cid = some m' := by
      rw [← Option.ne_none_iff_exists']
      exact fun hnone => firstAnswer_eq_none.mp hnone (exists_answer.mpr hans)
    subst hn
    have hcomma' : hasComma (behindUint m) = true := hcomma
    rw [if_pos hcomma']
    exact ⟨Nat.one_pos, m', hm', rfl⟩
  · have hcomma' : hasComma (behindUint m) = false := hcomma
    rw [if_neg (by rw [hcomma']; decide)]
    refine firstAnswer_eq_none.mpr fun hans => ?_
    obtain ⟨x, hx, hx'⟩ := exists_answer.mp hans
    exact hnone x hx hx'

/-- For one response there is the chance besides. -/
theorem takenRight_iff_numbers : TakenRight r cid n ↔
    NumbersRight r cid n ∨ SameByChance r cid n := by
  constructor
  · intro h
    by_cases hchance : SameByChance r cid n
    · exact .inr hchance
    refine .inl fun hs before e after hentries hno htaken => ?_
    obtain ⟨values, rest, hsplit, rfl, hrest⟩ := List.map_eq_append_iff.mp hentries
    obtain ⟨m, after', rfl, rfl, rfl⟩ := List.map_eq_cons_iff.mp hrest
    have hno' : ∀ x ∈ values, ¬(entryOf x).SameByte cid :=
      fun x hx => hno _ (List.mem_map_of_mem hx)
    have hright := h hs m (firstTaken_eq_some.mpr ⟨values, after', hsplit, hno', htaken⟩)
    by_cases hcomma : hasComma (behindUint m) = true
    · rw [if_pos hcomma] at hright
      obtain ⟨hn, m', hm', hsame⟩ := hright
      exact absurd ⟨hs, hn, m, m', hsame, ⟨values, after', hsplit, hno', htaken, hcomma⟩,
        firstAnswer_eq_some.mp hm'⟩ hchance
    · rw [if_neg hcomma] at hright
      refine .inr (.inr ⟨Bool.eq_false_of_not_eq_true hcomma, fun x hx hans => ?_⟩)
      exact firstAnswer_eq_none.mp hright (exists_answer.mpr ⟨x, hx, hans⟩)
  · rintro (h | ⟨-, hn, m, m', hsame, ⟨before, after, hsplit, hno, htaken, hcomma⟩, hans⟩)
    · exact takenRight_of_numbers h
    · intro hs m'' hm''
      have hm := firstTaken_eq_some.mpr ⟨before, after, hsplit, hno, htaken⟩
      obtain rfl : m = m'' := Option.some.inj (hm.symm.trans hm'')
      have hcomma' : hasComma (behindUint m) = true := hcomma
      rw [if_pos hcomma']
      exact ⟨hn, m', firstAnswer_eq_some.mpr hans, hsame⟩

/-! ## Lines with the same numbers -/

/-- The digits of an entry are digits. -/
theorem digits_of_mem {e : Entry} (he : e ∈ entries r) : ∀ b ∈ e.digits, isDigit b = true := by
  obtain ⟨m, -, rfl⟩ := List.mem_map.mp he
  exact fun _ hb => List.mem_takeWhile_imp hb

section Value

variable {e : Entry} (hd : ∀ b ∈ e.digits, isDigit b = true)

include hd

theorem cgpaddrValue_entry (addr : List UInt8) : cgpaddrValue (e.line addr) = some (e.value addr) := by
  have hhead : (e.value addr).head? ≠ some 32 := by
    rw [Entry.value]
    rcases hdigits : e.digits with _ | ⟨b, bs⟩
    · cases e.comma <;> simp
    · rw [List.cons_append, List.head?_cons]
      intro heq
      have hb := hd b (hdigits ▸ List.mem_cons_self)
      rw [Option.some.inj heq] at hb
      exact absurd hb (by decide)
  rw [cgpaddrValue, Entry.line]
  exact (if_pos rfl).trans (congrArg some (if_neg hhead))

theorem entryOf_value (addr : List UInt8) : entryOf (e.value addr) = e := by
  obtain ⟨digits, comma⟩ := e
  rw [entryOf, Entry.value, behindUint, List.takeWhile_append_of_pos hd, List.dropWhile_append,
    List.dropWhile_eq_nil_iff.mpr hd]
  cases comma with
  | false => simp [hasComma]
  | true => simp [hasComma, isDigit]

theorem addressOf_value (hcomma : e.comma = true) (b : UInt8) (hb : b = 49 ∨ b = 50) :
    addressOf (e.value [b]) = [b] := by
  have hbehind : behindComma (behindUint (e.value [b])) = [b] := by
    rw [Entry.value, if_pos hcomma, behindUint, List.dropWhile_append,
      List.dropWhile_eq_nil_iff.mpr hd]
    rcases hb with rfl | rfl <;> rfl
  rw [addressOf, hbehind]
  rcases hb with rfl | rfl <;> rfl

end Value

/-- The entries of lines that are written so. -/
theorem cgpaddrValues_lines {es : List Entry} (addr : Entry → List UInt8) (err : Int)
    (hd : ∀ e ∈ es, ∀ b ∈ e.digits, isDigit b = true) :
    cgpaddrValues ⟨.ok, err, es.length, es.map fun e => e.line (addr e)⟩ =
      es.map fun e => e.value (addr e) := by
  rw [cgpaddrValues]
  dsimp only
  rw [List.take_of_length_le (by rw [List.length_map])]
  induction es with
  | nil => rfl
  | cons e es ih =>
    rw [List.map_cons, List.filterMap_cons, cgpaddrValue_entry (hd e List.mem_cons_self),
      ih fun e' he' => hd e' (List.mem_cons_of_mem _ he'), List.map_cons]

/-- A response has no more entries than lines. -/
theorem length_entries_le (r : Response) : (entries r).length ≤ r.numLines := by
  rw [entries, List.length_map, cgpaddrValues]
  have h := List.length_filterMap_le cgpaddrValue (r.lines.take r.numLines)
  rw [List.length_take] at h
  omega

/-- Addresses that tell an entry from all the others, -/
def mark (e x : Entry) : List UInt8 := if x = e then [49] else [50]

/-- and the response with the same entries and these addresses. -/
def markedResponse (r : Response) (e : Entry) : Response :=
  ⟨.ok, 0, (entries r).length, (entries r).map fun x => x.line (mark e x)⟩

theorem markedResponse_values (r : Response) (e : Entry) :
    cgpaddrValues (markedResponse r e) = (entries r).map fun x => x.value (mark e x) :=
  cgpaddrValues_lines (mark e) 0 fun _ hx => digits_of_mem hx

theorem markedResponse_entries (r : Response) (e : Entry) :
    entries (markedResponse r e) = entries r := by
  have hback : ∀ x ∈ entries r, (entryOf ∘ fun x => x.value (mark e x)) x = id x :=
    fun x hx => entryOf_value (digits_of_mem hx) _
  rw [entries, markedResponse_values, List.map_map, List.map_congr_left hback, List.map_id]

theorem markedResponse_valid (hr : r.Valid) (e : Entry) : (markedResponse r e).Valid := by
  refine ⟨Nat.lt_of_le_of_lt (length_entries_le r) hr.narrow, ?_⟩
  rw [markedResponse, List.length_map]

theorem addressOf_marked {e x : Entry} (hx : x ∈ entries r) (hcomma : x.comma = true) :
    addressOf (x.value (mark e x)) = mark e x := by
  rw [mark]
  split
  · exact addressOf_value (digits_of_mem hx) hcomma 49 (.inl rfl)
  · exact addressOf_value (digits_of_mem hx) hcomma 50 (.inr rfl)

/-- **Where they are not right**, there are addresses for which the lookup is wrong: one
for the number that is taken, and another for all the others. -/
theorem numbers_of_exactForAll (hr : r.Valid) (h : ExactForAll r cid n) : NumbersRight r cid n := by
  intro hs before e after hentries hno htaken
  have hmem : e ∈ entries r := by
    rw [hentries]
    exact List.mem_append_right _ List.mem_cons_self
  have hvalid := markedResponse_valid hr e
  have hright : TakenRight (markedResponse r e) cid n := takenRight_of_exact hvalid
    (h _ hvalid hs.symm (markedResponse_entries r e))
  -- the entry is the one that is taken
  have hfirst : firstTaken (markedResponse r e) cid = some (e.value (mark e e)) := by
    refine firstTaken_eq_some.mpr ⟨before.map fun x => x.value (mark e x),
      after.map fun x => x.value (mark e x), ?_, ?_, ?_⟩
    · rw [markedResponse_values, hentries, List.map_append, List.map_cons]
    · intro l hl
      obtain ⟨x, hx, rfl⟩ := List.mem_map.mp hl
      rw [entryOf_value (digits_of_mem (hentries ▸ List.mem_append_left _ hx))]
      exact hno x hx
    · rw [entryOf_value (digits_of_mem hmem)]
      exact htaken
  have htakes := hright rfl _ hfirst
  have hcommaIff : hasComma (behindUint (e.value (mark e e))) = e.comma :=
    congrArg Entry.comma (entryOf_value (digits_of_mem hmem) _)
  rw [hcommaIff] at htakes
  by_cases hcomma : e.comma = true
  · rw [if_pos hcomma] at htakes
    obtain ⟨hn, m', hm', hsame⟩ := htakes
    by_cases hans : e.Answers cid
    · exact .inl ⟨hans, hn⟩
    obtain ⟨_, _, hsplit, -, hans'⟩ := firstAnswer_eq_some.mp hm'
    have hvalue : m' ∈ cgpaddrValues (markedResponse r e) := by
      rw [hsplit]
      exact List.mem_append_right _ List.mem_cons_self
    rw [markedResponse_values] at hvalue
    obtain ⟨x, hx, rfl⟩ := List.mem_map.mp hvalue
    rw [entryOf_value (digits_of_mem hx)] at hans'
    -- the first that answers carries the other address
    have hne : x ≠ e := fun heq => hans (heq ▸ hans')
    rw [addressOf_marked hmem hcomma, addressOf_marked hx hans'.2.2, mark, mark, if_pos rfl,
      if_neg hne] at hsame
    have hone : n = 1 := by
      by_contra hlarge
      rw [List.take_of_length_le (by rw [List.length_singleton]; omega),
        List.take_of_length_le (by rw [List.length_singleton]; omega)] at hsame
      exact absurd hsame (by decide)
    exact .inr (.inl ⟨hcomma, hone, x, hx, hans'⟩)
  · rw [if_neg hcomma] at htakes
    refine .inr (.inr ⟨Bool.eq_false_of_not_eq_true hcomma, fun x hx hans => ?_⟩)
    rw [← markedResponse_entries r e] at hx
    exact firstAnswer_eq_none.mp htakes (exists_answer.mpr ⟨x, hx, hans⟩)

/-- The condition is one on the entries. -/
theorem numbersRight_congr {r' : Response} (hs : r'.status = r.status) (he : entries r' = entries r)
    (h : NumbersRight r cid n) : NumbersRight r' cid n := by
  rw [NumbersRight, hs, he]
  exact h

/-- **When the lookup is exact.** Whatever addresses there are, it is if and only if the
numbers are right; and for one response, if they are or by chance. -/
theorem lookupExact_iff (hr : r.Valid) : (ExactForAll r cid n ↔ NumbersRight r cid n) ∧
    (LookupExact r cid n ↔ NumbersRight r cid n ∨ SameByChance r cid n) := by
  refine ⟨⟨numbers_of_exactForAll hr, fun h r' hr' hs he => ?_⟩, ?_⟩
  · exact exact_of_takenRight hr' (takenRight_of_numbers (numbersRight_congr hs he h))
  · rw [takenRight_iff hr]
    exact takenRight_iff_numbers

/-- A modem with two contexts. -/
theorem lookupExact_iff_two :
    (ExactForAll ⟨.ok, 0, 2, [ascii "+CGPADDR: 1,\"10.0.0.1\"", ascii "+CGPADDR: 2,10.0.0.2"]⟩ 2 16 ↔
      NumbersRight ⟨.ok, 0, 2,
        [ascii "+CGPADDR: 1,\"10.0.0.1\"", ascii "+CGPADDR: 2,10.0.0.2"]⟩ 2 16) ∧
    (LookupExact ⟨.ok, 0, 2, [ascii "+CGPADDR: 1,\"10.0.0.1\"", ascii "+CGPADDR: 2,10.0.0.2"]⟩ 2 16 ↔
      NumbersRight ⟨.ok, 0, 2,
          [ascii "+CGPADDR: 1,\"10.0.0.1\"", ascii "+CGPADDR: 2,10.0.0.2"]⟩ 2 16 ∨
        SameByChance ⟨.ok, 0, 2,
          [ascii "+CGPADDR: 1,\"10.0.0.1\"", ascii "+CGPADDR: 2,10.0.0.2"]⟩ 2 16) :=
  lookupExact_iff ⟨by decide, by decide⟩

/-- The address of context 257 is taken for that of context 1; a line without an address
hides the one that has it; and a buffer without room is written behind its end. -/
theorem lookup_inexact :
    ¬LookupExact ⟨.ok, 0, 2,
        [ascii "+CGPADDR: 257,10.0.0.2", ascii "+CGPADDR: 1,10.0.0.1"]⟩ 1 16 ∧
      ¬LookupExact ⟨.ok, 0, 2, [ascii "+CGPADDR: 1", ascii "+CGPADDR: 1,10.0.0.1"]⟩ 1 16 ∧
      ¬LookupExact ⟨.ok, 0, 1, [ascii "+CGPADDR: 1,10.0.0.1"]⟩ 1 0 := by
  refine ⟨fun h => ?_, fun h => ?_, fun h => ?_⟩
  · obtain ⟨-, m', hans, hsame⟩ := takenRight_of_exact ⟨by decide, by decide⟩ h rfl _ rfl
    obtain rfl : ascii "1,10.0.0.1" = m' := Option.some.inj hans
    exact absurd hsame (by decide)
  · have hnone := takenRight_of_exact ⟨by decide, by decide⟩ h rfl _ rfl
    exact absurd hnone (by decide)
  · exact absurd (pos_of_exact ⟨by decide, by decide⟩ rfl rfl rfl h) (by decide)

end Checked

end LibAt
