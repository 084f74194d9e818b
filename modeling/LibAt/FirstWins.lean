import LibAt.Lines
import LibAt.Registry

/-!
# Which handler takes a line

`at.h` promises that handlers are tried in the order in which they were registered.
Here that order is a registry (`Registry.register`, `Registry.deregister`), and the
table refines it: each slot in use holds one of its entries. `urc_dispatch` searches
the table slot by slot, and `at_register_urc` takes the lowest free slot, which may
be one that an older entry has left. So the table keeps the order as long as no new
handler goes below an older one that can take the same line (`OrderlyCall`), and
then the first registered wins (`first_registered_wins`); otherwise it need not
(`later_handler_wins`).
-/

namespace LibAt

variable {cfg : Config} {σ : Type}

/-! ## Handlers -/

/-- What is registered. -/
structure Handler where
  pre : List UInt8
  cb : Ptr
  user : Ptr
  deriving DecidableEq, Repr

/-- What a slot in use holds. -/
def UrcEntry.handler (u : UrcEntry cfg) : Option Handler :=
  if u.active then some ⟨u.pre.bytes, u.cb, u.user⟩ else none

/-- What the table holds. -/
def handlers (g : Engine cfg) : Fin cfg.urcTableSize → Option Handler :=
  UrcEntry.handler ∘ g.urcTable

/-- As much of a prefix as a slot holds. -/
def urcKey (cfg : Config) (p : List UInt8) : List UInt8 := (cstr p).take (cfg.lineMax - 1)

theorem handlers_update (g : Engine cfg) (i : Fin cfg.urcTableSize) (u : UrcEntry cfg) :
    handlers { g with urcTable := Function.update g.urcTable i u } =
      Function.update (handlers g) i u.handler :=
  Function.comp_update _ _ _ _

theorem handlers_eq_none_iff (g : Engine cfg) (i : Fin cfg.urcTableSize) :
    handlers g i = none ↔ (g.urcTable i).active = false := by
  rw [handlers, Function.comp, UrcEntry.handler]
  cases (g.urcTable i).active <;> simp

/-- A prefix is registered in the slot that holds it. -/
theorem registered_iff (g : Engine cfg) (i : Fin cfg.urcTableSize) (p : List UInt8) :
    (g.urcTable i).registered p = true ↔ ∃ e, handlers g i = some e ∧ e.pre = urcKey cfg p := by
  have hfits := (g.urcTable i).pre.fits
  have hbytes : (cstr (g.urcTable i).pre.bytes).take (cfg.lineMax - 1) =
      (g.urcTable i).pre.bytes := by
    rw [cstr_eq_self (g.urcTable i).pre.nulFree]
    exact List.take_of_length_le (by omega)
  rw [UrcEntry.registered, strncmpEq, hbytes, handlers, Function.comp, UrcEntry.handler, urcKey]
  cases (g.urcTable i).active <;> simp

/-- A search that returns has found the first slot, also in a table that is too
large for its index. -/
theorem uint8Search_some {n : Nat} {p : Fin n → Bool} {m : Option (Fin n)} (rounds : Nat) :
    ∀ {i : Nat}, (∀ j : Fin n, j.val < i → p j = false) → uint8Search p rounds i = some m →
      m = (List.finRange n).find? p := by
  induction rounds with
  | zero =>
    intro i _ h
    cases h
  | succ rounds ih =>
    intro i hlow h
    rw [uint8Search] at h
    split at h
    · rename_i hi
      split at h
      · rename_i hp
        rw [← Option.some.inj h]
        symm
        exact Registry.find_finRange hp fun j hj => hlow j hj
      · rename_i hp
        refine ih ?_ h
        intro j hj
        rcases Nat.lt_or_ge j.val i with hlt | hge
        · exact hlow j hlt
        · -- the index has not come round, so `j` is slot `i`
          have hle := Nat.mod_le (i + 1) 256
          have hji : j = ⟨i, hi⟩ := Fin.ext (show j.val = i by omega)
          rw [hji]
          exact Bool.eq_false_of_not_eq_true hp
    · rename_i hi
      rw [← Option.some.inj h]
      symm
      rw [List.find?_eq_none]
      intro j _
      simp [hlow j (Nat.lt_of_lt_of_le j.isLt (Nat.not_lt.mp hi))]

theorem urcSearch_some {p : Fin cfg.urcTableSize → Bool} {m : Option (Fin cfg.urcTableSize)}
    (h : urcSearch p = some m) : m = (List.finRange _).find? p :=
  uint8Search_some 256 (fun _ hj => absurd hj (Nat.not_lt_zero _)) h

/-! ## What the two calls do to the table -/

/-- What a successful search for a prefix says. -/
theorem find_registered {g : Engine cfg} {p : List UInt8} {m : Option (Fin cfg.urcTableSize)}
    (h : urcSearch (fun i => (g.urcTable i).registered p) = some m) :
    (∀ i, m = some i → ∃ e, handlers g i = some e ∧ e.pre = urcKey cfg p) ∧
      (m = none → ∀ i e, handlers g i = some e → e.pre ≠ urcKey cfg p) := by
  have hm := urcSearch_some h
  constructor
  · rintro i rfl
    exact (registered_iff g i p).mp (Registry.of_find_finRange hm.symm).1
  · rintro rfl i e he hpre
    exact List.find?_eq_none.mp hm.symm i (List.mem_finRange i)
      ((registered_iff g i p).mpr ⟨e, he, hpre⟩)

/-- What `at_register_urc` does to the table. -/
inductive Registers (g : Engine cfg) (a : Handler) : (Fin cfg.urcTableSize → Option Handler) → Prop
  /-- the entry is replaced -/
  | again (i e) : handlers g i = some e → e.pre = a.pre →
    Registers g a (Function.update (handlers g) i (some a))
  /-- it goes into the lowest free slot -/
  | new (i) : (∀ j e, handlers g j = some e → e.pre ≠ a.pre) → handlers g i = none →
    (∀ j < i, handlers g j ≠ none) → Registers g a (Function.update (handlers g) i (some a))
  /-- there is none -/
  | full : (∀ j e, handlers g j = some e → e.pre ≠ a.pre) → (∀ j, handlers g j ≠ none) →
    Registers g a (handlers g)

/-- What the call answers, and what it does to the table. -/
theorem atRegisterUrc_cases {p : List UInt8} {f user : Ptr} {g g' : Engine cfg} {r : AtResult}
    (h : atRegisterUrc (some p) (some f) user g = some (r, g')) :
    (∃ i e, handlers g i = some e ∧ e.pre = urcKey cfg p ∧ r = .ok ∧
      handlers g' = Function.update (handlers g) i (some ⟨urcKey cfg p, f, user⟩)) ∨
    (∀ j e, handlers g j = some e → e.pre ≠ urcKey cfg p) ∧
      ((∃ i, handlers g i = none ∧ (∀ j < i, handlers g j ≠ none) ∧ r = .ok ∧
        handlers g' = Function.update (handlers g) i (some ⟨urcKey cfg p, f, user⟩)) ∨
      (∀ j, handlers g j ≠ none) ∧ r = .errBusy ∧ g' = g) := by
  rw [atRegisterUrc] at h
  obtain ⟨m, hm, h⟩ := Option.bind_eq_some_iff.mp h
  obtain ⟨hfound, hnew⟩ := find_registered hm
  cases m with
  | some i =>
    obtain ⟨e, he, hpre⟩ := hfound i rfl
    obtain ⟨hr, hg'⟩ := Prod.mk.inj (Option.some.inj h)
    refine .inl ⟨i, e, he, hpre, hr.symm, ?_⟩
    rw [← hg', handlers_update]
    have hactive : (g.urcTable i).active = true := by
      by_contra hne
      rw [(handlers_eq_none_iff g i).mpr (Bool.eq_false_of_not_eq_true hne)] at he
      cases he
    rw [handlers, Function.comp, UrcEntry.handler, if_pos hactive] at he
    rw [UrcEntry.handler, if_pos hactive, ← hpre, ← Option.some.inj he]
  | none =>
    refine .inr ⟨hnew rfl, ?_⟩
    obtain ⟨m, hm, h⟩ := Option.bind_eq_some_iff.mp h
    have hfree := urcSearch_some hm
    cases m with
    | some i =>
      obtain ⟨hr, hg'⟩ := Prod.mk.inj (Option.some.inj h)
      obtain ⟨hi, hbelow⟩ := Registry.of_find_finRange hfree.symm
      refine .inl ⟨i, ?_, ?_, hr.symm, ?_⟩
      · rw [handlers_eq_none_iff]
        simpa using hi
      · intro j hj hnone
        have hinactive := (handlers_eq_none_iff g j).mp hnone
        exact absurd (hbelow j hj) (by simp [hinactive])
      · rw [← hg', handlers_update]
        rfl
    | none =>
      obtain ⟨rfl, rfl⟩ := Prod.mk.inj (Option.some.inj h)
      refine .inr ⟨fun j hnone => ?_, rfl, rfl⟩
      have hinactive := (handlers_eq_none_iff g j).mp hnone
      exact List.find?_eq_none.mp hfree.symm j (List.mem_finRange j) (by simp [hinactive])

theorem atRegisterUrc_registers {p : List UInt8} {f user : Ptr} {g g' : Engine cfg} {r : AtResult}
    (h : atRegisterUrc (some p) (some f) user g = some (r, g')) :
    Registers g ⟨urcKey cfg p, f, user⟩ (handlers g') := by
  rcases atRegisterUrc_cases h with ⟨i, e, he, hpre, -, hg'⟩ | ⟨hnew, hfree | hfull⟩
  · rw [hg']
    exact .again i e he hpre
  · obtain ⟨i, hi, hbelow, -, hg'⟩ := hfree
    rw [hg']
    exact .new i hnew hi hbelow
  · obtain ⟨hfull, -, rfl⟩ := hfull
    exact .full hnew hfull

/-- What `at_deregister_urc` answers, and what it does to the table. -/
theorem atDeregisterUrc_cases {p : List UInt8} {g g' : Engine cfg} {r : AtResult}
    (h : atDeregisterUrc (some p) g = some (r, g')) :
    (∃ i e, handlers g i = some e ∧ e.pre = urcKey cfg p ∧ r = .ok ∧
        handlers g' = Function.update (handlers g) i none) ∨
      (∀ i e, handlers g i = some e → e.pre ≠ urcKey cfg p) ∧ r = .errParam ∧ g' = g := by
  rw [atDeregisterUrc] at h
  obtain ⟨m, hm, h⟩ := Option.bind_eq_some_iff.mp h
  obtain ⟨hfound, hnew⟩ := find_registered hm
  cases m with
  | some i =>
    obtain ⟨e, he, hpre⟩ := hfound i rfl
    obtain ⟨hr, hg'⟩ := Prod.mk.inj (Option.some.inj h)
    refine .inl ⟨i, e, he, hpre, hr.symm, ?_⟩
    rw [← hg', handlers_update]
    rfl
  | none =>
    obtain ⟨rfl, rfl⟩ := Prod.mk.inj (Option.some.inj h)
    exact .inr ⟨hnew rfl, rfl, rfl⟩

/-! ## Runs -/

/-- Two prefixes that one line can begin with. -/
def Overlap (k k' : List UInt8) : Prop := k <+: k' ∨ k' <+: k

instance (k k' : List UInt8) : Decidable (Overlap k k') := inferInstanceAs (Decidable (_ ∨ _))

/-- A new handler for this prefix does not go below an older one that can take the
same line: all those stand below the lowest free slot. -/
def Orderly (p : List UInt8) (g : Engine cfg) : Prop :=
  (∀ i, (g.urcTable i).registered p = false) →
    ∀ i, (g.urcTable i).active = false → (∀ j < i, (g.urcTable j).active = true) →
      ∀ j, (g.urcTable j).active = true → Overlap (g.urcTable j).pre.bytes (urcKey cfg p) → j < i

instance (p : List UInt8) (g : Engine cfg) : Decidable (Orderly p g) :=
  inferInstanceAs (Decidable ((∀ i, (g.urcTable i).registered p = false) →
    ∀ i, (g.urcTable i).active = false → (∀ j < i, (g.urcTable j).active = true) →
      ∀ j, (g.urcTable j).active = true → Overlap (g.urcTable j).pre.bytes (urcKey cfg p) → j < i))

/-- The call registers nothing, or does so in order. -/
def OrderlyCall (pre : Option (List UInt8)) (cb : Option Ptr) (g : Engine cfg) : Prop :=
  ∀ p, pre = some p → cb ≠ none → Orderly p g

/-- The registry after `at_register_urc`. -/
def registerHandler (cfg : Config) (pre : Option (List UInt8)) (cb : Option Ptr) (user : Ptr)
    (reg : List Handler) : List Handler :=
  match pre, cb with
  | some p, some f => Registry.register Handler.pre cfg.urcTableSize ⟨urcKey cfg p, f, user⟩ reg
  | _, _ => reg

/-- The registry after `at_deregister_urc`. -/
def deregisterHandler (cfg : Config) (pre : Option (List UInt8)) (reg : List Handler) :
    List Handler :=
  match pre with
  | some p => Registry.deregister Handler.pre (urcKey cfg p) reg
  | none => reg

/-- Calls of the two functions from an empty table, with anything in between that
leaves the table alone. Every registration meets `ok`. -/
inductive UrcRun (ok : Option (List UInt8) → Option Ptr → Engine cfg → Prop) :
    Engine cfg → List Handler → Prop
  | init {g} : (∀ i, (g.urcTable i).active = false) → UrcRun ok g []
  | register {g g' reg pre cb user r} : UrcRun ok g reg → ok pre cb g →
    atRegisterUrc pre cb user g = some (r, g') →
    UrcRun ok g' (registerHandler cfg pre cb user reg)
  | deregister {g g' reg pre r} : UrcRun ok g reg → atDeregisterUrc pre g = some (r, g') →
    UrcRun ok g' (deregisterHandler cfg pre reg)
  | other {g g' reg} : UrcRun ok g reg → g'.urcTable = g.urcTable → UrcRun ok g' reg

/-- The table holds the registry, in its order where that matters. -/
def Keeps (g : Engine cfg) (reg : List Handler) : Prop :=
  ∃ placed, placed.map Prod.snd = reg ∧ Registry.Placed Handler.pre Overlap (handlers g) placed

/-- **A registration** that is orderly keeps the order. -/
theorem Keeps.register {g g' : Engine cfg} {reg : List Handler} {pre : Option (List UInt8)}
    {cb : Option Ptr} {user : Ptr} {r : AtResult} (h : Keeps g reg) (hok : OrderlyCall pre cb g)
    (hcall : atRegisterUrc pre cb user g = some (r, g')) :
    Keeps g' (registerHandler cfg pre cb user reg) := by
  obtain _ | p := pre
  · obtain rfl := (Prod.mk.inj (Option.some.inj hcall)).2
    exact h
  obtain _ | f := cb
  · obtain rfl := (Prod.mk.inj (Option.some.inj hcall)).2
    exact h
  obtain ⟨placed, rfl, hp⟩ := h
  have hreg := atRegisterUrc_registers hcall
  rw [registerHandler]
  generalize ht : handlers g' = t at hreg
  rw [Keeps, ht]
  cases hreg with
  | again i e he hpre => exact ⟨_, (hp.register_again he hpre).symm, hp.replace he hpre⟩
  | full hnew hfull => exact ⟨_, (hp.register_full hfull hnew).symm, hp⟩
  | new i hnew hi hbelow =>
    refine ⟨_, (hp.register_new hi hnew).symm, hp.insert hi hnew ?_⟩
    intro j b hb hoverlap
    have hact (k : Fin cfg.urcTableSize) (hk : handlers g k ≠ none) :
        (g.urcTable k).active = true :=
      Bool.eq_true_of_not_eq_false fun hf => hk ((handlers_eq_none_iff g k).mpr hf)
    have hj := hact j (by rw [hb]; exact Option.some_ne_none _)
    apply hok p rfl (Option.some_ne_none f) ?_ i ((handlers_eq_none_iff g i).mp hi)
      (fun k hk => hact k (hbelow k hk)) j hj
    · rw [handlers, Function.comp, UrcEntry.handler, if_pos hj] at hb
      rwa [← Option.some.inj hb] at hoverlap
    · intro k
      apply Bool.eq_false_of_not_eq_true
      intro hk
      obtain ⟨e, he, hpre⟩ := (registered_iff g k p).mp hk
      exact hnew k e he hpre

/-- **A removal** keeps it. -/
theorem Keeps.deregister {g g' : Engine cfg} {reg : List Handler} {pre : Option (List UInt8)}
    {r : AtResult} (h : Keeps g reg) (hcall : atDeregisterUrc pre g = some (r, g')) :
    Keeps g' (deregisterHandler cfg pre reg) := by
  obtain _ | p := pre
  · obtain rfl := (Prod.mk.inj (Option.some.inj hcall)).2
    exact h
  obtain ⟨placed, rfl, hp⟩ := h
  rw [deregisterHandler, Registry.deregister_map_snd]
  rcases atDeregisterUrc_cases hcall with ⟨i, e, he, hpre, -, hg'⟩ | ⟨hnone, -, rfl⟩
  · refine ⟨_, rfl, ?_⟩
    rw [hg', ← hpre]
    exact hp.remove he
  · refine ⟨placed, ?_, hp⟩
    rw [List.filter_eq_self.mpr]
    rintro ⟨i, e⟩ hx
    simpa using hnone i e ((hp.holds i e).mpr hx)

theorem UrcRun.keeps {g : Engine cfg} {reg : List Handler} (h : UrcRun OrderlyCall g reg) :
    Keeps g reg := by
  induction h with
  | init hinit => exact ⟨[], rfl, .empty fun i => (handlers_eq_none_iff _ i).mpr (hinit i)⟩
  | register _ hok hcall ih => exact ih.register hok hcall
  | deregister _ hcall ih => exact ih.deregister hcall
  | other _ htable ih =>
    rw [Keeps, handlers, htable]
    exact ih

/-! ## Dispatch -/

/-- The first registered handler whose prefix the line begins with. -/
def winner (reg : List Handler) (l : List UInt8) : Option Handler :=
  reg.find? fun e => decide (e.pre <+: l)

/-- Give a line to a handler, or to none. -/
def dispatchTo (invoke : Invocation → World cfg σ → Option (World cfg σ)) (h : Option Handler)
    (line : List UInt8) (w : World cfg σ) : Option (Bool × World cfg σ) :=
  match h with
  | none => some (false, w)
  | some e => do
    let w ← invoke (.handler e.cb line e.user) ((w.emit (.line .urc line)).emit (.urc e.cb e.user line))
    return (true, w)

theorem urcMatch_some {g : Engine cfg} {l : List UInt8} {m : Option (Fin cfg.urcTableSize)}
    (h : urcMatch l g = some m) :
    m = (List.finRange _).find? fun i => (handlers g i).any fun e => decide (e.pre <+: cstr l) := by
  have htakes (i : Fin cfg.urcTableSize) :
      ((g.urcTable i).active && strncmpEq l (g.urcTable i).pre.bytes (g.urcTable i).pre.length) =
        (handlers g i).any fun e => decide (e.pre <+: cstr l) := by
    have hpre := strncmpEq_length_iff (l := l) (g.urcTable i).pre.nulFree
    rw [handlers, Function.comp, UrcEntry.handler, Bool.eq_iff_iff, Bool.and_eq_true]
    cases (g.urcTable i).active
    · simp
    · rw [if_pos rfl]
      exact ⟨fun h => decide_eq_true (hpre.mp h.2), fun h => ⟨rfl, hpre.mpr (of_decide_eq_true h)⟩⟩
  rw [urcSearch_some h]
  simp only [htakes]

/-- A slot that is found holds the winner. -/
theorem Keeps.find {g : Engine cfg} {reg : List Handler} (h : Keeps g reg) {l : List UInt8}
    {m : Option (Fin cfg.urcTableSize)} (hm : urcMatch l g = some m) :
    (∀ i, m = some i → ∃ e, handlers g i = some e ∧ winner reg (cstr l) = some e) ∧
      (m = none → winner reg (cstr l) = none) := by
  obtain ⟨placed, rfl, hp⟩ := h
  have hfind := urcMatch_some hm
  rw [hp.find fun a b ha hb => List.prefix_or_prefix_of_prefix (of_decide_eq_true ha)
    (of_decide_eq_true hb)] at hfind
  have hwin : winner (placed.map Prod.snd) (cstr l) =
      (placed.find? fun x => decide (x.2.pre <+: cstr l)).map Prod.snd := by
    rw [winner, List.find?_map]
    rfl
  rw [hfind, hwin]
  rcases hf : placed.find? (fun x => decide (x.2.pre <+: cstr l)) with _ | ⟨j, e⟩
  · rw [hf]
    refine ⟨?_, fun _ => rfl⟩
    rintro i ⟨⟩
  · rw [hf]
    refine ⟨?_, fun hnone => by cases hnone⟩
    rintro i ⟨⟩
    exact ⟨e, (hp.holds j e).mpr (List.mem_of_find?_eq_some hf), rfl⟩

theorem search_returns (hsize : cfg.urcTableSize ≤ 255) (q : Fin cfg.urcTableSize → Bool) :
    ∃ o, urcSearch q = some o :=
  uint8Search_isSome hsize q 256 0 (Nat.zero_le _) (by omega)

/-- When the search ends, the line goes to the winner. -/
theorem Keeps.dispatch {invoke : Invocation → World cfg σ → Option (World cfg σ)} {w : World cfg σ}
    {reg : List Handler} (h : Keeps w.eng reg) {l : List UInt8}
    {m : Option (Fin cfg.urcTableSize)} (hm : urcMatch l w.eng = some m) :
    urcDispatch invoke l w = dispatchTo invoke (winner reg (cstr l)) l w := by
  obtain ⟨hsome, hnone⟩ := h.find hm
  rw [urcDispatch, hm, Option.bind_eq_bind, Option.bind_some]
  cases m with
  | none =>
    rw [hnone rfl]
    rfl
  | some i =>
    obtain ⟨e, he, hwin⟩ := hsome i rfl
    rw [hwin]
    rw [handlers, Function.comp, UrcEntry.handler] at he
    split at he
    · obtain rfl := Option.some.inj he
      rfl
    · cases he

/-- **The first registered handler wins**, whatever has been registered and removed
before, if every registration was orderly: the handlers in the table are those of
the registry, and each line goes to the first of them whose prefix it begins with. The
search for it ends in a table that the 8-bit index can pass. -/
theorem first_registered_wins {invoke : Invocation → World cfg σ → Option (World cfg σ)}
    {w : World cfg σ} {reg : List Handler} (h : UrcRun OrderlyCall w.eng reg) :
    (∀ e, e ∈ reg ↔ ∃ i, handlers w.eng i = some e) ∧
    (∀ l r, urcDispatch invoke l w = some r →
      dispatchTo invoke (winner reg (cstr l)) l w = some r) ∧
    (cfg.urcTableSize ≤ 255 →
      ∀ l, urcDispatch invoke l w = dispatchTo invoke (winner reg (cstr l)) l w) := by
  have hkeeps := h.keeps
  refine ⟨?_, ?_, ?_⟩
  · obtain ⟨placed, rfl, hp⟩ := hkeeps
    intro e
    constructor
    · intro he
      obtain ⟨⟨i, e⟩, hx, rfl⟩ := List.mem_map.mp he
      exact ⟨i, (hp.holds i e).mpr hx⟩
    · rintro ⟨i, he⟩
      exact List.mem_map.mpr ⟨(i, e), (hp.holds i e).mp he, rfl⟩
  · intro l r hr
    obtain ⟨m, hm, -⟩ := Option.bind_eq_some_iff.mp hr
    exact (hkeeps.dispatch hm).symm.trans hr
  · intro hsize l
    obtain ⟨m, hm⟩ := search_returns hsize fun i =>
      (w.eng.urcTable i).active &&
        strncmpEq l (w.eng.urcTable i).pre.bytes (w.eng.urcTable i).pre.length
    exact hkeeps.dispatch hm

/-! ## Two runs -/

/-- The engine with a handler in a slot. -/
def putHandler (g : Engine Config.default) (i : Fin 16) (p : List UInt8) (cb : Ptr) :
    Engine Config.default :=
  { g with urcTable := Function.update g.urcTable i ⟨strCopySafe Config.default.line_pos p, cb, 0, true⟩ }

/-- The engine without the handler in a slot. -/
def dropHandler (g : Engine Config.default) (i : Fin 16) : Engine Config.default :=
  { g with urcTable := Function.update g.urcTable i (.zero _) }

/-- `+C`, and then `+CREG`. -/
def twoHandlers : Engine Config.default :=
  putHandler (putHandler (atInit _) 0 (ascii "+C") 1) 1 (ascii "+CREG") 2

/-- The two registrations, whatever they have to meet. -/
theorem twoHandlers_run {ok : Option (List UInt8) → Option Ptr → Engine Config.default → Prop}
    (hc : ok (some (ascii "+C")) (some 1) (atInit _))
    (hcreg : ok (some (ascii "+CREG")) (some 2) (putHandler (atInit _) 0 (ascii "+C") 1)) :
    UrcRun ok twoHandlers [⟨ascii "+C", 1, 0⟩, ⟨ascii "+CREG", 2, 0⟩] := by
  have hinit : UrcRun ok (atInit Config.default) [] := .init fun _ => rfl
  have hone : atRegisterUrc (some (ascii "+C")) (some 1) 0 (atInit Config.default) =
      some (.ok, putHandler (atInit _) 0 (ascii "+C") 1) := rfl
  have htwo : atRegisterUrc (some (ascii "+CREG")) (some 2) 0
      (putHandler (atInit _) 0 (ascii "+C") 1) = some (.ok, twoHandlers) := rfl
  exact (hinit.register hc hone).register hcreg htwo

/-- In this order, `+C` takes what both can take. -/
theorem first_registered_wins_two :
    UrcRun OrderlyCall twoHandlers [⟨ascii "+C", 1, 0⟩, ⟨ascii "+CREG", 2, 0⟩] ∧
    ∀ w : World Config.default Unit, w.eng = twoHandlers →
      urcDispatch (fun _ w => some w) (ascii "+CREG: 1") w =
        dispatchTo (fun _ w => some w) (some ⟨ascii "+C", 1, 0⟩) (ascii "+CREG: 1") w := by
  have hrun : UrcRun OrderlyCall twoHandlers [⟨ascii "+C", 1, 0⟩, ⟨ascii "+CREG", 2, 0⟩] := by
    apply twoHandlers_run
    · rintro p ⟨⟩ -
      decide +kernel
    · rintro p ⟨⟩ -
      decide +kernel
  refine ⟨hrun, ?_⟩
  intro w hw
  rw [← hw] at hrun
  exact (first_registered_wins hrun).2.2 (by decide) (ascii "+CREG: 1")

/-- `+C` is removed, and `+CR` registered: it gets the slot that `+C` has left. -/
def overtaken : Engine Config.default :=
  putHandler (dropHandler twoHandlers 0) 0 (ascii "+CR") 3

/-- Now `+CR` takes what `+CREG` was registered for first. -/
theorem later_handler_wins :
    UrcRun (fun _ _ _ => True) overtaken [⟨ascii "+CREG", 2, 0⟩, ⟨ascii "+CR", 3, 0⟩] ∧
    winner [⟨ascii "+CREG", 2, 0⟩, ⟨ascii "+CR", 3, 0⟩] (ascii "+CREG: 1") =
      some ⟨ascii "+CREG", 2, 0⟩ ∧
    ∃ i, urcMatch (ascii "+CREG: 1") overtaken = some (some i) ∧
      handlers overtaken i = some ⟨ascii "+CR", 3, 0⟩ := by
  have htwo : UrcRun (fun _ _ _ => True) twoHandlers
      [⟨ascii "+C", 1, 0⟩, ⟨ascii "+CREG", 2, 0⟩] := twoHandlers_run trivial trivial
  have hremove : atDeregisterUrc (some (ascii "+C")) twoHandlers =
      some (.ok, dropHandler twoHandlers 0) := rfl
  have hnew : atRegisterUrc (some (ascii "+CR")) (some 3) 0 (dropHandler twoHandlers 0) =
      some (.ok, overtaken) := rfl
  exact ⟨(htwo.deregister hremove).register trivial hnew, by decide, (0 : Fin 16), rfl, rfl⟩

end LibAt
