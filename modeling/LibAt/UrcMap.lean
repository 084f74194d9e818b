import LibAt.BoundedMap
import LibAt.FirstWins

/-!
# The URC table is a bounded map

For whoever registers handlers the table is a map from prefixes to a callback with its
user pointer, with room for `AT_CFG_URC_TABLE_SIZE` prefixes (`BoundedMap`). The table
refines it: after any registrations and removals its slots in use hold the map
(`MapRun.holds`). What the two calls answer, and which lines are consumed, follows from
the map alone (`urcTable_map`).

A prefix that is too long for a slot is stored without its end, and stands for the prefix
that is stored. Here all prefixes are shorter than a line.
-/

namespace LibAt

variable {cfg : Config} {σ : Type}

/-- Prefixes, and the handler of each. -/
abbrev UrcMap := List UInt8 → Option (Ptr × Ptr)

/-- What the slots in use hold. -/
def slots (g : Engine cfg) : Fin cfg.urcTableSize → Option (List UInt8 × Ptr × Ptr) :=
  Option.map (fun e : Handler => (e.pre, e.cb, e.user)) ∘ handlers g

theorem slots_eq_some_iff {g : Engine cfg} {i : Fin cfg.urcTableSize} {k : List UInt8}
    {v : Ptr × Ptr} :
    slots g i = some (k, v) ↔ (g.urcTable i).active = true ∧ (g.urcTable i).pre.bytes = k ∧
      ((g.urcTable i).cb, (g.urcTable i).user) = v := by
  rw [slots, Function.comp, handlers, Function.comp, UrcEntry.handler]
  cases (g.urcTable i).active with
  | false => simp
  | true => simp [Prod.ext_iff]

theorem slots_eq_none_iff {g : Engine cfg} {i : Fin cfg.urcTableSize} :
    slots g i = none ↔ handlers g i = none := Option.map_eq_none_iff

/-- A slot that holds a handler holds its key. -/
theorem slots_of_handlers {g : Engine cfg} {i : Fin cfg.urcTableSize} {e : Handler}
    (he : handlers g i = some e) : slots g i = some (e.pre, e.cb, e.user) := by
  rw [slots, Function.comp, he, Option.map_some]

/-- A prefix that is shorter than a line is stored whole. -/
theorem urcKey_eq {p : List UInt8} (hp : strlen p < cfg.lineMax) : urcKey cfg p = cstr p :=
  List.take_of_length_le (Nat.le_sub_one_of_lt hp)

/-! ## Runs -/

/-- Registrations and removals from an empty table, with the map that is kept; in between
anything may happen that leaves the table alone. -/
inductive MapRun : Engine cfg → UrcMap → Prop
  | init {g} : (∀ i, (g.urcTable i).active = false) → MapRun g fun _ => none
  | register {g g' m p f user r} : MapRun g m → strlen p < cfg.lineMax →
    atRegisterUrc (some p) (some f) user g = some (r, g') →
    MapRun g' (BoundedMap.insert cfg.urcTableSize (cstr p) (f, user) m)
  | deregister {g g' m p r} : MapRun g m → strlen p < cfg.lineMax →
    atDeregisterUrc (some p) g = some (r, g') → MapRun g' (BoundedMap.erase (cstr p) m)
  | other {g g' m} : MapRun g m → g'.urcTable = g.urcTable → MapRun g' m

/-- The slots in use hold the map. -/
def KeepsMap (g : Engine cfg) (m : UrcMap) : Prop := BoundedMap.Holds (slots g) m

variable {g g' : Engine cfg} {m : UrcMap} {p : List UInt8} {f user : Ptr} {r : AtResult}

/-- A prefix that no slot holds is not in the map. -/
theorem KeepsMap.absent (h : KeepsMap g m) (hp : strlen p < cfg.lineMax)
    (hnew : ∀ j e, handlers g j = some e → e.pre ≠ urcKey cfg p) : m (cstr p) = none := by
  refine h.eq_none_iff.mpr fun j v hj => ?_
  obtain ⟨e, he, hkv⟩ := Option.map_eq_some_iff.mp hj
  exact hnew j e he ((Prod.mk.inj hkv).1.trans (urcKey_eq hp).symm)

/-- A prefix that a slot holds is. -/
theorem KeepsMap.present (h : KeepsMap g m) (hp : strlen p < cfg.lineMax)
    {i : Fin cfg.urcTableSize} {e : Handler} (he : handlers g i = some e)
    (hpre : e.pre = urcKey cfg p) : slots g i = some (cstr p, e.cb, e.user) ∧
      m (cstr p) = some (e.cb, e.user) := by
  have hi : slots g i = some (cstr p, e.cb, e.user) := by
    rw [slots_of_handlers he, hpre, urcKey_eq hp]
  exact ⟨hi, (h.mem_iff _ _).mpr ⟨i, hi⟩⟩

/-- **A registration** inserts, and is refused when there is no room for a new prefix. -/
theorem KeepsMap.register (h : KeepsMap g m) (hp : strlen p < cfg.lineMax)
    (hcall : atRegisterUrc (some p) (some f) user g = some (r, g')) :
    KeepsMap g' (BoundedMap.insert cfg.urcTableSize (cstr p) (f, user) m) ∧
      (r = .ok ∧ ¬(m (cstr p) = none ∧ ∀ i, slots g i ≠ none) ∨
        r = .errBusy ∧ (m (cstr p) = none ∧ ∀ i, slots g i ≠ none) ∧ g' = g) := by
  have hupdate {i : Fin cfg.urcTableSize}
      (hg' : handlers g' = Function.update (handlers g) i (some ⟨urcKey cfg p, f, user⟩)) :
      slots g' = Function.update (slots g) i (some (cstr p, f, user)) := by
    rw [slots, hg', Function.comp_update, ← urcKey_eq hp]
    rfl
  rcases atRegisterUrc_cases hcall with ⟨i, e, he, hpre, hr, hg'⟩ | ⟨hnew, hfree | hfull⟩
  · obtain ⟨hi, hm⟩ := h.present hp he hpre
    refine ⟨?_, .inl ⟨hr, by simp [hm]⟩⟩
    rw [KeepsMap, hupdate hg']
    exact h.insert_again hi
  · obtain ⟨i, hi, -, hr, hg'⟩ := hfree
    have hi := slots_eq_none_iff.mpr hi
    refine ⟨?_, .inl ⟨hr, fun hno => hno.2 i hi⟩⟩
    rw [KeepsMap, hupdate hg']
    exact h.insert_new hi (h.absent hp hnew)
  · obtain ⟨hfull, hr, rfl⟩ := hfull
    have hm := h.absent hp hnew
    have hslots : ∀ i, slots g' i ≠ none := fun i hi => hfull i (slots_eq_none_iff.mp hi)
    refine ⟨?_, .inr ⟨hr, ⟨hm, hslots⟩, rfl⟩⟩
    rw [h.insert_full hslots hm]
    exact h

/-- **A removal** takes the prefix out, and is refused when it is not there. -/
theorem KeepsMap.deregister (h : KeepsMap g m) (hp : strlen p < cfg.lineMax)
    (hcall : atDeregisterUrc (some p) g = some (r, g')) :
    KeepsMap g' (BoundedMap.erase (cstr p) m) ∧
      (r = .ok ∧ m (cstr p) ≠ none ∨ r = .errParam ∧ m (cstr p) = none ∧ g' = g) := by
  rcases atDeregisterUrc_cases hcall with ⟨i, e, he, hpre, hr, hg'⟩ | ⟨hnew, hr, rfl⟩
  · obtain ⟨hi, hm⟩ := h.present hp he hpre
    refine ⟨?_, .inl ⟨hr, by simp [hm]⟩⟩
    rw [KeepsMap, slots, hg', Function.comp_update]
    exact h.erase hi
  · have hm := h.absent hp hnew
    refine ⟨?_, .inr ⟨hr, hm, rfl⟩⟩
    rw [BoundedMap.erase_of_eq_none hm]
    exact h

/-- **After any run the table holds the map.** -/
theorem MapRun.holds (h : MapRun g m) : KeepsMap g m := by
  induction h with
  | init hinit =>
    exact .empty fun i => slots_eq_none_iff.mpr ((handlers_eq_none_iff _ i).mpr (hinit i))
  | register _ hp hcall ih => exact (ih.register hp hcall).1
  | deregister _ hp hcall ih => exact (ih.deregister hp hcall).1
  | other _ htable ih =>
    rw [KeepsMap, slots, handlers, htable]
    exact ih

/-! ## The result -/

/-- Some key of the map is a prefix of the line. -/
def Consumes (m : UrcMap) (l : List UInt8) : Prop := ∃ k, m k ≠ none ∧ k <+: cstr l

/-- **A line is consumed** when the search finds a slot, and then a key is a prefix. -/
theorem KeepsMap.consumed (h : KeepsMap g m) {l : List UInt8} {o : Option (Fin cfg.urcTableSize)}
    (ho : urcMatch l g = some o) : o ≠ none ↔ Consumes m l := by
  have hfind := urcMatch_some ho
  constructor
  · intro hne
    obtain ⟨i, rfl⟩ := Option.ne_none_iff_exists'.mp hne
    obtain ⟨e, he, hpre⟩ := (Option.any_eq_true _ _).mp (Registry.of_find_finRange hfind.symm).1
    refine ⟨e.pre, ?_, of_decide_eq_true hpre⟩
    rw [(h.mem_iff _ _).mpr ⟨i, slots_of_handlers he⟩]
    exact Option.some_ne_none _
  · rintro ⟨k, hk, hpre⟩ rfl
    obtain ⟨v, hv⟩ := Option.ne_none_iff_exists'.mp hk
    obtain ⟨i, hi⟩ := (h.mem_iff k v).mp hv
    obtain ⟨e, he, hkv⟩ := Option.map_eq_some_iff.mp hi
    refine List.find?_eq_none.mp hfind.symm i (List.mem_finRange i) ?_
    rw [he, Option.any_some, decide_eq_true_iff, (Prod.mk.inj hkv).1]
    exact hpre

/-- The table, the two calls and the dispatch of a line are those of the map. -/
structure BehavesAsMap (g : Engine cfg) (m : UrcMap) : Prop where
  /-- the active entries have different prefixes -/
  distinct : ∀ i j, (g.urcTable i).active = true → (g.urcTable j).active = true →
    (g.urcTable i).pre.bytes = (g.urcTable j).pre.bytes → i = j
  /-- and are the entries of the map -/
  entries : ∀ k v, m k = some v ↔ ∃ i, (g.urcTable i).active = true ∧
    (g.urcTable i).pre.bytes = k ∧ ((g.urcTable i).cb, (g.urcTable i).user) = v
  /-- a registration is refused when the prefix is new and all entries are active -/
  register : ∀ p f user r g', strlen p < cfg.lineMax →
    atRegisterUrc (some p) (some f) user g = some (r, g') →
    (r = .errBusy ↔ m (cstr p) = none ∧ ∀ i, (g.urcTable i).active = true) ∧
      (r = .errBusy → g' = g)
  /-- a removal, when the prefix is not there -/
  deregister : ∀ p r g', strlen p < cfg.lineMax → atDeregisterUrc (some p) g = some (r, g') →
    (r = .errParam ↔ m (cstr p) = none) ∧ (r = .errParam → g' = g)
  /-- a line is consumed when a key is a prefix of it -/
  dispatch : ∀ (σ : Type) (invoke : Invocation → World cfg σ → Option (World cfg σ))
    (w w' : World cfg σ) (l : List UInt8) (b : Bool), w.eng = g →
    urcDispatch invoke l w = some (b, w') → (b = true ↔ Consumes m l)
  /-- in a table that the 8-bit index can pass, the calls return, -/
  returns : cfg.urcTableSize ≤ 255 →
    (∀ p f user, ∃ x, atRegisterUrc (some p) (some f) user g = some x) ∧
      ∀ p, ∃ x, atDeregisterUrc (some p) g = some x
  /-- a line that no key is a prefix of is left alone, and any other line is given to the
  handler of such a key, and consumed when the handler has returned -/
  delivers : cfg.urcTableSize ≤ 255 →
    ∀ (σ : Type) (invoke : Invocation → World cfg σ → Option (World cfg σ)) (w : World cfg σ)
      (l : List UInt8), w.eng = g →
      (¬Consumes m l → urcDispatch invoke l w = some (false, w)) ∧
      (Consumes m l → ∃ k f user, m k = some (f, user) ∧ k <+: cstr l ∧
        urcDispatch invoke l w =
          (invoke (.handler f l user) ((w.emit (.line .urc l)).emit (.urc f user l))).map
            (true, ·))

theorem slots_ne_none_iff {i : Fin cfg.urcTableSize} :
    slots g i ≠ none ↔ (g.urcTable i).active = true := by
  rw [ne_eq, slots_eq_none_iff, handlers_eq_none_iff, Bool.not_eq_false]

/-- The two calls return. -/
theorem calls_return (hsize : cfg.urcTableSize ≤ 255) (g : Engine cfg) (p : List UInt8) :
    (∀ f user, ∃ x, atRegisterUrc (some p) (some f) user g = some x) ∧
      ∃ x, atDeregisterUrc (some p) g = some x := by
  obtain ⟨o, ho⟩ := search_returns hsize fun i => (g.urcTable i).registered p
  obtain ⟨o', ho'⟩ := search_returns hsize fun i => !(g.urcTable i).active
  constructor
  · intro f user
    rw [atRegisterUrc, ho]
    cases o with
    | some i => exact ⟨_, rfl⟩
    | none =>
      rw [Option.bind_eq_bind, Option.bind_some, ho']
      cases o' <;> exact ⟨_, rfl⟩
  · rw [atDeregisterUrc, ho]
    cases o <;> exact ⟨_, rfl⟩

theorem urcDispatch_none {invoke : Invocation → World cfg σ → Option (World cfg σ)}
    {w : World cfg σ} {l : List UInt8} (h : urcMatch l w.eng = some none) :
    urcDispatch invoke l w = some (false, w) := by
  rw [urcDispatch, h]
  rfl

theorem urcDispatch_some {invoke : Invocation → World cfg σ → Option (World cfg σ)}
    {w : World cfg σ} {l : List UInt8} {i : Fin cfg.urcTableSize}
    (h : urcMatch l w.eng = some (some i)) :
    urcDispatch invoke l w =
      (invoke (.handler (w.eng.urcTable i).cb l (w.eng.urcTable i).user)
        ((w.emit (.line .urc l)).emit (.urc (w.eng.urcTable i).cb (w.eng.urcTable i).user l))).map
          (true, ·) := by
  rw [urcDispatch, h, Option.map_eq_bind]
  rfl

/-- A slot that is found is in use, and its prefix is one of the line. -/
theorem urcMatch_takes {l : List UInt8} {i : Fin cfg.urcTableSize}
    (h : urcMatch l g = some (some i)) :
    (g.urcTable i).active = true ∧ (g.urcTable i).pre.bytes <+: cstr l := by
  obtain ⟨e, he, hpre⟩ :=
    (Option.any_eq_true _ _).mp (Registry.of_find_finRange (urcMatch_some h).symm).1
  rw [handlers, Function.comp, UrcEntry.handler] at he
  split at he
  · rename_i hactive
    obtain rfl := Option.some.inj he
    exact ⟨hactive, of_decide_eq_true hpre⟩
  · cases he

/-- **The URC table behaves as a bounded map**, after any registrations and removals. -/
theorem urcTable_map (h : MapRun g m) : BehavesAsMap g m := by
  have hkeeps := h.holds
  refine ⟨?_, ?_, ?_, ?_, ?_, ?_, ?_⟩
  · intro i j hi hj hpre
    exact hkeeps.distinct (slots_eq_some_iff.mpr ⟨hi, rfl, rfl⟩)
      (slots_eq_some_iff.mpr ⟨hj, rfl, rfl⟩) hpre
  · intro k v
    rw [hkeeps.mem_iff]
    exact exists_congr fun i => slots_eq_some_iff
  · intro p f user r g' hp hcall
    obtain ⟨-, hcases⟩ := hkeeps.register hp hcall
    simp only [slots_ne_none_iff] at hcases
    rcases hcases with ⟨rfl, hno⟩ | ⟨rfl, hfull, rfl⟩
    · exact ⟨iff_of_false (by simp) hno, fun hr => by cases hr⟩
    · exact ⟨iff_of_true rfl hfull, fun _ => rfl⟩
  · intro p r g' hp hcall
    obtain ⟨-, ⟨rfl, hm⟩ | ⟨rfl, hm, rfl⟩⟩ := hkeeps.deregister hp hcall
    · exact ⟨iff_of_false (by simp) hm, fun hr => by cases hr⟩
    · exact ⟨iff_of_true rfl hm, fun _ => rfl⟩
  · rintro σ invoke w w' l b rfl hcall
    obtain ⟨o, ho, hcall⟩ := Option.bind_eq_some_iff.mp hcall
    rw [← hkeeps.consumed ho]
    cases o with
    | none =>
      obtain ⟨rfl, -⟩ := Prod.mk.inj (Option.some.inj hcall)
      exact iff_of_false (by simp) (by simp)
    | some i =>
      obtain ⟨w₁, -, hcall⟩ := Option.bind_eq_some_iff.mp hcall
      obtain ⟨rfl, -⟩ := Prod.mk.inj (Option.some.inj hcall)
      exact iff_of_true rfl (by simp)
  · intro hsize
    exact ⟨fun p => (calls_return hsize g p).1, fun p => (calls_return hsize g p).2⟩
  · rintro hsize σ invoke w l rfl
    obtain ⟨o, ho⟩ : ∃ o, urcMatch l w.eng = some o := search_returns hsize _
    have hconsumed := hkeeps.consumed ho
    cases o with
    | none =>
      have hno : ¬Consumes m l := fun hc => hconsumed.mpr hc rfl
      exact ⟨fun _ => urcDispatch_none ho, fun hc => absurd hc hno⟩
    | some i =>
      have hyes := hconsumed.mp (Option.some_ne_none i)
      obtain ⟨hactive, hpre⟩ := urcMatch_takes ho
      refine ⟨fun hno => absurd hyes hno, fun _ => ⟨(w.eng.urcTable i).pre.bytes,
        (w.eng.urcTable i).cb, (w.eng.urcTable i).user, ?_, hpre, urcDispatch_some ho⟩⟩
      exact (hkeeps.mem_iff _ _).mpr ⟨i, slots_eq_some_iff.mpr ⟨hactive, rfl, rfl⟩⟩

/-- Two prefixes, one a prefix of the other, of which the shorter is taken out again. -/
theorem urcTable_map_two :
    BehavesAsMap (dropHandler twoHandlers 0)
      (BoundedMap.erase (cstr (ascii "+C"))
        (BoundedMap.insert Config.default.urcTableSize (cstr (ascii "+CREG")) (2, 0)
          (BoundedMap.insert Config.default.urcTableSize (cstr (ascii "+C")) (1, 0)
            fun _ => none))) := by
  have hinit : MapRun (atInit Config.default) fun _ => none := .init fun _ => rfl
  have hone : atRegisterUrc (some (ascii "+C")) (some 1) 0 (atInit Config.default) =
      some (.ok, putHandler (atInit _) 0 (ascii "+C") 1) := rfl
  have htwo : atRegisterUrc (some (ascii "+CREG")) (some 2) 0
      (putHandler (atInit _) 0 (ascii "+C") 1) = some (.ok, twoHandlers) := rfl
  have hdrop : atDeregisterUrc (some (ascii "+C")) twoHandlers =
      some (.ok, dropHandler twoHandlers 0) := rfl
  exact urcTable_map (((hinit.register (by decide) hone).register (by decide) htwo).deregister
    (by decide) hdrop)

end LibAt
