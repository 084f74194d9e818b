import Mathlib.Data.Set.Card

/-!
# Maps of bounded size

A map from keys to values with room for `cap` keys: a key that is in it is given a new
value, and a key that is not is added if there is room (`insert`); any key can be taken
out (`erase`).

Such a map is kept in a table with as many slots, of which some are free, in any order.
`Holds` says that the slots in use hold the map, each key once. Then the map is full when
no slot is free (`Holds.full_iff`), and what the table has to do for an insertion or a
removal is to write one slot (`Holds.insert_again`, `Holds.insert_new`, `Holds.erase`).
-/

namespace LibAt

namespace BoundedMap

variable {n : Nat} {κ β : Type}

/-! ## Maps -/

/-- The keys of a map. -/
def keys (m : κ → Option β) : Set κ := {k | m k ≠ none}

/-- There is no room for one more key. -/
def Full (cap : Nat) (m : κ → Option β) : Prop := cap ≤ (keys m).ncard

open Classical in
/-- Give a key a value, if it is there or there is room for it. -/
noncomputable def insert [DecidableEq κ] (cap : Nat) (k : κ) (v : β) (m : κ → Option β) :
    κ → Option β :=
  if m k = none ∧ Full cap m then m else Function.update m k (some v)

/-- Take a key out. -/
def erase [DecidableEq κ] (k : κ) (m : κ → Option β) : κ → Option β := Function.update m k none

/-! ## Tables -/

/-- The table holds the map: no two slots in use have the same key, and the map is what
they hold. -/
structure Holds (t : Fin n → Option (κ × β)) (m : κ → Option β) : Prop where
  distinct : ∀ {i j a b}, t i = some a → t j = some b → a.1 = b.1 → i = j
  mem_iff : ∀ k v, m k = some v ↔ ∃ i, t i = some (k, v)

namespace Holds

variable {t : Fin n → Option (κ × β)} {m : κ → Option β} {i : Fin n} {k : κ} {v w : β}

theorem empty (h : ∀ i, t i = none) : Holds t fun _ => none := by
  refine ⟨fun ha => ?_, fun k v => ?_⟩
  · rw [h] at ha
    cases ha
  · simp [h]

/-- A key that is not in the map is in no slot. -/
theorem eq_none_iff (h : Holds t m) : m k = none ↔ ∀ i v, t i ≠ some (k, v) := by
  rw [Option.eq_none_iff_forall_ne_some]
  constructor
  · intro hk i v hi
    exact hk v ((h.mem_iff k v).mpr ⟨i, hi⟩)
  · intro hk v hv
    obtain ⟨i, hi⟩ := (h.mem_iff k v).mp hv
    exact hk i v hi

/-- There are as many keys as slots in use. -/
theorem ncard_keys (h : Holds t m) : (keys m).ncard = {i | t i ≠ none}.ncard := by
  have himage : Option.some '' keys m = (fun i => (t i).map Prod.fst) '' {i | t i ≠ none} := by
    ext o
    constructor
    · rintro ⟨k, hk, rfl⟩
      obtain ⟨v, hv⟩ := Option.ne_none_iff_exists'.mp hk
      obtain ⟨i, hi⟩ := (h.mem_iff k v).mp hv
      refine ⟨i, ?_, ?_⟩
      · rw [Set.mem_ofPred_eq, hi]
        exact Option.some_ne_none _
      · dsimp only
        rw [hi, Option.map_some]
    · rintro ⟨i, hi, rfl⟩
      obtain ⟨⟨k, v⟩, hkv⟩ := Option.ne_none_iff_exists'.mp hi
      refine ⟨k, ?_, ?_⟩
      · rw [keys, Set.mem_ofPred_eq, (h.mem_iff k v).mpr ⟨i, hkv⟩]
        exact Option.some_ne_none _
      · dsimp only
        rw [hkv, Option.map_some]
  have hinj : Set.InjOn (fun i => (t i).map Prod.fst) {i | t i ≠ none} := by
    intro i hi j hj hij
    obtain ⟨a, ha⟩ := Option.ne_none_iff_exists'.mp hi
    obtain ⟨b, hb⟩ := Option.ne_none_iff_exists'.mp hj
    dsimp only at hij
    rw [ha, hb, Option.map_some, Option.map_some] at hij
    exact h.distinct ha hb (Option.some.inj hij)
  rw [← Set.ncard_image_of_injective (keys m) (Option.some_injective κ), himage,
    hinj.ncard_image]

/-- **The map is full** when no slot is free. -/
theorem full_iff (h : Holds t m) : Full n m ↔ ∀ i, t i ≠ none := by
  rw [Full, h.ncard_keys]
  constructor
  · intro hle i
    have huniv : {i | t i ≠ none} = Set.univ := by
      refine Set.eq_of_subset_of_ncard_le (Set.subset_univ _) ?_
      rwa [Set.ncard_univ, Nat.card_fin]
    have hi : i ∈ {i | t i ≠ none} := huniv ▸ Set.mem_univ i
    exact hi
  · intro hall
    have huniv : {i | t i ≠ none} = Set.univ := Set.eq_univ_of_forall hall
    rw [huniv, Set.ncard_univ, Nat.card_fin]

variable [DecidableEq κ]

/-- **A slot is written** that holds the key, or is free while none does. -/
theorem write (h : Holds t m) (hslot : ∀ a, t i = some a → a.1 = k)
    (hkey : ∀ j a, t j = some a → a.1 = k → j = i) :
    Holds (Function.update t i (some (k, v))) (Function.update m k (some v)) := by
  constructor
  · intro j j' a b ha hb hab
    by_cases hj : j = i
    · by_cases hj' : j' = i
      · rw [hj, hj']
      · rw [hj, Function.update_self] at ha
        rw [Function.update_of_ne hj'] at hb
        rw [← Option.some.inj ha] at hab
        exact absurd (hkey j' b hb hab.symm) hj'
    · rw [Function.update_of_ne hj] at ha
      by_cases hj' : j' = i
      · rw [hj', Function.update_self] at hb
        rw [← Option.some.inj hb] at hab
        exact absurd (hkey j a ha hab) hj
      · rw [Function.update_of_ne hj'] at hb
        exact h.distinct ha hb hab
  · intro k' v'
    by_cases hk : k' = k
    · subst hk
      rw [Function.update_self]
      constructor
      · rintro ⟨⟩
        exact ⟨i, Function.update_self ..⟩
      · rintro ⟨j, hj⟩
        by_cases hji : j = i
        · rw [hji, Function.update_self] at hj
          rw [(Prod.mk.inj (Option.some.inj hj)).2]
        · rw [Function.update_of_ne hji] at hj
          exact absurd (hkey j _ hj rfl) hji
    · rw [Function.update_of_ne hk, h.mem_iff]
      constructor
      · rintro ⟨j, hj⟩
        refine ⟨j, ?_⟩
        rw [Function.update_of_ne, hj]
        rintro rfl
        exact hk (hslot _ hj)
      · rintro ⟨j, hj⟩
        by_cases hji : j = i
        · rw [hji, Function.update_self] at hj
          exact absurd (Prod.mk.inj (Option.some.inj hj)).1.symm hk
        · rw [Function.update_of_ne hji] at hj
          exact ⟨j, hj⟩

/-- A key that is in the map is given its new value where it stands. -/
theorem insert_again (h : Holds t m) (hi : t i = some (k, w)) :
    Holds (Function.update t i (some (k, v))) (insert n k v m) := by
  have hk : m k = some w := (h.mem_iff k w).mpr ⟨i, hi⟩
  rw [insert, if_neg (by simp [hk])]
  refine h.write (fun a ha => ?_) fun j a hj ha => h.distinct hj hi ha
  rw [hi] at ha
  rw [← Option.some.inj ha]

/-- A new key goes into a free slot. -/
theorem insert_new (h : Holds t m) (hi : t i = none) (hk : m k = none) :
    Holds (Function.update t i (some (k, v))) (insert n k v m) := by
  have hroom : ¬Full n m := fun hfull => h.full_iff.mp hfull i hi
  rw [insert, if_neg fun hno => hroom hno.2]
  refine h.write (fun a ha => ?_) fun j a hj ha => ?_
  · rw [hi] at ha
    cases ha
  · exact absurd (ha ▸ hj) (h.eq_none_iff.mp hk j a.2)

/-- Without a free slot, the map stays as it is. -/
theorem insert_full (h : Holds t m) (hfull : ∀ i, t i ≠ none) (hk : m k = none) :
    insert n k v m = m :=
  if_pos ⟨hk, h.full_iff.mpr hfull⟩

/-- **A slot is freed**, and its key is gone. -/
theorem erase (h : Holds t m) (hi : t i = some (k, w)) :
    Holds (Function.update t i none) (erase k m) := by
  have hother {j : Fin n} {a : κ × β} (hj : Function.update t i none j = some a) :
      j ≠ i ∧ t j = some a := by
    have hji : j ≠ i := by
      rintro rfl
      rw [Function.update_self] at hj
      cases hj
    exact ⟨hji, by rwa [Function.update_of_ne hji] at hj⟩
  refine ⟨fun ha hb hab => h.distinct (hother ha).2 (hother hb).2 hab, fun k' v' => ?_⟩
  rw [BoundedMap.erase]
  by_cases hk : k' = k
  · subst hk
    rw [Function.update_self]
    refine iff_of_false (by simp) ?_
    rintro ⟨j, hj⟩
    obtain ⟨hji, hj⟩ := hother hj
    exact hji (h.distinct hj hi rfl)
  · rw [Function.update_of_ne hk, h.mem_iff]
    constructor
    · rintro ⟨j, hj⟩
      refine ⟨j, ?_⟩
      rw [Function.update_of_ne, hj]
      rintro rfl
      rw [hi] at hj
      exact hk (Prod.mk.inj (Option.some.inj hj)).1.symm
    · rintro ⟨j, hj⟩
      exact ⟨j, (hother hj).2⟩

end Holds

/-- A key that is not there is taken out by doing nothing. -/
theorem erase_of_eq_none [DecidableEq κ] {m : κ → Option β} {k : κ} (hk : m k = none) :
    erase k m = m := by
  rw [erase, ← hk, Function.update_eq_self]

end BoundedMap

end LibAt
