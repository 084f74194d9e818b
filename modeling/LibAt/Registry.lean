import Mathlib.Data.Fintype.Card
import Mathlib.Data.List.FinRange
import Mathlib.Data.List.Pairwise

/-!
# Registries kept in tables

A registry is a list of entries with different keys, in the order in which they
were registered. It is kept in a table of `n` slots, and the slots can be in
another order: `Placed` says which entry stands where, and that two entries whose
keys are in conflict stand in the order of the registry. That is enough for a
search of the table, slot by slot, to find what a search of the registry finds
(`Placed.find`), as long as any two entries it may find are in conflict.

An entry keeps its place when it is registered again (`Placed.replace`), and
leaves a free slot when it is removed (`Placed.remove`); only a new entry can
stand in the wrong slot (`Placed.insert`).
-/

namespace LibAt

namespace Registry

variable {n : Nat} {α κ : Type}

/-! ## Registries -/

/-- Register an entry: one with this key is replaced and keeps its place, any other
comes last, if there is room. -/
def register [DecidableEq κ] (key : α → κ) (cap : Nat) (a : α) (reg : List α) : List α :=
  if reg.any (fun e => key e = key a) then reg.map fun e => if key e = key a then a else e
  else if reg.length < cap then reg ++ [a]
  else reg

/-- Remove the entry with this key. -/
def deregister [DecidableEq κ] (key : α → κ) (k : κ) (reg : List α) : List α :=
  reg.filter fun e => key e ≠ k

theorem deregister_map_snd [DecidableEq κ] (key : α → κ) (k : κ) (placed : List (Fin n × α)) :
    deregister key k (placed.map Prod.snd) =
      (placed.filter fun x => key x.2 ≠ k).map Prod.snd := by
  rw [deregister, List.filter_map]
  rfl

/-! ## Tables -/

/-- What stands before the slot that a search finds is not what it looks for. -/
theorem of_find_finRange {p : Fin n → Bool} {i : Fin n}
    (h : (List.finRange n).find? p = some i) : p i = true ∧ ∀ j < i, p j = false := by
  obtain ⟨hi, as, bs, hsplit, has⟩ := List.find?_eq_some_iff_append.mp h
  refine ⟨hi, fun j hj => ?_⟩
  have hs := List.pairwise_lt_finRange n
  rw [hsplit, List.pairwise_append, List.pairwise_cons] at hs
  have hmem := List.mem_finRange j
  rw [hsplit, List.mem_append, List.mem_cons] at hmem
  rcases hmem with hin | rfl | hin
  · simpa using has j hin
  · exact absurd hj (Nat.lt_irrefl _)
  · exact absurd (hs.2.1.1 j hin) (Fin.not_lt.mpr (Fin.le_of_lt hj))

/-- A search of the table finds the first slot. -/
theorem find_finRange {p : Fin n → Bool} {i : Fin n} (hi : p i = true)
    (hlt : ∀ j < i, p j = false) : (List.finRange n).find? p = some i := by
  rcases hf : (List.finRange n).find? p with _ | j
  · exact absurd hi (List.find?_eq_none.mp hf i (List.mem_finRange i))
  · obtain ⟨hj, hbelow⟩ := of_find_finRange hf
    rcases lt_trichotomy i j with hij | rfl | hji
    · exact absurd hi (by simp [hbelow i hij])
    · rfl
    · exact absurd hj (by simp [hlt j hji])

/-- The table holds these entries, in these slots; they are in the order of the
registry, and so are the slots of any two that are in conflict. -/
structure Placed (key : α → κ) (conflict : κ → κ → Prop) (t : Fin n → Option α)
    (placed : List (Fin n × α)) : Prop where
  holds : ∀ i a, t i = some a ↔ (i, a) ∈ placed
  apart : placed.Pairwise fun x y =>
    x.1 ≠ y.1 ∧ key x.2 ≠ key y.2 ∧ (conflict (key x.2) (key y.2) → x.1 < y.1)

namespace Placed

variable {key : α → κ} {conflict : κ → κ → Prop} {t : Fin n → Option α}
  {placed : List (Fin n × α)}

theorem empty (h : ∀ i, t i = none) : Placed key conflict t [] := by
  refine ⟨fun i a => ?_, .nil⟩
  rw [h]
  simp

/-- No two entries have the same key. -/
theorem unique (h : Placed key conflict t placed) {x y : Fin n × α} (hx : x ∈ placed)
    (hy : y ∈ placed) (hkey : key x.2 = key y.2) : x = y := by
  have hkeys : (placed.map fun x => key x.2).Nodup :=
    List.pairwise_map.mpr (h.apart.imp fun hxy => hxy.2.1)
  exact List.inj_on_of_nodup_map hkeys hx hy hkey

theorem nodup_slots (h : Placed key conflict t placed) : (placed.map Prod.fst).Nodup :=
  List.pairwise_map.mpr (h.apart.imp fun hxy => hxy.1)

/-- With a free slot, there are fewer entries than slots. -/
theorem length_lt (h : Placed key conflict t placed) {i : Fin n} (hi : t i = none) :
    placed.length < n := by
  have hnot : i ∉ placed.map Prod.fst := by
    intro hm
    obtain ⟨⟨j, a⟩, hx, rfl⟩ := List.mem_map.mp hm
    exact absurd (hi.symm.trans ((h.holds _ _).mpr hx)) (by simp)
  have hle := (List.nodup_cons.mpr ⟨hnot, h.nodup_slots⟩).length_le_card
  rw [List.length_cons, List.length_map, Fintype.card_fin] at hle
  exact hle

/-- Without one, there are as many. -/
theorem length_ge (h : Placed key conflict t placed) (hfull : ∀ i, t i ≠ none) :
    n ≤ placed.length := by
  have hsub : List.finRange n ⊆ placed.map Prod.fst := by
    intro i _
    obtain ⟨a, ha⟩ := Option.ne_none_iff_exists'.mp (hfull i)
    exact List.mem_map.mpr ⟨(i, a), (h.holds i a).mp ha, rfl⟩
  have hle := (List.subperm_of_subset (List.nodup_finRange n) hsub).length_le
  rwa [List.length_finRange, List.length_map] at hle

/-- **A new entry** goes into a free slot, behind those it is in conflict with. -/
theorem insert (h : Placed key conflict t placed) {i : Fin n} {a : α} (hi : t i = none)
    (hkey : ∀ j b, t j = some b → key b ≠ key a)
    (hconf : ∀ j b, t j = some b → conflict (key b) (key a) → j < i) :
    Placed key conflict (Function.update t i (some a)) (placed ++ [(i, a)]) := by
  constructor
  · intro j b
    rw [List.mem_append, List.mem_singleton]
    by_cases hj : j = i
    · subst hj
      rw [Function.update_self, ← h.holds, hi]
      simp [eq_comm]
    · rw [Function.update_of_ne hj, h.holds]
      simp [hj]
  · refine List.pairwise_append.mpr ⟨h.apart, List.pairwise_singleton _ _, ?_⟩
    rintro ⟨j, b⟩ hx y hy
    obtain rfl := List.mem_singleton.mp hy
    have hj := (h.holds j b).mpr hx
    refine ⟨fun hji => ?_, hkey j b hj, hconf j b hj⟩
    obtain rfl : j = i := hji
    exact absurd (hi.symm.trans hj) (by simp)

/-- **An entry that is registered again** keeps its slot and its place. -/
theorem replace [DecidableEq κ] (h : Placed key conflict t placed) {i : Fin n} {a e : α}
    (hi : t i = some e) (hkey : key e = key a) :
    Placed key conflict (Function.update t i (some a))
      (placed.map fun x => if key x.2 = key a then (x.1, a) else x) := by
  have hmem := (h.holds i e).mp hi
  constructor
  · intro j b
    rw [List.mem_map]
    by_cases hj : j = i
    · subst hj
      rw [Function.update_self]
      constructor
      · rintro ⟨⟩
        exact ⟨(j, e), hmem, if_pos hkey⟩
      · rintro ⟨x, hx, heq⟩
        split at heq
        · rw [(Prod.mk.inj heq).2]
        · rename_i hne
          -- the other entries stand in other slots
          subst heq
          have hb := (h.holds j b).mpr hx
          rw [hi] at hb
          obtain rfl := Option.some.inj hb
          exact absurd hkey hne
    · rw [Function.update_of_ne hj, h.holds]
      constructor
      · intro hx
        refine ⟨(j, b), hx, if_neg fun hk => hj ?_⟩
        exact congrArg Prod.fst (h.unique hx hmem (hk.trans hkey.symm))
      · rintro ⟨x, hx, heq⟩
        split at heq
        · rename_i hk
          have hxi := h.unique hx hmem (hk.trans hkey.symm)
          rw [hxi] at heq
          exact absurd (Prod.mk.inj heq).1.symm hj
        · rwa [← heq]
  · have hfst (x : Fin n × α) : (if key x.2 = key a then (x.1, a) else x).1 = x.1 := by
      split <;> rfl
    have hsnd (x : Fin n × α) : key (if key x.2 = key a then (x.1, a) else x).2 = key x.2 := by
      split
      · rename_i hk
        exact hk.symm
      · rfl
    rw [List.pairwise_map]
    simp only [hfst, hsnd]
    exact h.apart

/-- **An entry that is removed** leaves the others where they are. -/
theorem remove [DecidableEq κ] (h : Placed key conflict t placed) {i : Fin n} {e : α}
    (hi : t i = some e) :
    Placed key conflict (Function.update t i none) (placed.filter fun x => key x.2 ≠ key e) := by
  have hmem := (h.holds i e).mp hi
  refine ⟨fun j b => ?_, h.apart.filter _⟩
  rw [List.mem_filter, ← h.holds, decide_eq_true_iff]
  by_cases hj : j = i
  · subst hj
    rw [Function.update_self, hi]
    constructor
    · intro hb
      cases hb
    · rintro ⟨hb, hne⟩
      exact absurd (congrArg key (Option.some.inj hb)).symm hne
  · rw [Function.update_of_ne hj, iff_self_and]
    intro hb hk
    exact hj (congrArg Prod.fst (h.unique ((h.holds j b).mp hb) hmem hk))

/-! ## The registry -/

/-- A key that no slot holds is not registered. -/
theorem any_key_eq_false [DecidableEq κ] (h : Placed key conflict t placed) {a : α}
    (hkey : ∀ j b, t j = some b → key b ≠ key a) :
    (placed.map Prod.snd).any (fun e => key e = key a) = false := by
  rw [List.any_map, List.any_eq_false]
  rintro ⟨j, b⟩ hx
  simpa using hkey j b ((h.holds j b).mpr hx)

/-- The entries in the order of the registry. -/
theorem register_new [DecidableEq κ] (h : Placed key conflict t placed) {i : Fin n} {a : α}
    (hi : t i = none) (hkey : ∀ j b, t j = some b → key b ≠ key a) :
    register key n a (placed.map Prod.snd) = (placed ++ [(i, a)]).map Prod.snd := by
  rw [register, h.any_key_eq_false hkey, if_neg (by decide), List.length_map,
    if_pos (h.length_lt hi)]
  simp

theorem register_full [DecidableEq κ] (h : Placed key conflict t placed) {a : α}
    (hfull : ∀ i, t i ≠ none) (hkey : ∀ j b, t j = some b → key b ≠ key a) :
    register key n a (placed.map Prod.snd) = placed.map Prod.snd := by
  rw [register, h.any_key_eq_false hkey, if_neg (by decide), List.length_map,
    if_neg (Nat.not_lt.mpr (h.length_ge hfull))]

theorem register_again [DecidableEq κ] (h : Placed key conflict t placed) {i : Fin n} {a e : α}
    (hi : t i = some e) (hkey : key e = key a) :
    register key n a (placed.map Prod.snd) =
      (placed.map fun x => if key x.2 = key a then (x.1, a) else x).map Prod.snd := by
  have hany : (placed.map Prod.snd).any (fun e => key e = key a) = true := by
    rw [List.any_map, List.any_eq_true]
    exact ⟨(i, e), (h.holds i e).mp hi, by simpa using hkey⟩
  rw [register, hany, if_pos rfl, List.map_map, List.map_map]
  refine List.map_congr_left fun x _ => ?_
  rw [Function.comp, Function.comp]
  split <;> rfl

/-! ## Searching -/

/-- **The slot that is found first holds the entry that was registered first**, of
those that satisfy `p`. -/
theorem find (h : Placed key conflict t placed) {p : α → Bool}
    (hp : ∀ a b, p a = true → p b = true → conflict (key a) (key b)) :
    (List.finRange n).find? (fun i => (t i).any p) =
      (placed.find? fun x => p x.2).map Prod.fst := by
  rcases hf : placed.find? (fun x => p x.2) with _ | ⟨i, a⟩
  · rw [hf, Option.map_none, List.find?_eq_none]
    intro i _ hi
    obtain ⟨a, ha, hpa⟩ := (Option.any_eq_true _ _).mp hi
    exact List.find?_eq_none.mp hf (i, a) ((h.holds i a).mp ha) hpa
  · obtain ⟨hpa, as, bs, hsplit, has⟩ := List.find?_eq_some_iff_append.mp hf
    have hi : t i = some a := (h.holds i a).mpr (by simp [hsplit])
    have hap := h.apart
    rw [hsplit, List.pairwise_append, List.pairwise_cons] at hap
    rw [hf, Option.map_some]
    apply find_finRange
    · rw [hi]
      exact hpa
    · intro j hj
      by_contra hne
      obtain ⟨b, hb, hpb⟩ := (Option.any_eq_true _ _).mp (Bool.eq_true_of_not_eq_false hne)
      have hmem := (h.holds j b).mp hb
      rw [hsplit, List.mem_append, List.mem_cons] at hmem
      rcases hmem with hin | heq | hin
      · exact absurd hpb (by simpa using has (j, b) hin)
      · exact absurd hj (by rw [(Prod.mk.inj heq).1]; exact lt_irrefl i)
      · exact absurd hj (lt_asymm ((hap.2.1.1 (j, b) hin).2.2 (hp a b hpa hpb)))

end Placed

end Registry

end LibAt
