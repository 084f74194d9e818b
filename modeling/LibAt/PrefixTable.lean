import Mathlib.Data.List.Nodup

/-!
# Tables searched by prefix

A table of keys with values is searched for a key that a text begins with, in the order
of the table: the first such entry is taken (`firstMatch`). What is wanted is often the
entry with the longest such key (`LongestMatch`).

The two agree on a text where no key that it begins with extends another key
(`longest_of_notExtending`). In a table where shorter keys come before the keys that
extend them, they agree nowhere else (`firstMatch_longest_iff`): there a scan always
stops at the shortest key, and an entry that extends another is never reached.
-/

namespace LibAt

namespace PrefixTable

variable {α β : Type} {table : List (List α × β)} {m : List α} {e e' : List α × β}

/-- The entry has the longest of the keys that the text begins with. -/
structure LongestMatch (table : List (List α × β)) (m : List α) (e : List α × β) : Prop where
  mem : e ∈ table
  matched : e.1 <+: m
  longest : ∀ e' ∈ table, e'.1 <+: m → e'.1.length ≤ e.1.length

/-- The entry's key begins with another key. -/
def Extending (table : List (List α × β)) (e : List α × β) : Prop :=
  ∃ e' ∈ table, e'.1 <+: e.1 ∧ e'.1 ≠ e.1

/-- No key is the beginning of an earlier one. -/
def ShorterFirst (table : List (List α × β)) : Prop := table.Pairwise fun e e' => ¬e'.1 <+: e.1

/-- A longest match has no other beside it. -/
theorem LongestMatch.unique (hkeys : (table.map Prod.fst).Nodup) (h : LongestMatch table m e)
    (h' : LongestMatch table m e') : e = e' := by
  have hbegins : e.1 <+: e'.1 :=
    List.prefix_of_prefix_length_le h.matched h'.matched (h'.longest e h.mem h.matched)
  have hkey : e.1 = e'.1 := hbegins.eq_of_length_le (h.longest e' h'.mem h'.matched)
  exact List.inj_on_of_nodup_map hkeys h.mem h'.mem hkey

/-- A key that no other key extends within the text is the longest. -/
theorem longest_of_notExtended (he : e ∈ table) (hm : e.1 <+: m)
    (hno : ∀ e' ∈ table, e.1 <+: e'.1 → e'.1 <+: m → e' = e) : LongestMatch table m e := by
  refine ⟨he, hm, fun e' he' hm' => ?_⟩
  rcases List.prefix_or_prefix_of_prefix hm' hm with hle | hge
  · exact hle.length_le
  · exact Nat.le_of_eq (by rw [hno e' he' hge hm'])

variable [DecidableEq α]

instance (table : List (List α × β)) (e : List α × β) : Decidable (Extending table e) :=
  inferInstanceAs (Decidable (∃ e' ∈ table, _ ∧ _))

instance (table : List (List α × β)) : Decidable (ShorterFirst table) :=
  inferInstanceAs (Decidable (table.Pairwise _))

/-- The first entry with a key that the text begins with. -/
def firstMatch (table : List (List α × β)) (m : List α) : Option (List α × β) :=
  table.find? fun e => decide (e.1 <+: m)

theorem firstMatch_eq_none : firstMatch table m = none ↔ ∀ e ∈ table, ¬e.1 <+: m := by
  simp [firstMatch]

theorem firstMatch_mem (h : firstMatch table m = some e) : e ∈ table :=
  List.mem_of_find?_eq_some h

theorem firstMatch_matched (h : firstMatch table m = some e) : e.1 <+: m := by
  simpa using List.find?_some h

/-- **The first match is the longest** where no key that the text begins with extends
another. -/
theorem longest_of_notExtending (h : firstMatch table m = some e)
    (hno : ∀ e' ∈ table, e'.1 <+: m → ¬Extending table e') : LongestMatch table m e := by
  refine ⟨firstMatch_mem h, firstMatch_matched h, fun e' he' hm => ?_⟩
  rcases List.prefix_or_prefix_of_prefix hm (firstMatch_matched h) with hle | hge
  · exact hle.length_le
  · by_cases hkey : e.1 = e'.1
    · exact Nat.le_of_eq (congrArg List.length hkey.symm)
    · exact absurd ⟨e, firstMatch_mem h, hge, hkey⟩ (hno e' he' hm)

/-- Where shorter keys come first, a scan stops at the shortest of the keys that the text
begins with. -/
theorem firstMatch_shortest (hshort : ShorterFirst table) (h : firstMatch table m = some e)
    (he' : e' ∈ table) (hm : e'.1 <+: m) : e.1 <+: e'.1 := by
  obtain ⟨hmatch, before, after, rfl, hbefore⟩ := List.find?_eq_some_iff_append.mp h
  rcases List.mem_append.mp he' with hmem | hmem
  · -- the scan has refused what is before
    exact absurd hm (by simpa using hbefore e' hmem)
  · rcases List.mem_cons.mp hmem with rfl | hmem
    · exact List.prefix_refl _
    · have hlater := (List.pairwise_append.mp hshort).2.1
      have hno : ¬e'.1 <+: e.1 := (List.pairwise_cons.mp hlater).1 e' hmem
      exact (List.prefix_or_prefix_of_prefix hm (firstMatch_matched h)).resolve_left hno

/-- **When the first match is the longest**, where shorter keys come first. -/
theorem firstMatch_longest_iff (hshort : ShorterFirst table) (h : firstMatch table m = some e) :
    LongestMatch table m e ↔ ∀ e' ∈ table, e'.1 <+: m → ¬Extending table e' := by
  refine ⟨fun hlongest e' he' hm => ?_, longest_of_notExtending h⟩
  rintro ⟨short, hshortMem, hbegins, hne⟩
  -- the shortest key and the longest are one, and so are all between them
  have hlower : e.1 <+: short.1 := firstMatch_shortest hshort h hshortMem (hbegins.trans hm)
  have hupper : e'.1.length ≤ e.1.length := hlongest.longest e' he' hm
  exact hne (hbegins.eq_of_length_le (Nat.le_trans hupper hlower.length_le))

end PrefixTable

end LibAt
