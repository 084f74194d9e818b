import Mathlib.Data.Int.ModEq
import LibAt.Engine

/-!
# The RX ring is a first-in first-out buffer

The ring keeps free-running 16-bit indices and masks them on access, so which
bytes it holds depends on two wrap-arounds: of the indices at 2^16 and of the
slots at the buffer size. Both being powers of two, the slots of the bytes in
the ring are distinct (`rxIndex_add_ne`), and pushing and popping act on the
list of bytes, `rxringBytes`, as they should.
-/

namespace LibAt

variable {cfg : Config}

/-- The bytes in the ring, oldest first. -/
def rxringBytes (r : RxRing cfg) : List UInt8 :=
  (List.range (rxringUsed r)).map fun i => r.buf (rxIndex cfg (r.tail + UInt16.ofNat i))

@[simp] theorem length_rxringBytes (r : RxRing cfg) :
    (rxringBytes r).length = rxringUsed r := by
  simp [rxringBytes]

/-- A power of two by the test of the header is one. -/
theorem IsPow2.exists_eq {n : Nat} (h : IsPow2 n) : ∃ k, n = 2 ^ k := by
  exact Nat.ne_zero_and_sub_one_eq_zero_iff_isPowerOfTwo.mp h

/-- Masking is reduction modulo the size. -/
theorem rxIndex_val (i : UInt16) : (rxIndex cfg i).val = i.toNat % cfg.rxBufSize := by
  obtain ⟨k, hk⟩ := cfg.rx_pow2.exists_eq
  change i.toNat &&& (cfg.rxBufSize - 1) = _
  rw [hk]
  exact Nat.and_two_pow_sub_one_eq_mod _ _

/-- Slots less than the size and less than 2^16 apart are different. -/
theorem rxIndex_add_ne (i : UInt16) {a b : Nat} (hab : a < b) (hsize : b < cfg.rxBufSize)
    (hb : b < 2 ^ 16) :
    rxIndex cfg (i + UInt16.ofNat a) ≠ rxIndex cfg (i + UInt16.ofNat b) := by
  intro h
  obtain ⟨k, hk⟩ := cfg.rx_pow2.exists_eq
  -- both wrap-arounds respect residues modulo the smaller of the two powers
  have hle : b < 2 ^ min k 16 := by
    rcases Nat.le_total k 16 with hk16 | hk16
    · rwa [Nat.min_eq_left hk16, ← hk]
    · rwa [Nat.min_eq_right hk16]
  have hmod (c : Nat) (hc : c < 2 ^ 16) :
      (i + UInt16.ofNat c).toNat ≡ i.toNat + c [MOD 2 ^ min k 16] := by
    have hnat : (i + UInt16.ofNat c).toNat = (i.toNat + c) % 2 ^ 16 := by
      rw [UInt16.toNat_add, UInt16.toNat_ofNat_of_lt' hc]
    rw [hnat]
    exact (Nat.mod_modEq _ _).of_dvd (Nat.pow_dvd_pow 2 (Nat.min_le_right k 16))
  have heq : (i + UInt16.ofNat a).toNat ≡ (i + UInt16.ofNat b).toNat [MOD 2 ^ min k 16] := by
    have hval := congrArg Fin.val h
    rw [rxIndex_val, rxIndex_val, hk] at hval
    exact Nat.ModEq.of_dvd (Nat.pow_dvd_pow 2 (Nat.min_le_left k 16)) hval
  have hab' : i.toNat + a ≡ i.toNat + b [MOD 2 ^ min k 16] :=
    ((hmod a (hab.trans hb)).symm.trans heq).trans (hmod b hb)
  have := (Nat.ModEq.add_left_cancel' _ hab').eq_of_lt_of_lt (hab.trans hle) hle
  omega

theorem rxringEmpty_iff {r : RxRing cfg} : rxringEmpty r = true ↔ rxringBytes r = [] := by
  rw [← List.length_eq_zero_iff, length_rxringBytes, rxringUsed, rxringEmpty, beq_iff_eq]
  constructor
  · intro h
    rw [h]
    simp
  · intro h
    have hhead := r.head.toNat_lt
    have htail := r.tail.toNat_lt
    rw [UInt16.toNat_sub] at h
    exact UInt16.toNat_inj.mp (by omega)

/-- Taking a byte leaves one less. -/
theorem rxringUsed_pop {r r' : RxRing cfg} {b : UInt8} (h : rxringPop r = some (b, r')) :
    rxringUsed r' + 1 = rxringUsed r := by
  rw [rxringPop] at h
  split at h
  · cases h
  · rename_i hempty
    obtain ⟨-, rfl⟩ := Prod.mk.inj (Option.some.inj h)
    have hne : r.head ≠ r.tail := by simpa [rxringEmpty] using hempty
    have hne' : r.head.toNat ≠ r.tail.toNat := fun h => hne (UInt16.toNat_inj.mp h)
    have hhead := r.head.toNat_lt
    have htail := r.tail.toNat_lt
    simp only [rxringUsed, UInt16.toNat_sub, UInt16.toNat_add, UInt16.toNat_one]
    omega

/-- Popping takes the oldest byte. -/
theorem rxringPop_bytes {r r' : RxRing cfg} {b : UInt8} (h : rxringPop r = some (b, r')) :
    rxringBytes r = b :: rxringBytes r' := by
  have hused := rxringUsed_pop h
  rw [rxringPop] at h
  split at h
  · cases h
  · obtain ⟨rfl, rfl⟩ := Prod.mk.inj (Option.some.inj h)
    rw [rxringBytes, ← hused, List.range_succ_eq_map, List.map_cons, List.map_map]
    congr 1
    · simp
    · refine List.map_congr_left fun i _ => ?_
      simp only [Function.comp_apply]
      congr 2
      rw [UInt16.add_assoc]
      congr 1
      apply UInt16.toNat_inj.mp
      simp [UInt16.toNat_add, UInt16.toNat_ofNat', Nat.add_comm]

/-- The producer writes where the bytes in the ring end. -/
theorem rxring_head (r : RxRing cfg) : r.head = r.tail + UInt16.ofNat (rxringUsed r) := by
  apply UInt16.toNat_inj.mp
  have hhead := r.head.toNat_lt
  have htail := r.tail.toNat_lt
  rw [rxringUsed, UInt16.ofNat_toNat, UInt16.toNat_add, UInt16.toNat_sub]
  omega

/-- The slot the producer writes next is not the one of a byte in the ring. -/
theorem rxIndex_head_ne {r : RxRing cfg} (hroom : rxringUsed r < cfg.rxBufSize) {i : Nat}
    (hi : i < rxringUsed r) :
    rxIndex cfg (r.tail + UInt16.ofNat i) ≠ rxIndex cfg r.head := by
  have hlt : rxringUsed r < 2 ^ 16 := (r.head - r.tail).toNat_lt
  rw [rxring_head r]
  exact rxIndex_add_ne r.tail hi hroom hlt

/-- Storing a byte behind the others does not touch them. -/
theorem rxringBytes_store {r : RxRing cfg} (hroom : rxringUsed r < cfg.rxBufSize) (b : UInt8) :
    rxringBytes { r with buf := Function.update r.buf (rxIndex cfg r.head) b } =
      rxringBytes r := by
  refine List.map_congr_left fun i hi => Function.update_of_ne ?_ _ _
  exact rxIndex_head_ne hroom (List.mem_range.mp hi)

/-- Advancing the head lengthens the ring by one. -/
theorem rxringUsed_publish {r : RxRing cfg} (hlt : rxringUsed r + 1 < 2 ^ 16) :
    rxringUsed { r with head := r.head + 1 } = rxringUsed r + 1 := by
  have hhead := r.head.toNat_lt
  have htail := r.tail.toNat_lt
  simp only [rxringUsed, UInt16.toNat_sub, UInt16.toNat_add, UInt16.toNat_one] at hlt ⊢
  omega

/-- Advancing the head makes the byte in its slot the newest one. -/
theorem rxringBytes_publish {r : RxRing cfg} (hlt : rxringUsed r + 1 < 2 ^ 16) :
    rxringBytes { r with head := r.head + 1 } =
      rxringBytes r ++ [r.buf (rxIndex cfg r.head)] := by
  rw [rxringBytes, rxringUsed_publish hlt, List.range_succ, List.map_append, List.map_singleton,
    ← rxring_head r]
  rfl

/-- Pushing adds the newest byte. -/
theorem rxringPush_bytes {r r' : RxRing cfg} {b : UInt8} (h : rxringPush r b = some r')
    (hlt : rxringUsed r + 1 < 2 ^ 16) : rxringBytes r' = rxringBytes r ++ [b] := by
  rw [rxringPush] at h
  split at h
  · cases h
  · rename_i hroom
    obtain rfl := Option.some.inj h
    have hpublish := rxringBytes_publish
      (r := { r with buf := Function.update r.buf (rxIndex cfg r.head) b }) hlt
    rw [rxringBytes_store (Nat.lt_of_not_ge hroom)] at hpublish
    simpa using hpublish

/-- Feeding adds some of the bytes, in order. -/
theorem atFeed_bytes (data : List UInt8) : ∀ {g : Engine cfg},
    rxringUsed g.rx + data.length < 2 ^ 16 →
    ∃ kept, kept.Sublist data ∧ rxringBytes (atFeed data g).rx = rxringBytes g.rx ++ kept := by
  induction data with
  | nil => exact fun _ => ⟨[], List.Sublist.refl _, (List.append_nil _).symm⟩
  | cons b data ih =>
    intro g hlt
    rw [List.length_cons] at hlt
    cases hp : rxringPush g.rx b with
    | none =>
      obtain ⟨kept, hsub, hbytes⟩ := ih (g := g) (by omega)
      refine ⟨kept, hsub.cons b, ?_⟩
      rw [← hbytes]
      simp only [atFeed, List.foldl_cons, hp, Option.getD_none]
    | some r =>
      have hpush := rxringPush_bytes hp (by omega)
      have hused := congrArg List.length hpush
      rw [List.length_append, length_rxringBytes, length_rxringBytes, List.length_singleton] at hused
      obtain ⟨kept, hsub, hbytes⟩ := ih (g := { g with rx := r }) (by
        change rxringUsed r + data.length < _
        omega)
      refine ⟨b :: kept, hsub.cons_cons b, ?_⟩
      change rxringBytes (atFeed data { g with rx := r }).rx = rxringBytes r ++ kept at hbytes
      rw [hpush, List.append_assoc, List.singleton_append] at hbytes
      rw [← hbytes]
      simp only [atFeed, List.foldl_cons, hp, Option.getD_some]

end LibAt
