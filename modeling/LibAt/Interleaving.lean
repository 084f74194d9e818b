import Mathlib.Logic.Relation
import LibAt.RxRing

/-!
# The RX ring between an interrupt and the main loop

`rxring_push` runs in an interrupt and `rxring_pop` in `at_process`, and either
may stop between any two of its steps while the other goes on. A push checks
that there is room, stores the byte and advances the head; a pop checks that
there is a byte, loads it and advances the tail. What a check has seen may be
out of date when the next step is taken: the consumer may have made more room,
the producer may have published more bytes, and neither does harm, because each
side only ever takes away from what the other one must not touch.

`RingStep` is one step of either side, `RingInv` the invariant, and `Lossless`
what it means for the bytes.
-/

namespace LibAt

variable {cfg : Config}

/-! ## The two sides -/

/-- Where the producer is in `rxring_push(b)`. -/
inductive PushPc where
  /-- outside -/
  | idle
  /-- it has seen room for `b` -/
  | room (b : UInt8)
  /-- it has stored `b` -/
  | stored (b : UInt8)
  deriving DecidableEq, Repr

/-- Where the consumer is in `rxring_pop`. -/
inductive PopPc where
  /-- outside -/
  | idle
  /-- it has seen that the ring is not empty -/
  | nonempty
  /-- it has loaded `b` -/
  | loaded (b : UInt8)
  deriving DecidableEq, Repr

/-- The ring, both sides, and what they have done so far. -/
structure RingRun (cfg : Config) where
  ring : RxRing cfg
  push : PushPc
  pop : PopPc
  /-- the bytes whose push returned `true` -/
  pushed : List UInt8
  /-- the bytes that were popped -/
  popped : List UInt8
  /-- for each push that returned `false`, the number of unread bytes it saw -/
  refused : List Nat

/-- Nobody has done anything yet. -/
def RingRun.start (r : RxRing cfg) : RingRun cfg := ⟨r, .idle, .idle, [], [], []⟩

/-- `r->buf[r->head & MASK] = b`. -/
def rxringStore (r : RxRing cfg) (b : UInt8) : RxRing cfg :=
  { r with buf := Function.update r.buf (rxIndex cfg r.head) b }

/-- `r->head++`. -/
def rxringPublish (r : RxRing cfg) : RxRing cfg := { r with head := r.head + 1 }

/-- `r->tail++`. -/
def rxringRelease (r : RxRing cfg) : RxRing cfg := { r with tail := r.tail + 1 }

/-- One step of either side. -/
inductive RingStep : RingRun cfg → RingRun cfg → Prop
  /-- the producer finds the ring full and returns `false` -/
  | full (s) : s.push = .idle → rxringUsed s.ring ≥ cfg.rxBufSize →
      RingStep s { s with refused := s.refused ++ [rxringUsed s.ring] }
  /-- the producer finds room -/
  | room (s b) : s.push = .idle → ¬rxringUsed s.ring ≥ cfg.rxBufSize →
      RingStep s { s with push := .room b }
  /-- the producer stores its byte -/
  | store (s b) : s.push = .room b →
      RingStep s { s with push := .stored b, ring := rxringStore s.ring b }
  /-- the producer advances the head and returns `true` -/
  | publish (s b) : s.push = .stored b →
      RingStep s { s with
        push := .idle, ring := rxringPublish s.ring, pushed := s.pushed ++ [b] }
  /-- the consumer finds the ring empty and returns `false` -/
  | empty (s) : s.pop = .idle → rxringEmpty s.ring = true → RingStep s s
  /-- the consumer finds a byte -/
  | nonempty (s) : s.pop = .idle → rxringEmpty s.ring = false →
      RingStep s { s with pop := .nonempty }
  /-- the consumer loads the byte -/
  | load (s) : s.pop = .nonempty →
      RingStep s { s with pop := .loaded (s.ring.buf (rxIndex cfg s.ring.tail)) }
  /-- the consumer advances the tail and returns `true` -/
  | release (s b) : s.pop = .loaded b →
      RingStep s { s with
        pop := .idle, ring := rxringRelease s.ring, popped := s.popped ++ [b] }

/-- Any number of steps, in any order. -/
abbrev RingSteps : RingRun cfg → RingRun cfg → Prop := Relation.ReflTransGen RingStep

/-! ## Each side on its own is the function of the source -/

/-- A push that is not interrupted is `rxring_push`. -/
theorem rxringPush_steps {s : RingRun cfg} {b : UInt8} {r : RxRing cfg} (hs : s.push = .idle)
    (h : rxringPush s.ring b = some r) :
    RingSteps s { s with ring := r, pushed := s.pushed ++ [b] } := by
  obtain ⟨ring, push, pop, pushed, popped, refused⟩ := s
  obtain rfl : push = .idle := hs
  rw [rxringPush] at h
  split at h
  · cases h
  · rename_i hroom
    obtain rfl := Option.some.inj h
    exact .head (.room _ b rfl hroom) (.head (.store _ b rfl) (.single (.publish _ b rfl)))

/-- A push that is refused leaves the ring alone. -/
theorem rxringPush_refused {s : RingRun cfg} {b : UInt8} (hs : s.push = .idle)
    (h : rxringPush s.ring b = none) :
    RingSteps s { s with refused := s.refused ++ [rxringUsed s.ring] } := by
  rw [rxringPush] at h
  split at h
  · rename_i hfull
    exact .single (.full s hs hfull)
  · cases h

/-- A pop that is not interrupted is `rxring_pop`. -/
theorem rxringPop_steps {s : RingRun cfg} {b : UInt8} {r : RxRing cfg} (hs : s.pop = .idle)
    (h : rxringPop s.ring = some (b, r)) :
    RingSteps s { s with ring := r, popped := s.popped ++ [b] } := by
  obtain ⟨ring, push, pop, pushed, popped, refused⟩ := s
  obtain rfl : pop = .idle := hs
  rw [rxringPop] at h
  split at h
  · cases h
  · rename_i hne
    obtain ⟨rfl, rfl⟩ := Prod.mk.inj (Option.some.inj h)
    exact .head (.nonempty _ rfl (Bool.eq_false_iff.mpr hne))
      (.head (.load _ rfl) (.single (.release _ _ rfl)))

/-- Nor does a pop that finds nothing change it. -/
theorem rxringPop_empty {s : RingRun cfg} (hs : s.pop = .idle) (h : rxringPop s.ring = none) :
    RingSteps s s := by
  by_cases hempty : rxringEmpty s.ring = true
  · exact .single (.empty s hs hempty)
  · exact absurd h (by simp [rxringPop, hempty])

/-- The functions of the source, not interrupted, are steps from here, with what they return
in the books. -/
structure Performs (s : RingRun cfg) : Prop where
  push : s.push = .idle → ∀ b r, rxringPush s.ring b = some r →
    RingSteps s { s with ring := r, pushed := s.pushed ++ [b] }
  full : s.push = .idle → ∀ b, rxringPush s.ring b = none →
    RingSteps s { s with refused := s.refused ++ [rxringUsed s.ring] }
  pop : s.pop = .idle → ∀ b r, rxringPop s.ring = some (b, r) →
    RingSteps s { s with ring := r, popped := s.popped ++ [b] }
  empty : s.pop = .idle → rxringPop s.ring = none → RingSteps s s

theorem RingRun.performs (s : RingRun cfg) : Performs s :=
  ⟨fun hs _ _ h => rxringPush_steps hs h, fun hs _ h => rxringPush_refused hs h,
    fun hs _ _ h => rxringPop_steps hs h, rxringPop_empty⟩

/-! ## The invariant -/

/-- What holds between any two steps. The first field says that nothing is
lost, duplicated or altered; the others say what each side may rely on in the
middle of its function. -/
structure RingInv (s : RingRun cfg) : Prop where
  unread : s.pushed = s.popped ++ rxringBytes s.ring
  used_le : rxringUsed s.ring ≤ cfg.rxBufSize
  /-- room once seen stays -/
  room : s.push ≠ .idle → rxringUsed s.ring < cfg.rxBufSize
  stored : ∀ b, s.push = .stored b → s.ring.buf (rxIndex cfg s.ring.head) = b
  /-- a byte once seen stays -/
  nonempty : s.pop ≠ .idle → 0 < rxringUsed s.ring
  loaded : ∀ b, s.pop = .loaded b → s.ring.buf (rxIndex cfg s.ring.tail) = b
  refused : ∀ n ∈ s.refused, n = cfg.rxBufSize

/-- The oldest byte stands at the tail. -/
theorem rxringBytes_eq_cons {r : RxRing cfg} (h : 0 < rxringUsed r) :
    rxringBytes r = r.buf (rxIndex cfg r.tail) :: rxringBytes (rxringRelease r) := by
  have hne : ¬rxringEmpty r = true := by
    rw [rxringEmpty_iff, ← List.length_eq_zero_iff, length_rxringBytes]
    omega
  exact rxringPop_bytes (by rw [rxringPop, if_neg hne]; rfl)

theorem rxringUsed_release {r : RxRing cfg} (h : 0 < rxringUsed r) :
    rxringUsed (rxringRelease r) + 1 = rxringUsed r := by
  have hcons := congrArg List.length (rxringBytes_eq_cons h)
  rw [List.length_cons, length_rxringBytes, length_rxringBytes] at hcons
  exact hcons.symm

/-- The slot the consumer reads is not the one the producer writes. -/
theorem rxIndex_tail_ne {r : RxRing cfg} (h0 : 0 < rxringUsed r)
    (hroom : rxringUsed r < cfg.rxBufSize) : rxIndex cfg r.tail ≠ rxIndex cfg r.head := by
  have hne := rxIndex_head_ne hroom h0
  rwa [show r.tail + UInt16.ofNat 0 = r.tail from UInt16.add_zero _] at hne

/-- **Step.** -/
theorem RingInv.step (hsize : cfg.rxBufSize ≤ 2 ^ 15) {s t : RingRun cfg} (h : RingInv s)
    (ht : RingStep s t) : RingInv t := by
  have hle := h.used_le
  cases ht with
  | full hidle hfull =>
    refine ⟨h.unread, h.used_le, h.room, h.stored, h.nonempty, h.loaded, fun n hn => ?_⟩
    rcases List.mem_append.mp hn with hn | hn
    · exact h.refused n hn
    · rw [List.mem_singleton.mp hn]
      omega
  | room b hidle hroom =>
    exact ⟨h.unread, h.used_le, fun _ => Nat.lt_of_not_ge hroom, nofun, h.nonempty, h.loaded,
      h.refused⟩
  | store b hb =>
    have hroom := h.room (by simp [hb])
    refine ⟨?_, h.used_le, fun _ => hroom, fun c hc => ?_, h.nonempty, fun c hc => ?_, h.refused⟩
    · exact h.unread.trans (congrArg _ (rxringBytes_store hroom b).symm)
    · obtain rfl := PushPc.stored.inj hc
      exact Function.update_self _ _ _
    · rw [← h.loaded c hc]
      exact Function.update_of_ne (rxIndex_tail_ne (h.nonempty (by rw [hc]; simp)) hroom) _ _
  | publish b hb =>
    have hroom := h.room (by simp [hb])
    have hlt : rxringUsed s.ring + 1 < 2 ^ 16 := by omega
    have hused : rxringUsed (rxringPublish s.ring) = rxringUsed s.ring + 1 :=
      rxringUsed_publish hlt
    refine ⟨?_, ?_, nofun, nofun, fun _ => ?_, h.loaded, h.refused⟩
    · change s.pushed ++ [b] = s.popped ++ rxringBytes { s.ring with head := s.ring.head + 1 }
      rw [rxringBytes_publish hlt, h.stored b hb, h.unread, List.append_assoc]
    · change rxringUsed (rxringPublish s.ring) ≤ _
      omega
    · change 0 < rxringUsed (rxringPublish s.ring)
      omega
  | empty => exact h
  | nonempty hidle hne =>
    refine ⟨h.unread, h.used_le, h.room, h.stored, fun _ => ?_, nofun, h.refused⟩
    have hbytes : rxringBytes s.ring ≠ [] := fun h0 => by
      rw [rxringEmpty_iff.mpr h0] at hne
      cases hne
    rw [← length_rxringBytes]
    exact List.length_pos_of_ne_nil hbytes
  | load hload =>
    refine ⟨h.unread, h.used_le, h.room, h.stored, fun _ => h.nonempty (by simp [hload]), ?_,
      h.refused⟩
    exact fun c hc => PopPc.loaded.inj hc
  | release b hb =>
    have h0 := h.nonempty (by simp [hb])
    have hused := rxringUsed_release h0
    refine ⟨?_, ?_, fun hne => ?_, h.stored, nofun, nofun, h.refused⟩
    · change s.pushed = (s.popped ++ [b]) ++ rxringBytes (rxringRelease s.ring)
      rw [h.unread, rxringBytes_eq_cons h0, h.loaded b hb, List.append_assoc,
        List.singleton_append]
    · change rxringUsed (rxringRelease s.ring) ≤ _
      omega
    · have hroom := h.room hne
      change rxringUsed (rxringRelease s.ring) < _
      omega

/-- An empty ring to begin with. -/
theorem RingInv.start {r : RxRing cfg} (h : r.head = r.tail) : RingInv (RingRun.start r) := by
  have hbytes : rxringBytes r = [] := rxringEmpty_iff.mp (by simp [rxringEmpty, h])
  have hused : rxringUsed r = 0 := by rw [← length_rxringBytes, hbytes, List.length_nil]
  exact ⟨hbytes.symm, by change rxringUsed r ≤ _; omega, by simp [RingRun.start],
    by simp [RingRun.start], by simp [RingRun.start], by simp [RingRun.start],
    by simp [RingRun.start]⟩

/-- **Run.** -/
theorem RingInv.steps (hsize : cfg.rxBufSize ≤ 2 ^ 15) {s t : RingRun cfg} (h : RingInv s)
    (ht : RingSteps s t) : RingInv t := by
  induction ht with
  | refl => exact h
  | tail _ hstep ih => exact ih.step hsize hstep

/-! ## Nothing is lost -/

/-- What the ring guarantees, whatever has happened. -/
structure Lossless (s : RingRun cfg) : Prop where
  /-- what was popped is the beginning of what was pushed -/
  order : s.popped <+: s.pushed
  /-- what is still to be popped is in the ring -/
  unread : s.pushed = s.popped ++ rxringBytes s.ring
  /-- a push fails only when it sees a full ring -/
  refused : ∀ n ∈ s.refused, n = cfg.rxBufSize
  /-- the consumer loads the next byte published, from a slot the producer is
  not writing -/
  published : s.pop = .nonempty →
    s.pushed[s.popped.length]? = some (s.ring.buf (rxIndex cfg s.ring.tail)) ∧
      (s.push ≠ .idle → rxIndex cfg s.ring.tail ≠ rxIndex cfg s.ring.head)
  used_le : rxringUsed s.ring ≤ cfg.rxBufSize

/-- **Lossless FIFO.** However the steps of pushes and pops interleave, and
wherever the 16-bit indices stand to begin with, the ring loses, duplicates and
alters nothing, and refuses a byte only when it is full. Among these steps are, at any
time, whole calls of `rxring_push` and `rxring_pop`. -/
theorem ring_lossless (hsize : cfg.rxBufSize ≤ 2 ^ 15) {r : RxRing cfg} (hr : r.head = r.tail)
    {s : RingRun cfg} (h : RingSteps (RingRun.start r) s) : Lossless s ∧ Performs s := by
  have hinv := (RingInv.start hr).steps hsize h
  refine ⟨?_, s.performs⟩
  refine ⟨?_, hinv.unread, hinv.refused, fun hpop => ⟨?_, fun hpush => ?_⟩, hinv.used_le⟩
  · rw [hinv.unread]
    exact List.prefix_append _ _
  · have h0 := hinv.nonempty (by simp [hpop])
    rw [hinv.unread, rxringBytes_eq_cons h0, List.getElem?_append_right (Nat.le_refl _),
      Nat.sub_self, List.getElem?_cons_zero]
  · exact rxIndex_tail_ne (hinv.nonempty (by simp [hpop])) (hinv.room hpush)

/-- Both indices wrap around while the consumer is interrupted twice. -/
theorem ring_lossless_wrapped : ∃ s : RingRun Config.default,
    s.pushed = [7, 8] ∧ s.popped = [7] ∧ s.ring.head = 1 ∧ s.ring.tail = 0 ∧
      Lossless s ∧ Performs s := by
  have hrun : RingSteps (RingRun.start (⟨65535, 65535, fun _ => 0⟩ : RxRing Config.default)) _ :=
    .head (.room _ 7 rfl (by decide)) <| .head (.store _ 7 rfl) <| .head (.publish _ 7 rfl) <|
    .head (.nonempty _ rfl (by decide)) <| .head (.room _ 8 rfl (by decide)) <|
    .head (.load _ rfl) <| .head (.store _ 8 rfl) <| .head (.release _ _ rfl) <|
    .single (.publish _ 8 rfl)
  exact ⟨_, rfl, by decide +kernel, by decide, by decide, ring_lossless (by decide) rfl hrun⟩

end LibAt
