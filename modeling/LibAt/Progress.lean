import LibAt.Chunking
import LibAt.Wire

/-!
# The engine never wedges

From any state a silent modem and enough time empty the queue. A round is a
tick as long as the timer can be set and an `at_process`. Each round completes
a command or starts one that the next round will complete (`Engine.rounds`
counts what is left), except that a prompt already in the ring may buy the
active command one more round.
-/

namespace LibAt

variable {cfg : Config} {σ : Type} {env : Env σ} {allowed : HookKind → ApiCall → Prop}

/-! ## Timers -/

/-- Every timeout in the engine fits 32 bits. -/
structure Times (g : Engine cfg) : Prop where
  timer : g.timerMs < 2 ^ 32
  queue : ∀ i, (g.queue i).timeoutMs < 2 ^ 32

theorem cmdEntryOf_timeout {d : CmdDesc} (hd : d.timeoutMs < 2 ^ 32) :
    (cmdEntryOf cfg d).timeoutMs < 2 ^ 32 := by
  simp only [cmdEntryOf]
  split <;> omega

theorem Times.tick {g : Engine cfg} (h : Times g) (ms : Nat) : Times (atTick ms g) := by
  have htimer := h.timer
  rw [atTick]
  split
  · refine ⟨?_, h.queue⟩
    dsimp only
    split <;> omega
  · exact h

theorem Times.send {g g' : Engine cfg} (h : Times g) {d : CmdDesc} (hd : d.timeoutMs < 2 ^ 32)
    (hs : atSend (some d) g = (.ok, g')) : Times g' := by
  obtain ⟨-, -, rfl⟩ := atSend_ok hs
  refine ⟨h.timer, fun i => ?_⟩
  by_cases hi : i = g.qHead
  · rw [hi]
    change (Function.update g.queue g.qHead _ g.qHead).timeoutMs < _
    rw [Function.update_self]
    exact cmdEntryOf_timeout hd
  · change (Function.update g.queue g.qHead _ i).timeoutMs < _
    rw [Function.update_of_ne hi]
    exact h.queue i

theorem Times.dequeue {g : Engine cfg} (h : Times g) (slot : Fin cfg.cmdQueueDepth) :
    Times (dequeue slot g) := by
  refine ⟨Nat.zero_lt_succ _, fun i => ?_⟩
  by_cases hi : i = slot
  · rw [hi]
    change (Function.update g.queue slot _ slot).timeoutMs < _
    rw [Function.update_self]
    exact Nat.zero_lt_succ _
  · change (Function.update g.queue slot _ i).timeoutMs < _
    rw [Function.update_of_ne hi]
    exact h.queue i

/-- **Step.** A transition keeps the timeouts in range, if accepted descriptors
have theirs in range. -/
theorem Times.step (hprompt : cfg.promptTimeoutMs < 2 ^ 32) {s t : Snapshot cfg σ}
    (ht : Transition allowed s t) (hd : ∀ d ∈ acceptances t.2.log, d.timeoutMs < 2 ^ 32)
    (h : Times s.2.eng) : Times t.2.eng := by
  cases ht with
  | send st w d g hs =>
    refine h.send (hd d ?_) hs
    rw [World.emit_log, acceptances, List.filterMap_append]
    exact List.mem_append_right _ (List.mem_singleton.mpr rfl)
  | tick st w ms => exact h.tick ms
  | register st w pre cb user r g hr =>
    obtain ⟨table, rfl⟩ := atRegisterUrc_eq hr
    exact ⟨h.timer, h.queue⟩
  | deregister st w pre r g hr =>
    obtain ⟨table, rfl⟩ := atDeregisterUrc_eq hr
    exact ⟨h.timer, h.queue⟩
  | byte w b g hb =>
    obtain ⟨line, lfsm, rfl⟩ := lfsmByte_eq hb
    exact ⟨h.timer, h.queue⟩
  | promptAnswered w l env _ _ _ =>
    dsimp only
    rw [answerPrompt_eng]
    exact ⟨hprompt, h.queue⟩
  | accumulate w l _ _ _ _ _ =>
    obtain ⟨pool, response, heng⟩ := accumulate_eng l w
    dsimp only
    rw [heng]
    exact ⟨h.timer, h.queue⟩
  | transmit w env _ _ =>
    dsimp only
    rw [transmit_eng]
    exact ⟨h.queue _, h.queue⟩
  | finalize st w status c _ _ _ =>
    dsimp only
    rw [World.fire_eng]
    exact ⟨h.timer, h.queue⟩
  | drainNotify st w _ =>
    dsimp only
    rw [World.fire_eng]
    exact h
  | dequeue st w slot e => exact h.dequeue slot
  | _ => exact ⟨h.timer, h.queue⟩

theorem Reachable.times (hprompt : cfg.promptTimeoutMs < 2 ^ 32) {P : Env σ → TopCall → Prop}
    {w : World cfg σ} (h : Reachable P w)
    (hd : ∀ d ∈ acceptances w.log, d.timeoutMs < 2 ^ 32) : Times w.eng := by
  obtain ⟨s, hs⟩ := h.steps_any
  refine hs.invariant
    (I := fun t => (∀ d ∈ acceptances t.2.log, d.timeoutMs < 2 ^ 32) → Times t.2.eng)
    (fun s t ht ih hdt => ?_) (fun _ => ⟨Nat.zero_lt_succ _, fun _ => Nat.zero_lt_succ _⟩) hd
  refine Times.step hprompt ht hdt (ih fun d hmem => hdt d ?_)
  obtain ⟨evs, hevs⟩ := ht.log_mono
  rw [← hevs, acceptances, List.filterMap_append]
  exact List.mem_append_left _ hmem

/-! ## Commands that are served -/

/-- Between the two worlds the oldest commands of the queue were completed,
each with its callback called once, in order. -/
def Served (w w' : World cfg σ) : Prop :=
  ∃ done, w.eng.pending = done ++ w'.eng.pending ∧
    completions w'.log = completions w.log ++ done ∧
    firings w'.log = firings w.log ++ done.filterMap CmdEntry.note

theorem Served.of_quiet {w w' : World cfg σ} (hq : SameQueue w.eng w'.eng)
    (hlog : Quiet w.log w'.log) : Served w w' := by
  refine ⟨[], hq.pending.symm, ?_, ?_⟩
  · rw [← retired_history, ← retired_history, hlog.history, List.append_nil]
  · rw [← notified_history, ← notified_history, hlog.history, List.filterMap_nil, List.append_nil]

theorem Served.trans {w₁ w₂ w₃ : World cfg σ} (h : Served w₁ w₂) (h' : Served w₂ w₃) :
    Served w₁ w₃ := by
  obtain ⟨done, hpend, hcomp, hfire⟩ := h
  obtain ⟨done', hpend', hcomp', hfire'⟩ := h'
  refine ⟨done ++ done', ?_, ?_, ?_⟩
  · rw [hpend, hpend', List.append_assoc]
  · rw [hcomp', hcomp, List.append_assoc]
  · rw [hfire', hfire, List.filterMap_append, List.append_assoc]

theorem firings_notice (e : CmdEntry cfg) (r : Response) :
    firings (e.notice r) = [e].filterMap CmdEntry.note := by
  rw [CmdEntry.notice, List.filterMap_cons, CmdEntry.note]
  cases e.cb <;> rfl

theorem Served.finalized (hfit : cfg.Fits) {w : World cfg σ} (h : QueueOk w.eng)
    (h0 : 0 < w.eng.qCount) (status : AtResult) (c : Int) :
    Served w (finalized env status c w) := by
  refine ⟨[w.eng.queue w.eng.qTail], pending_dequeue hfit h h0, ?_, ?_⟩
  · change completions (w.log ++ _ ++ [_]) = _
    rw [completions_append, completions_append, completions_notice, List.append_nil]
    rfl
  · change firings (w.log ++ _ ++ [_]) = _
    rw [firings_append, firings_append, firings_notice]
    exact List.append_nil _

theorem Served.count_le {w w' : World cfg σ} (h : Served w w') :
    w'.eng.qCount ≤ w.eng.qCount := by
  obtain ⟨done, hpend, -, -⟩ := h
  have hlen := congrArg List.length hpend
  rw [List.length_append] at hlen
  simp only [Engine.pending, Circular.length_window] at hlen
  omega

/-! ## What is left to do -/

/-- The rounds that are needed once nothing more is received: one for each
command, and one to start if none is active. -/
def Engine.rounds (g : Engine cfg) : Nat :=
  if g.state = .idle ∧ 0 < g.qCount then g.qCount + 1 else g.qCount

/-- The engine between API calls. -/
structure Ready (w : World cfg σ) : Prop where
  queue : QueueOk w.eng
  rest : w.eng.state = .idle ∨ w.eng.state = .waiting
  times : Times w.eng

theorem Ready.rounds_waiting {w : World cfg σ} (hs : w.eng.state = .waiting) :
    w.eng.rounds = w.eng.qCount := by
  rw [Engine.rounds, if_neg (by simp [hs])]

/-- With no rounds left there is nothing in the queue. -/
theorem Ready.of_rounds {w : World cfg σ} (h : Ready w) (h0 : w.eng.rounds = 0) :
    w.eng.qCount = 0 ∧ w.eng.state = .idle := by
  have hcount : w.eng.qCount = 0 := by
    rw [Engine.rounds] at h0
    split at h0 <;> omega
  refine ⟨hcount, ?_⟩
  by_contra hne
  have := h.queue.active hne
  omega

/-- From `w` the engine served commands and came to `w'`, with no more left to
do than before. -/
structure Advances (w w' : World cfg σ) : Prop where
  ready : Ready w'
  served : Served w w'
  rounds_le : w'.eng.rounds ≤ w.eng.rounds

theorem Advances.trans {w₁ w₂ w₃ : World cfg σ} (h : Advances w₁ w₂) (h' : Advances w₂ w₃) :
    Advances w₁ w₃ :=
  ⟨h'.ready, h.served.trans h'.served, h'.rounds_le.trans h.rounds_le⟩

/-- Nothing happened to the queue. -/
theorem Advances.of_quiet {w w' : World cfg σ} (h : Ready w) (hq : SameQueue w.eng w'.eng)
    (hs : w'.eng.state = w.eng.state) (ht : Times w'.eng) (hlog : Quiet w.log w'.log) :
    Advances w w' := by
  refine ⟨⟨h.queue.congr hq (hs ▸ h.queue.active), hs ▸ h.rest, ht⟩, .of_quiet hq hlog, ?_⟩
  rw [Engine.rounds, Engine.rounds, hs, hq.qCount]

theorem Advances.refl {w : World cfg σ} (h : Ready w) : Advances w w :=
  .of_quiet h ⟨rfl, rfl, rfl, rfl⟩ rfl h.times (.refl _)

/-- The active command completes, maybe after more has been written for it. -/
theorem finalized_advances (hfit : cfg.Fits) (env : Env σ) {w v : World cfg σ} (h : Ready w)
    (h0 : 0 < w.eng.qCount) (hq : SameQueue w.eng v.eng) (ht : Times v.eng)
    (hlog : Quiet w.log v.log) (status : AtResult) (c : Int) :
    Advances w (finalized env status c v) ∧
      (finalized env status c v).eng.rounds ≤ w.eng.qCount := by
  have h0' : 0 < v.eng.qCount := hq.qCount ▸ h0
  have hqueue : QueueOk v.eng := h.queue.congr hq fun _ => h0
  have hrounds : (finalized env status c v).eng.rounds ≤ w.eng.qCount := by
    have hdepth := hfit.depth
    have hle := h.queue.count_le
    have hcount : (finalized env status c v).eng.qCount = (v.eng.qCount + 255) % 256 := rfl
    rw [Engine.rounds, hcount, hq.qCount]
    split <;> omega
  refine ⟨⟨⟨hqueue.advance hfit h0' rfl rfl rfl rfl, .inl rfl, ?_⟩, ?_, hrounds.trans ?_⟩, hrounds⟩
  · have hset : Times (setResponse (finalResponse status c v.eng) v.eng) := ⟨ht.timer, ht.queue⟩
    exact hset.dequeue v.eng.qTail
  · exact (Served.of_quiet hq hlog).trans (.finalized hfit hqueue h0' status c)
  · rw [Engine.rounds]
    split <;> omega

/-! ## Received lines -/

/-- A line completes the active command or leaves the queue alone. -/
theorem Ready.dispatches (hfit : cfg.Fits) (hprompt : cfg.promptTimeoutMs < 2 ^ 32)
    {l : List UInt8} {w w' : World cfg σ} (h : Ready w) (hd : Dispatches env l w w') :
    Advances w w' := by
  have hq : Quiet w.log w.log := .refl _
  cases hd with
  | empty => exact .refl h
  | echo =>
    exact .of_quiet h ⟨rfl, rfl, rfl, rfl⟩ rfl ⟨h.times.timer, h.times.queue⟩ (hq.concat rfl)
  | ignored => exact .of_quiet h ⟨rfl, rfl, rfl, rfl⟩ rfl h.times (hq.concat rfl)
  | urc => exact .of_quiet h ⟨rfl, rfl, rfl, rfl⟩ rfl h.times ((hq.concat rfl).concat rfl)
  | answered w' _ hp _ ha =>
    have heng := answerPrompt_eng env (w.eng.queue w.eng.qTail) (w.emit (.line (.prompt true) l))
    have hlog := (hq.concat rfl).trans (answerPrompt_growsBy (fun _ _ _ => rfl) (fun _ => rfl)
      env (w.eng.queue w.eng.qTail) (w.emit (.line (.prompt true) l)))
    rw [ha] at heng hlog
    refine .of_quiet h ?_ ?_ ?_ hlog <;> rw [heng]
    · exact ⟨rfl, rfl, rfl, rfl⟩
    · exact (isPrompt_waiting hp).symm
    · exact ⟨hprompt, h.times.queue⟩
  | failed w₁ _ hp _ ha =>
    have heng := answerPrompt_eng env (w.eng.queue w.eng.qTail) (w.emit (.line (.prompt true) l))
    have hlog := (hq.concat rfl).trans (answerPrompt_growsBy (fun _ _ _ => rfl) (fun _ => rfl)
      env (w.eng.queue w.eng.qTail) (w.emit (.line (.prompt true) l)))
    rw [ha] at heng hlog
    refine (finalized_advances hfit env h (h.queue.active (by simp [isPrompt_waiting hp])) ?_ ?_ hlog
      _ _).1 <;> rw [heng]
    · exact ⟨rfl, rfl, rfl, rfl⟩
    · exact ⟨hprompt, h.times.queue⟩
  | final status c _ _ hs _ =>
    exact (finalized_advances hfit env h (h.queue.active (by simp [hs])) ⟨rfl, rfl, rfl, rfl⟩ h.times
      (v := w.emit (.line .final l)) (hq.concat rfl) status c).1
  | other =>
    obtain ⟨pool, response, heng⟩ := accumulate_eng l w
    refine .of_quiet h ?_ ?_ ?_ (accumulate_quiet l w) <;> rw [heng]
    · exact ⟨rfl, rfl, rfl, rfl⟩
    · exact ⟨h.times.timer, h.times.queue⟩

theorem consume_advances (hfit : cfg.Fits) (hprompt : cfg.promptTimeoutMs < 2 ^ 32)
    (env : Env σ) (bs : List UInt8) {w : World cfg σ} (h : Ready w) :
    ∃ w', consume (quiet env) env bs w = some w' ∧ Advances w w' := by
  refine consume_quiet hfit (I := Advances w) (fun b v g hv hb => ?_) (fun b v v' l hv _ hd => ?_)
    bs (.refl h)
  · obtain ⟨line, lfsm, rfl⟩ := lfsmByte_eq hb
    exact hv.trans (.of_quiet hv.ready ⟨rfl, rfl, rfl, rfl⟩ rfl
      ⟨hv.ready.times.timer, hv.ready.times.queue⟩ (.refl _))
  · have hline := hv.trans (hv.ready.dispatches hfit hprompt hd)
    exact hline.trans (.of_quiet hline.ready ⟨rfl, rfl, rfl, rfl⟩ rfl
      ⟨hline.ready.times.timer, hline.ready.times.queue⟩ (.refl _))

/-! ## One round -/

/-- An idle engine starts the next command, which waits or completes. -/
theorem startIfIdle_advances (hfit : cfg.Fits) (env : Env σ) {w : World cfg σ} (h : Ready w)
    (hs : w.eng.state = .idle) :
    ∃ w', startIfIdle (quiet env) env w = some w' ∧ Advances w w' ∧
      w'.eng.rounds ≤ w.eng.rounds - 1 ∧ w'.eng.rx = w.eng.rx := by
  by_cases h0 : 0 < w.eng.qCount
  · have hrounds : w.eng.rounds = w.eng.qCount + 1 := if_pos ⟨hs, h0⟩
    have heng := transmit_eng env w
    have hlog := transmit_quiet env w
    rw [startIfIdle, if_pos ⟨hs, h0⟩, engineStartNext]
    rcases ht : transmit env w with ⟨_ | _, v⟩ <;> rw [ht] at heng hlog <;> dsimp only at heng ⊢
    · rw [engineFinalize_quiet]
      obtain ⟨hadv, hle⟩ := finalized_advances hfit env h h0 (v := v)
        (by rw [heng]; exact ⟨rfl, rfl, rfl, rfl⟩)
        (by rw [heng]; exact ⟨h.times.queue _, h.times.queue⟩) hlog .errIo 0
      refine ⟨_, rfl, hadv, by omega, ?_⟩
      change v.eng.rx = _
      rw [heng]
      rfl
    · have hq : SameQueue w.eng v.eng := by rw [heng]; exact ⟨rfl, rfl, rfl, rfl⟩
      have hwaiting : v.eng.state = .waiting := by rw [heng]; rfl
      have hle : v.eng.rounds ≤ w.eng.rounds - 1 := by
        rw [Ready.rounds_waiting hwaiting, hq.qCount]
        omega
      have hready : Ready v := by
        refine ⟨h.queue.congr hq fun _ => h0, .inr hwaiting, ?_⟩
        rw [heng]
        exact ⟨h.times.queue _, h.times.queue⟩
      refine ⟨v, rfl, ⟨hready, .of_quiet hq hlog, by omega⟩, hle, ?_⟩
      rw [heng]
      rfl
  · have hrounds : w.eng.rounds = 0 := by
      rw [Engine.rounds, if_neg fun h => h0 h.2]
      omega
    refine ⟨w, if_neg fun h => h0 h.2, .refl h, by omega, rfl⟩

/-- Behind the drain loop an engine that is idle or out of time gets one round
further. -/
theorem afterDrain_advances (hfit : cfg.Fits) (env : Env σ) {w : World cfg σ} (h : Ready w) :
    ∃ w', afterDrain env w = some w' ∧ Advances w w' ∧ w'.eng.rx = w.eng.rx ∧
      (w.eng.state = .idle ∨ w.eng.timerMs = 0 → w'.eng.rounds ≤ w.eng.rounds - 1) := by
  rw [afterDrain, checkTimeout]
  rcases h.rest with hs | hs
  · rw [if_neg (by simp [hs]), Option.bind_some]
    obtain ⟨w', hw', hadv, hle, hrx⟩ := startIfIdle_advances hfit env h hs
    exact ⟨w', hw', hadv, hrx, fun _ => hle⟩
  · by_cases htime : w.eng.timerMs = 0
    · have h0 : 0 < w.eng.qCount := h.queue.active (by simp [hs])
      obtain ⟨hadv, hle⟩ := finalized_advances hfit env h h0 ⟨rfl, rfl, rfl, rfl⟩ h.times
        (.refl _) .errTimeout 0
      rw [if_pos ⟨.inl hs, htime⟩, engineFinalize_quiet, Option.bind_some]
      obtain ⟨w', hw', hadv', hle', hrx⟩ := startIfIdle_advances hfit env hadv.ready rfl
      refine ⟨w', hw', hadv.trans hadv', hrx, fun _ => ?_⟩
      rw [Ready.rounds_waiting hs]
      omega
    · rw [if_neg fun h => htime h.2, Option.bind_some, startIfIdle, if_neg (by simp [hs])]
      exact ⟨w, rfl, .refl h, rfl, fun hor => by simp [hs, htime] at hor⟩

/-- **One `at_process`** leaves at most a round for each command, and one round
less than before if nothing is received and the time is up. -/
theorem process_advances (hfit : cfg.Fits) (hprompt : cfg.promptTimeoutMs < 2 ^ 32)
    (henv : env.Silent) {fuel : Nat} {w : World cfg σ} (h : Ready w)
    (hfuel : rxringUsed w.eng.rx < fuel) :
    ∃ w', exec env fuel .process w = some (.unit, w') ∧ Advances w w' ∧
      rxringBytes w'.eng.rx = [] ∧ w'.eng.rounds ≤ w.eng.qCount ∧
      (rxringBytes w.eng.rx = [] → (w.eng.state = .waiting → w.eng.timerMs = 0) →
        w'.eng.rounds ≤ w.eng.rounds - 1) := by
  obtain ⟨v, hv, hadv⟩ := consume_advances hfit hprompt env (rxringBytes w.eng.rx) h
  have hdrain : Advances v (v.mapEng (setRx w.eng.rx.drained)) :=
    .of_quiet hadv.ready ⟨rfl, rfl, rfl, rfl⟩ rfl
      ⟨hadv.ready.times.timer, hadv.ready.times.queue⟩ (.refl _)
  obtain ⟨w', hw', hadv', hrx, hstrict⟩ := afterDrain_advances hfit env hdrain.ready
  refine ⟨w', ?_, hadv.trans (hdrain.trans hadv'), ?_, ?_, fun hempty htime => ?_⟩
  · rw [exec_process henv hfuel, hv, Option.map_some, Option.bind_some, hw']
    rfl
  · rw [hrx]
    exact rxringEmpty_iff.mp (beq_self_eq_true _)
  · have hcount := hadv.served.count_le
    have hle := hadv'.rounds_le.trans hdrain.rounds_le
    rcases hadv.ready.rest with hs | hs
    · have hlt := hstrict (.inl hs)
      have hrounds : v.eng.rounds ≤ v.eng.qCount + 1 := by
        rw [Engine.rounds]
        split <;> omega
      have := hdrain.rounds_le
      omega
    · rw [Ready.rounds_waiting hs] at hle
      omega
  · -- nothing was received, so the drain loop has done nothing
    rw [hempty] at hv
    obtain rfl := Option.some.inj hv
    refine (hstrict ?_).trans (Nat.sub_le_sub_right hdrain.rounds_le 1)
    exact h.rest.imp_right htime

/-- A tick that no timer survives, and an `at_process`. -/
def roundCalls : List TopCall := [.api (.tick (2 ^ 32 - 1)), .process]

/-- **One round.** -/
theorem round_advances (hfit : cfg.Fits) (hprompt : cfg.promptTimeoutMs < 2 ^ 32)
    (henv : env.Silent) {fuel : Nat} {w : World cfg σ} (h : Ready w)
    (hfuel : rxringUsed w.eng.rx < fuel) :
    ∃ w', execAll env fuel roundCalls w = some w' ∧ Advances w w' ∧
      rxringBytes w'.eng.rx = [] ∧ w'.eng.rounds ≤ w.eng.qCount ∧
      (rxringBytes w.eng.rx = [] → w'.eng.rounds ≤ w.eng.rounds - 1) := by
  obtain ⟨n, hn⟩ := atTick_eq (2 ^ 32 - 1) w.eng
  have htick : Advances w (w.putEng (atTick (2 ^ 32 - 1) w.eng)) :=
    .of_quiet h (by rw [hn]; exact ⟨rfl, rfl, rfl, rfl⟩) (by rw [hn]; rfl) (h.times.tick _) (.refl _)
  have htime : w.eng.state = .waiting → (atTick (2 ^ 32 - 1) w.eng).timerMs = 0 := by
    intro hs
    have := h.times.timer
    rw [atTick, if_pos (.inl hs)]
    exact if_pos (by omega)
  have hrx : (w.putEng (atTick (2 ^ 32 - 1) w.eng)).eng.rx = w.eng.rx := by
    rw [World.putEng_eng, hn]
  have hcount : (w.putEng (atTick (2 ^ 32 - 1) w.eng)).eng.qCount = w.eng.qCount := by
    rw [World.putEng_eng, hn]
  have hstate : (w.putEng (atTick (2 ^ 32 - 1) w.eng)).eng.state = w.eng.state := by
    rw [World.putEng_eng, hn]
  obtain ⟨w', hw', hadv, hempty, hle, hstrict⟩ :=
    process_advances hfit hprompt henv htick.ready (hrx ▸ hfuel)
  refine ⟨w', ?_, htick.trans hadv, hempty, hcount ▸ hle, fun hnone => ?_⟩
  · change ((exec env fuel .process (w.putEng (atTick (2 ^ 32 - 1) w.eng))).bind fun r => some r.2) = _
    rw [hw', Option.bind_some]
  · refine (hstrict (hrx ▸ hnone) fun hs => htime (hstate ▸ hs)).trans ?_
    exact Nat.sub_le_sub_right htick.rounds_le 1

/-! ## All rounds -/

/-- `n` rounds. -/
def roundsCalls (n : Nat) : List TopCall := (List.replicate n roundCalls).flatten

/-- **Rounds.** With nothing to be received, as many rounds as are left empty the
queue. -/
theorem rounds_advance (hfit : cfg.Fits) (hprompt : cfg.promptTimeoutMs < 2 ^ 32)
    (henv : env.Silent) {fuel : Nat} (hfuel : 0 < fuel) (n : Nat) : ∀ {w : World cfg σ}, Ready w →
      rxringBytes w.eng.rx = [] → w.eng.rounds ≤ n →
      ∃ w', execAll env fuel (roundsCalls n) w = some w' ∧ Advances w w' ∧ w'.eng.rounds = 0 := by
  induction n with
  | zero => exact fun {w} h _ h0 => ⟨w, rfl, .refl h, by omega⟩
  | succ n ih =>
    intro w h hempty hle
    have hused : rxringUsed w.eng.rx < fuel := by
      rw [← length_rxringBytes, hempty]
      exact hfuel
    obtain ⟨v, hv, hadv, hempty', -, hstrict⟩ := round_advances hfit hprompt henv h hused
    have := hstrict hempty
    obtain ⟨w', hw', hadv', h0⟩ := ih hadv.ready hempty' (by omega)
    refine ⟨w', ?_, hadv.trans hadv', h0⟩
    rw [roundsCalls, List.replicate_succ, List.flatten_cons, execAll_append, hv]
    exact hw'

/-- **The engine never wedges.** From any state reachable with hooks that only
send, whatever is in the ring and whatever the write hook returns, a silent
modem and one round more than there are commands empty the queue, and each
command that was in it completes, in order, with its callback called once. -/
theorem never_wedges (hfit : cfg.Fits) (hprompt : cfg.promptTimeoutMs < 2 ^ 32) {w : World cfg σ}
    (h : Reachable (fun env _ => env.Respects SendsOnly) w)
    (htimes : ∀ d ∈ acceptances w.log, d.timeoutMs < 2 ^ 32) (henv : env.Silent) (s : σ)
    {fuel : Nat} (hfuel : rxringUsed w.eng.rx < fuel) :
    ∃ w', execAll env fuel (roundsCalls (w.eng.qCount + 1)) (w.putApp s) = some w' ∧
      w'.eng.qCount = 0 ∧ w'.eng.state = .idle ∧
      completions w'.log = completions w.log ++ w.eng.pending ∧
      firings w'.log = firings w.log ++ w.eng.pending.filterMap CmdEntry.note := by
  have hready : Ready w := by
    obtain ⟨hqueue, cur, -, hstate⟩ := (wireDiscipline (σ := σ) hfit).reachable
      (fun env _ henv inv s => (henv inv s).mono fun c hc => by
        cases c <;> first | exact hc.elim | exact ⟨by simp, by simp⟩)
      wireRest_init h
    exact ⟨hqueue, hstate.imp And.left And.left, h.times hprompt htimes⟩
  have hready' : Ready (w.putApp s) := ⟨hready.queue, hready.rest, hready.times⟩
  obtain ⟨v, hv, hadv, hempty, hle, -⟩ := round_advances hfit hprompt henv hready' hfuel
  obtain ⟨w', hw', hadv', h0⟩ :=
    rounds_advance hfit hprompt henv (Nat.zero_lt_of_lt hfuel) w.eng.qCount hadv.ready hempty hle
  obtain ⟨hcount, hidle⟩ := hadv'.ready.of_rounds h0
  obtain ⟨done, hpend, hcomp, hfire⟩ := hadv.served.trans hadv'.served
  have hall : w'.eng.pending = [] := by rw [Engine.pending, hcount, Circular.window_zero]
  rw [hall, List.append_nil] at hpend
  obtain rfl : w.eng.pending = done := hpend
  refine ⟨w', ?_, hcount, hidle, hcomp, hfire⟩
  rw [roundsCalls, List.replicate_succ, List.flatten_cons, execAll_append, hv]
  exact hw'

/-- Two commands, the first one waiting for an answer, and its prompt still in the
ring. -/
theorem never_wedges_prompt : ∃ w w' : World Config.default Unit,
    (w.eng.qCount = 2 ∧ w.eng.state = .waiting ∧ rxringBytes w.eng.rx = ascii ">\r ") ∧
      execAll plainEnv 16 (roundsCalls 3) w = some w' ∧
      w'.eng.qCount = 0 ∧ w'.eng.state = .idle ∧
      completions w'.log = completions w.log ++ w.eng.pending ∧
      firings w'.log = firings w.log ++ w.eng.pending.filterMap CmdEntry.note := by
  obtain ⟨w, hw, hp⟩ := Reachable.of_execAll (P := fun env _ => env.Respects SendsOnly) plainEnv 16
    [.api (.send (some message)), .api (.send (some probe)), .process,
      .api (.feed (ascii ">\r "))]
    () (fun _ => plainEnv_respects _)
    (fun w : World Config.default Unit => decide ((w.eng.qCount = 2 ∧ w.eng.state = .waiting ∧
      rxringBytes w.eng.rx = ascii ">\r ") ∧
      (∀ d ∈ acceptances w.log, d.timeoutMs < 2 ^ 32) ∧ rxringUsed w.eng.rx < 16))
    (by decide +kernel)
  obtain ⟨hscene, htimes, hused⟩ := of_decide_eq_true hp
  obtain ⟨w', hx, hrest⟩ := never_wedges Config.default_fits (by decide) hw htimes plainEnv_silent ()
    hused
  rw [hscene.1] at hx
  exact ⟨w, w', hscene, hx, hrest⟩

end LibAt
