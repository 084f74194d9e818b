import LibAt.ExecSteps
import LibAt.FifoService

/-!
# The life of a command

The command queue is a first-in first-out service (`FifoService`): `at_send`
accepts, a callback notifies, and removing the slot retires. `Lifecycle` is
the invariant that ties the circular array, the state and the activity in
progress to the replay of the log, and it holds in every run in which no
completion callback has cancelled anything (`Reachable.lifecycle`).
-/

namespace LibAt

variable {cfg : Config} {σ : Type} {allowed : HookKind → ApiCall → Prop}

open FifoService (Op)
open Circular (slot window)

/-! ## The log as the history of a service -/

/-- The notification a command asks for: its callback with its user
pointer. -/
def CmdEntry.note (e : CmdEntry cfg) : Option (Ptr × Ptr) := e.cb.map (·, e.user)

/-- The service operation behind a log entry. -/
def Event.op : Event cfg → Option (Op (CmdEntry cfg) (Ptr × Ptr))
  | .accepted d => some (.accept (cmdEntryOf cfg d))
  | .fired f u _ => some (.notify (f, u))
  | .completed e => some (.retire e)
  | _ => none

/-- The history of the service. -/
def history (log : List (Event cfg)) : List (Op (CmdEntry cfg) (Ptr × Ptr)) :=
  log.filterMap Event.op

theorem history_append (log evs : List (Event cfg)) :
    history (log ++ evs) = history log ++ history evs :=
  List.filterMap_append

/-- The commands in the queue, oldest first. -/
def Engine.pending (g : Engine cfg) : List (CmdEntry cfg) := window g.queue g.qTail g.qCount

/-- The descriptors `at_send` returned `AT_OK` for. -/
def acceptances (log : List (Event cfg)) : List CmdDesc :=
  log.filterMap fun | .accepted d => some d | _ => none

/-- The commands that left the queue. -/
def completions (log : List (Event cfg)) : List (CmdEntry cfg) :=
  log.filterMap fun | .completed e => some e | _ => none

/-- The callbacks that were called, each with its user pointer. -/
def firings (log : List (Event cfg)) : List (Ptr × Ptr) :=
  log.filterMap fun | .fired f u _ => some (f, u) | _ => none

theorem completions_append (log evs : List (Event cfg)) :
    completions (log ++ evs) = completions log ++ completions evs :=
  List.filterMap_append

theorem firings_append (log evs : List (Event cfg)) :
    firings (log ++ evs) = firings log ++ firings evs :=
  List.filterMap_append

theorem accepted_history (log : List (Event cfg)) :
    FifoService.accepted (history log) = (acceptances log).map (cmdEntryOf cfg) := by
  rw [FifoService.accepted, history, acceptances, List.filterMap_filterMap, List.map_filterMap]
  refine List.filterMap_congr fun ev _ => ?_
  cases ev <;> rfl

theorem retired_history (log : List (Event cfg)) :
    FifoService.retired (history log) = completions log := by
  rw [FifoService.retired, history, completions, List.filterMap_filterMap]
  refine List.filterMap_congr fun ev _ => ?_
  cases ev <;> rfl

theorem notified_history (log : List (Event cfg)) :
    FifoService.notified (history log) = firings log := by
  rw [FifoService.notified, history, firings, List.filterMap_filterMap]
  refine List.filterMap_congr fun ev _ => ?_
  cases ev <;> rfl

/-! ## The invariant -/

/-- The queue fields agree with each other and with the state. -/
structure QueueOk (g : Engine cfg) : Prop where
  count_le : g.qCount ≤ cfg.cmdQueueDepth
  head : g.qHead = slot g.qTail g.qCount
  active : g.state ≠ .idle → 0 < g.qCount

/-- What the activities in progress say about the queue. The `Bool` is whether
the oldest command has been notified. Without cancellation inside a callback
no two completions overlap. -/
def StackOk (g : Engine cfg) : List (Frame cfg) → Bool → Prop
  | [], notified => notified = false
  | [.finalizing i e], notified =>
    i = g.qTail ∧ g.queue g.qTail = e ∧ 0 < g.qCount ∧ notified = e.note.isSome
  | [.draining], notified => g.state = .idle ∧ notified = false
  | [.notifying e, .draining], notified =>
    g.state = .idle ∧ g.queue g.qTail = e ∧ 0 < g.qCount ∧ notified = e.note.isSome
  | _, _ => False

/-- The invariant of every run without cancellation inside a callback. -/
structure Lifecycle (s : Snapshot cfg σ) : Prop where
  queue : QueueOk s.2.eng
  /-- the log is a legal history and leaves what is in the queue -/
  replay : ∃ notified, StackOk s.2.eng s.1 notified ∧
    FifoService.run CmdEntry.note (history s.2.log) = some ⟨s.2.eng.pending, notified⟩

/-- What was accepted was completed or is in the queue, in this order. -/
theorem Lifecycle.accepted_eq {st : List (Frame cfg)} {w : World cfg σ} (h : Lifecycle (st, w)) :
    (acceptances w.log).map (cmdEntryOf cfg) = completions w.log ++ w.eng.pending := by
  obtain ⟨_, -, hrun⟩ := h.replay
  have horder := FifoService.accepted_eq hrun
  rwa [accepted_history, retired_history] at horder

/-! ## Transitions that do not concern the queue -/

/-- Two engines with the same queue. -/
structure SameQueue (g g' : Engine cfg) : Prop where
  queue : g'.queue = g.queue
  qHead : g'.qHead = g.qHead
  qTail : g'.qTail = g.qTail
  qCount : g'.qCount = g.qCount

theorem SameQueue.pending {g g' : Engine cfg} (h : SameQueue g g') : g'.pending = g.pending := by
  simp only [Engine.pending]
  rw [h.queue, h.qTail, h.qCount]

theorem QueueOk.congr {g g' : Engine cfg} (h : QueueOk g) (hq : SameQueue g g')
    (hs : g'.state ≠ .idle → 0 < g.qCount) : QueueOk g' where
  count_le := hq.qCount ▸ h.count_le
  head := by
    rw [hq.qHead, hq.qTail, hq.qCount]
    exact h.head
  active := hq.qCount ▸ hs

/-- A log extended by entries that are no service operations. -/
abbrev Quiet (log log' : List (Event cfg)) : Prop := GrowsBy (fun ev => ev.op = none) log log'

theorem Quiet.history {log log' : List (Event cfg)} (h : Quiet log log') :
    history log' = history log := by
  obtain ⟨evs, rfl, hevs⟩ := h
  rw [history_append, LibAt.history, LibAt.history, List.filterMap_eq_nil_iff.mpr hevs,
    List.append_nil]

/-- A quiet transition that leaves the queue alone keeps the invariant, if it
leaves the state alone or only the application is running. -/
theorem Lifecycle.frame {st : List (Frame cfg)} {w w' : World cfg σ} (h : Lifecycle (st, w))
    (hq : SameQueue w.eng w'.eng) (hlog : Quiet w.log w'.log)
    (hs : w'.eng.state = w.eng.state ∨ st = [] ∧ (w'.eng.state = .idle ∨ 0 < w.eng.qCount)) :
    Lifecycle (st, w') where
  queue := by
    refine h.queue.congr hq fun hne => ?_
    rcases hs with hs | ⟨-, hs | hs⟩
    · exact h.queue.active (hs ▸ hne)
    · exact absurd hs hne
    · exact hs
  replay := by
    obtain ⟨notified, hst, hrun⟩ := h.replay
    refine ⟨notified, ?_, by rw [hlog.history, hq.pending]; exact hrun⟩
    rcases hs with hs | ⟨rfl, -⟩
    · -- nothing `StackOk` looks at has changed
      dsimp only at hst ⊢
      simp only [StackOk] at hst ⊢
      split <;> simp_all [hq.queue, hq.qTail, hq.qCount]
    · exact hst

theorem accumulate_quiet (l : List UInt8) (w : World cfg σ) :
    Quiet w.log (accumulate l w).log := by
  rw [accumulate_log]
  exact (GrowsBy.refl _).concat rfl

theorem transmit_quiet (env : Env σ) (w : World cfg σ) : Quiet w.log (transmit env w).2.log := by
  obtain ⟨evs, hsent, hlog⟩ := transmit_sent env w
  exact ⟨_, hlog, List.forall_mem_cons.mpr
    ⟨rfl, hsent.forall (fun _ _ => rfl) (fun _ _ => rfl) fun _ => rfl⟩⟩

/-! ## Transitions of the service -/

/-- The indices advance by one slot. -/
theorem nextSlot_eq (hfit : cfg.Fits) (i : Fin cfg.cmdQueueDepth) : nextSlot i = slot i 1 := by
  have hd := hfit.depth
  have hlt : (i.val + 1) % cfg.cmdQueueDepth < cfg.cmdQueueDepth := Nat.mod_lt _ cfg.depth_ge
  exact Fin.ext (Nat.mod_eq_of_lt (by omega))

/-- The oldest command stands at the tail. -/
theorem Engine.pending_eq_cons {g : Engine cfg} (h : 0 < g.qCount) :
    ∃ rest, g.pending = g.queue g.qTail :: rest := by
  obtain ⟨n, hn⟩ := Nat.exists_eq_succ_of_ne_zero (Nat.ne_of_gt h)
  rw [Engine.pending, hn, Circular.window_succ]
  exact ⟨_, rfl⟩

/-- The slot `at_send` writes is not the oldest one, unless there is none. -/
theorem tail_ne_head {g : Engine cfg} (h : QueueOk g) (hlt : g.qCount < cfg.cmdQueueDepth)
    (h0 : 0 < g.qCount) : g.qTail ≠ g.qHead := by
  intro heq
  rw [h.head] at heq
  have := Circular.slot_inj (by omega) hlt ((Circular.slot_zero g.qTail).trans heq)
  omega

/-- What is in the queue after `at_send` has accepted a command. -/
theorem pending_send (hfit : cfg.Fits) {d : CmdDesc} {g g' : Engine cfg} (h : QueueOk g)
    (hd : atSend (some d) g = (.ok, g')) : g'.pending = g.pending ++ [cmdEntryOf cfg d] := by
  obtain ⟨-, hlt, rfl⟩ := atSend_ok hd
  have hdepth := hfit.depth
  have hmod : (g.qCount + 1) % 256 = g.qCount + 1 := Nat.mod_eq_of_lt (by omega)
  change window (Function.update g.queue g.qHead (cmdEntryOf cfg d)) g.qTail
    ((g.qCount + 1) % 256) = _
  rw [hmod, h.head, Circular.window_push _ _ _ _ hlt]
  rfl

/-- The queue fields after `at_send` has accepted a command. -/
theorem QueueOk.send (hfit : cfg.Fits) {d : CmdDesc} {g g' : Engine cfg} (h : QueueOk g)
    (hd : atSend (some d) g = (.ok, g')) : QueueOk g' := by
  obtain ⟨-, hlt, rfl⟩ := atSend_ok hd
  have hdepth := hfit.depth
  have hmod : (g.qCount + 1) % 256 = g.qCount + 1 := Nat.mod_eq_of_lt (by omega)
  refine ⟨?_, ?_, fun _ => ?_⟩
  · change (g.qCount + 1) % 256 ≤ _
    omega
  · change nextSlot g.qHead = slot g.qTail ((g.qCount + 1) % 256)
    rw [nextSlot_eq hfit, h.head, Circular.slot_slot, hmod]
  · change 0 < (g.qCount + 1) % 256
    omega

theorem Lifecycle.send (hfit : cfg.Fits) {st : List (Frame cfg)} {w : World cfg σ} {d : CmdDesc}
    {g : Engine cfg} (hd : atSend (some d) w.eng = (.ok, g)) (h : Lifecycle (st, w)) :
    Lifecycle (st, (w.putEng g).emit (.accepted d)) := by
  have hqueue := h.queue.send hfit hd
  have hpend := pending_send hfit h.queue hd
  obtain ⟨-, hlt, rfl⟩ := atSend_ok hd
  have hdepth := hfit.depth
  have hmod : (w.eng.qCount + 1) % 256 = w.eng.qCount + 1 := Nat.mod_eq_of_lt (by omega)
  obtain ⟨notified, hst, hrun⟩ := h.replay
  refine ⟨hqueue, ⟨notified, ?_, ?_⟩⟩
  · -- the stack speaks about the oldest command, which is not overwritten
    have hq : 0 < w.eng.qCount →
        Function.update w.eng.queue w.eng.qHead (cmdEntryOf cfg d) w.eng.qTail =
          w.eng.queue w.eng.qTail :=
      fun h0 => Function.update_of_ne (tail_ne_head h.queue hlt h0) _ _
    dsimp only at hst ⊢
    simp only [StackOk] at hst ⊢
    simp only [World.emit_eng, World.putEng_eng, hmod]
    split <;> simp_all
  · rw [World.emit_eng, World.putEng_eng, hpend, World.emit_log, World.putEng_log, history_append]
    exact (FifoService.run_concat _ _).trans (by rw [hrun]; rfl)

/-- Notifying the oldest command, as far as the history goes. -/
theorem replay_fire {w : World cfg σ} {r : Response} (h0 : 0 < w.eng.qCount)
    (hrun : FifoService.run CmdEntry.note (history w.log) = some ⟨w.eng.pending, false⟩) :
    FifoService.run CmdEntry.note (history (w.fire (w.eng.queue w.eng.qTail) r).log) =
      some ⟨w.eng.pending, (w.eng.queue w.eng.qTail).note.isSome⟩ := by
  obtain ⟨rest, hp⟩ := Engine.pending_eq_cons h0
  cases hcb : (w.eng.queue w.eng.qTail).cb with
  | none => simpa only [World.fire, CmdEntry.note, hcb, Option.map_none, Option.isSome_none] using hrun
  | some f =>
    have hnote : (w.eng.queue w.eng.qTail).note = some (f, (w.eng.queue w.eng.qTail).user) := by
      simp [CmdEntry.note, hcb]
    simp only [World.fire, hcb, World.emit_log, history_append, hnote, Option.isSome_some]
    refine (FifoService.run_concat _ _).trans ?_
    rw [hrun]
    exact FifoService.step_notify_iff.mpr ⟨_, rest, hp, hnote, rfl, rfl⟩

/-- Removing the oldest command, as far as the history goes. -/
theorem replay_retire {log : List (Event cfg)} {e : CmdEntry cfg} {rest : List (CmdEntry cfg)}
    (hrun : FifoService.run CmdEntry.note (history log) = some ⟨e :: rest, e.note.isSome⟩) :
    FifoService.run CmdEntry.note (history (log ++ [.completed e])) = some ⟨rest, false⟩ := by
  rw [history_append]
  refine (FifoService.run_concat _ _).trans ?_
  rw [hrun, Option.bind_some]
  exact FifoService.step_retire_iff.mpr ⟨rest, rfl, rfl, rfl⟩

@[simp] theorem World.fire_eng (e : CmdEntry cfg) (r : Response) (w : World cfg σ) :
    (w.fire e r).eng = w.eng := by
  rw [World.fire]
  split <;> rfl

theorem Lifecycle.finalize {w : World cfg σ} {status : AtResult} {errCode : Int}
    (hs : w.eng.state ≠ .idle) (h : Lifecycle ([], w)) :
    Lifecycle ([.finalizing w.eng.qTail (w.eng.queue w.eng.qTail)],
      (w.putEng (setResponse (finalResponse status errCode w.eng) w.eng)).fire
        (w.eng.queue w.eng.qTail) (finalResponse status errCode w.eng)) := by
  obtain ⟨notified, rfl, hrun⟩ := h.replay
  have h0 : 0 < w.eng.qCount := h.queue.active hs
  refine ⟨?_, ⟨_, ⟨?_, ?_, ?_, rfl⟩, ?_⟩⟩
  · rw [World.fire_eng]
    exact ⟨h.queue.count_le, h.queue.head, h.queue.active⟩
  · rw [World.fire_eng]
    rfl
  · rw [World.fire_eng]
    rfl
  · rw [World.fire_eng]
    exact h0
  · rw [World.fire_eng]
    exact replay_fire (w := w.putEng (setResponse (finalResponse status errCode w.eng) w.eng))
      h0 hrun

theorem Lifecycle.drainNotify {w : World cfg σ} (h0 : 0 < w.eng.qCount)
    (h : Lifecycle ([.draining], w)) :
    Lifecycle ([.notifying (w.eng.queue w.eng.qTail), .draining],
      w.fire (w.eng.queue w.eng.qTail) abortedResponse) := by
  obtain ⟨notified, ⟨hidle, rfl⟩, hrun⟩ := h.replay
  have hqueue := h.queue
  refine ⟨?_, ⟨_, ⟨?_, ?_, ?_, rfl⟩, ?_⟩⟩ <;>
    rw [World.fire_eng]
  · exact hqueue
  · exact hidle
  · exact h0
  · exact replay_fire h0 hrun

/-- The queue fields after the oldest command has left an idle engine. -/
theorem QueueOk.advance (hfit : cfg.Fits) {g g' : Engine cfg} (h : QueueOk g) (h0 : 0 < g.qCount)
    (hhead : g'.qHead = g.qHead) (htail : g'.qTail = nextSlot g.qTail)
    (hcount : g'.qCount = (g.qCount + 255) % 256) (hidle : g'.state = .idle) : QueueOk g' := by
  have hle := h.count_le
  have hdepth := hfit.depth
  refine ⟨by omega, ?_, fun hne => absurd hidle hne⟩
  rw [hhead, htail, hcount, h.head, nextSlot_eq hfit, Circular.slot_slot]
  congr 1
  omega

/-- Dequeuing drops the oldest command; the slot it leaves may be cleared. -/
theorem pending_dequeue (hfit : cfg.Fits) {g : Engine cfg} (h : QueueOk g) (h0 : 0 < g.qCount) :
    g.pending = g.queue g.qTail :: (dequeue g.qTail g).pending := by
  have hle := h.count_le
  have hdepth := hfit.depth
  change window _ _ _ = _ :: window (Function.update _ _ _) (nextSlot _) ((g.qCount + 255) % 256)
  rw [nextSlot_eq hfit, show (g.qCount + 255) % 256 = g.qCount - 1 by omega,
    ← Circular.window_pop _ _ _ _ (by omega), Nat.sub_add_cancel h0]

/-- The drain loop drops the oldest command without clearing its slot. -/
theorem pending_drainNext (hfit : cfg.Fits) {g : Engine cfg} (h : QueueOk g) (h0 : 0 < g.qCount) :
    g.pending = g.queue g.qTail :: (drainNext g).pending := by
  have hle := h.count_le
  have hdepth := hfit.depth
  change window _ _ _ = _ :: window g.queue (nextSlot _) ((g.qCount + 255) % 256)
  rw [nextSlot_eq hfit, show (g.qCount + 255) % 256 = g.qCount - 1 by omega,
    ← Circular.window_succ, Nat.sub_add_cancel h0]

theorem Lifecycle.dequeue (hfit : cfg.Fits) {st : List (Frame cfg)} {w : World cfg σ}
    {i : Fin cfg.cmdQueueDepth} {e : CmdEntry cfg} (h : Lifecycle (.finalizing i e :: st, w)) :
    st = [] ∧ Lifecycle (st, (w.putEng (LibAt.dequeue i w.eng)).emit (.completed e)) := by
  obtain ⟨notified, hst, hrun⟩ := h.replay
  cases st with
  | cons => exact absurd hst (by simp [StackOk])
  | nil =>
    obtain ⟨rfl, rfl, h0, rfl⟩ : i = w.eng.qTail ∧ w.eng.queue w.eng.qTail = e ∧
      0 < w.eng.qCount ∧ notified = e.note.isSome := hst
    refine ⟨rfl, h.queue.advance hfit h0 rfl rfl rfl rfl, ⟨false, rfl, ?_⟩⟩
    dsimp only at hrun
    rw [pending_dequeue hfit h.queue h0] at hrun
    exact replay_retire hrun

theorem Lifecycle.drainNext (hfit : cfg.Fits) {st : List (Frame cfg)} {w : World cfg σ}
    {e : CmdEntry cfg} (h : Lifecycle (.notifying e :: .draining :: st, w)) :
    st = [] ∧
      Lifecycle (.draining :: st, (w.putEng (LibAt.drainNext w.eng)).emit (.completed e)) := by
  obtain ⟨notified, hst, hrun⟩ := h.replay
  cases st with
  | cons => exact absurd hst (by simp [StackOk])
  | nil =>
    obtain ⟨hidle, rfl, h0, rfl⟩ : w.eng.state = .idle ∧ w.eng.queue w.eng.qTail = e ∧
      0 < w.eng.qCount ∧ notified = e.note.isSome := hst
    refine ⟨rfl, h.queue.advance hfit h0 rfl rfl rfl hidle, ⟨false, ⟨hidle, rfl⟩, ?_⟩⟩
    dsimp only at hrun
    rw [pending_drainNext hfit h.queue h0] at hrun
    exact replay_retire hrun

/-! ## Every transition keeps the invariant -/

/-- **Step.** Without cancellation inside a callback, a transition keeps the
invariant. -/
theorem Lifecycle.step (hfit : cfg.Fits) {s t : Snapshot cfg σ} (ht : Transition allowed s t)
    (hc : ¬Cancelled t.2.log) (h : Lifecycle s) : Lifecycle t := by
  have hq : Quiet s.2.log s.2.log := GrowsBy.refl s.2.log
  have hmono := ht.log_mono
  cases ht with
  | app st w a => exact h.frame ⟨rfl, rfl, rfl, rfl⟩ hq (.inl rfl)
  | nested st w k c _ => exact h.frame ⟨rfl, rfl, rfl, rfl⟩ (hq.concat rfl) (.inl rfl)
  | send st w d g hd => exact h.send hfit hd
  | feed st w data => exact h.frame ⟨rfl, rfl, rfl, rfl⟩ hq (.inl rfl)
  | tick st w ms =>
    obtain ⟨n, hn⟩ := atTick_eq ms w.eng
    rw [hn]
    exact h.frame ⟨rfl, rfl, rfl, rfl⟩ hq (.inl rfl)
  | register st w pre cb user r g hr =>
    obtain ⟨table, rfl⟩ := atRegisterUrc_eq hr
    exact h.frame ⟨rfl, rfl, rfl, rfl⟩ hq (.inl rfl)
  | deregister st w pre r g hr =>
    obtain ⟨table, rfl⟩ := atDeregisterUrc_eq hr
    exact h.frame ⟨rfl, rfl, rfl, rfl⟩ hq (.inl rfl)
  | traceHook w hook => exact h.frame ⟨rfl, rfl, rfl, rfl⟩ hq (.inl rfl)
  | deinit w => exact h.frame ⟨rfl, rfl, rfl, rfl⟩ hq (.inr ⟨rfl, .inl rfl⟩)
  | pop w b rx _ => exact h.frame ⟨rfl, rfl, rfl, rfl⟩ hq (.inl rfl)
  | byte w b g hb =>
    obtain ⟨line, lfsm, rfl⟩ := lfsmByte_eq hb
    exact h.frame ⟨rfl, rfl, rfl, rfl⟩ hq (.inl rfl)
  | lineDone w => exact h.frame ⟨rfl, rfl, rfl, rfl⟩ hq (.inl rfl)
  | echo w l _ => exact h.frame ⟨rfl, rfl, rfl, rfl⟩ (hq.concat rfl) (.inl rfl)
  | promptIgnored w l _ _ _ => exact h.frame ⟨rfl, rfl, rfl, rfl⟩ (hq.concat rfl) (.inl rfl)
  | promptAnswered w l env _ hp _ =>
    have hactive : w.eng.state ≠ .idle := by simp [isPrompt_waiting hp]
    have heng := answerPrompt_eng env (w.eng.queue w.eng.qTail) (w.emit (.line (.prompt true) l))
    have hlog := (hq.concat rfl).trans (answerPrompt_growsBy (fun _ _ _ => rfl) (fun _ => rfl)
      env (w.eng.queue w.eng.qTail) (w.emit (.line (.prompt true) l)))
    exact h.frame (by rw [heng]; exact ⟨rfl, rfl, rfl, rfl⟩) hlog (.inr ⟨rfl, .inr (h.queue.active hactive)⟩)
  | final w l r _ _ _ _ => exact h.frame ⟨rfl, rfl, rfl, rfl⟩ (hq.concat rfl) (.inl rfl)
  | urc w l i _ _ _ _ =>
    exact h.frame ⟨rfl, rfl, rfl, rfl⟩ ((hq.concat rfl).concat rfl) (.inl rfl)
  | accumulate w l _ _ _ _ _ =>
    obtain ⟨pool, response, heng⟩ := accumulate_eng l w
    exact h.frame (by rw [heng]; exact ⟨rfl, rfl, rfl, rfl⟩) (accumulate_quiet l w)
      (.inl (by rw [heng]))
  | transmit w env _ h0 =>
    exact h.frame (by rw [transmit_eng]; exact ⟨rfl, rfl, rfl, rfl⟩) (transmit_quiet env w)
      (.inr ⟨rfl, .inr h0⟩)
  | finalize st w status errCode hs _ hst =>
    cases st with
    | nil => exact h.finalize hs
    | cons => exact absurd ((hst (by simp)).mono hmono) hc
  | dequeue st w i e => exact (h.dequeue hfit).2
  | drain st w hidle hst =>
    cases st with
    | cons => exact absurd (hst (by simp)) hc
    | nil =>
      obtain ⟨notified, rfl, hrun⟩ := h.replay
      have hstate : w.eng.state = .idle := by
        rcases hidle with hidle | h0
        · exact hidle
        · by_contra hne
          have := h.queue.active hne
          dsimp only at this
          omega
      exact ⟨h.queue, ⟨false, ⟨hstate, rfl⟩, hrun⟩⟩
  | drainNotify st w h0 =>
    cases st with
    | nil => exact h.drainNotify h0
    | cons =>
      obtain ⟨_, hst, -⟩ := h.replay
      exact absurd hst (by simp [StackOk])
  | drainNext st w e => exact (h.drainNext hfit).2
  | reset st w h0 =>
    cases st with
    | nil =>
      obtain ⟨notified, ⟨-, rfl⟩, hrun⟩ := h.replay
      exact ⟨⟨h.queue.count_le, h.queue.head, fun hne => absurd rfl hne⟩, ⟨false, rfl, hrun⟩⟩
    | cons =>
      obtain ⟨_, hst, -⟩ := h.replay
      exact absurd hst (by simp [StackOk])

/-- `at_init` establishes the invariant. -/
theorem Lifecycle.init (s : σ) : Lifecycle (([], ⟨atInit cfg, s, []⟩) : Snapshot cfg σ) where
  queue := ⟨Nat.zero_le _, (Circular.slot_zero _).symm, fun h => absurd rfl h⟩
  replay := ⟨false, rfl, rfl⟩

/-- **Run.** The invariant holds after all transitions, as long as no completion
callback has cancelled anything. -/
theorem Steps.lifecycle (hfit : cfg.Fits) {s : σ} {t : Snapshot cfg σ}
    (h : Steps allowed ([], ⟨atInit cfg, s, []⟩) t) (hc : ¬Cancelled t.2.log) : Lifecycle t := by
  refine h.invariant (I := fun t => ¬Cancelled t.2.log → Lifecycle t) (fun s t ht ih hct => ?_)
    (fun _ => Lifecycle.init s) hc
  exact Lifecycle.step hfit ht hct (ih fun hcs => hct (hcs.mono ht.log_mono))

theorem Reachable.lifecycle (hfit : cfg.Fits) {P : Env σ → TopCall → Prop} {w : World cfg σ}
    (h : Reachable P w) (hc : ¬Cancelled w.log) : Lifecycle ([], w) := by
  obtain ⟨s, hs⟩ := h.steps_any
  exact hs.lifecycle hfit hc

/-- Hooks whose calls are harmless cancel nothing. -/
theorem Steps.not_cancelled_of
    (hallowed : ∀ k c s, allowed k c → ¬Harmful (Event.nested k c s : Event cfg)) {s : σ}
    {t : Snapshot cfg σ} (h : Steps allowed ([], ⟨atInit cfg, s, []⟩) t) : ¬Cancelled t.2.log := by
  have hcalls := h.nested_allowed (by simp)
  rintro ⟨ev, hmem, hharm⟩
  match ev, hharm with
  | .nested .completion .reset st, hharm => exact hallowed _ _ st (hcalls _ _ st hmem) hharm
  | .nested .completion .abort st, hharm => exact hallowed _ _ st (hcalls _ _ st hmem) hharm

theorem Reachable.not_cancelled_of
    (hallowed : ∀ k c s, allowed k c → ¬Harmful (Event.nested k c s : Event cfg))
    {P : Env σ → TopCall → Prop} (hP : ∀ env call, P env call → env.Respects allowed)
    {w : World cfg σ} (h : Reachable P w) : ¬Cancelled w.log := by
  obtain ⟨s, hs⟩ := h.steps hP
  exact hs.not_cancelled_of hallowed

end LibAt
