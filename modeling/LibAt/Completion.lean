import LibAt.Reset

/-!
# Completion in order, exactly once

What `Lifecycle` means for the application. A log is `InOrder` when commands
complete in the order in which they were accepted, and each callback call is
the one notification of the command that completes next.
-/

namespace LibAt

variable {cfg : Config} {σ : Type} {env : Env σ}

/-- The log entry behind `P` is the notification of a command that is the
oldest one accepted and not completed, has not been notified before, and gets
its own user pointer and a final status. -/
structure NotifiesOldest (P : List (Event cfg)) (f u : Ptr) (r : Response) : Prop where
  status : FinalStatus r.status
  oldest : ∃ d, (acceptances P)[(completions P).length]? = some d ∧ d.cb = some f ∧ d.user = u
  first : firings P = (completions P).filterMap CmdEntry.note

/-- The commands complete in the order of acceptance, and callbacks are called
once each, in the same order. -/
structure InOrder (log : List (Event cfg)) : Prop where
  completions_le : ∀ P, P <+: log →
    completions P <+: (acceptances P).map (cmdEntryOf cfg)
  notifies : ∀ P f u r Q, log = P ++ .fired f u r :: Q → NotifiesOldest P f u r
  firings_eq : firings log = (completions log).filterMap CmdEntry.note

/-- Cut a legal history short. -/
theorem history_cut {P log : List (Event cfg)} (h : P <+: log)
    {s : FifoService.State (CmdEntry cfg)}
    (hrun : FifoService.run CmdEntry.note (history log) = some s) :
    ∃ s₀, FifoService.run CmdEntry.note (history P) = some s₀ := by
  obtain ⟨Q, rfl⟩ := h
  rw [history_append] at hrun
  exact FifoService.run_of_append hrun

theorem completions_le_of_run {log : List (Event cfg)} {s : FifoService.State (CmdEntry cfg)}
    (hrun : FifoService.run CmdEntry.note (history log) = some s) :
    completions log <+: (acceptances log).map (cmdEntryOf cfg) := by
  have h := FifoService.accepted_eq hrun
  rw [accepted_history, retired_history] at h
  exact h ▸ List.prefix_append _ _

/-- The notification the queue entry of a descriptor asks for. -/
theorem cmdEntryOf_note {d : CmdDesc} {f u : Ptr}
    (h : (cmdEntryOf cfg d).note = some (f, u)) : d.cb = some f ∧ d.user = u := by
  obtain ⟨f', hf, heq⟩ := Option.map_eq_some_iff.mp h
  obtain ⟨rfl, rfl⟩ := Prod.mk.inj heq
  exact ⟨hf, rfl⟩

theorem notifiesOldest_of_run {P Q : List (Event cfg)} {f u : Ptr} {r : Response}
    {s : FifoService.State (CmdEntry cfg)} (hr : FinalStatus r.status)
    (hrun : FifoService.run CmdEntry.note (history (P ++ .fired f u r :: Q)) = some s) :
    NotifiesOldest P f u r := by
  rw [history_append] at hrun
  obtain ⟨e, he, hnote, hfirst⟩ := FifoService.notify_spec hrun
  rw [accepted_history, retired_history, List.getElem?_map] at he
  obtain ⟨d, hd, rfl⟩ := Option.map_eq_some_iff.mp he
  rw [notified_history, retired_history] at hfirst
  exact ⟨hr, ⟨d, hd, cmdEntryOf_note hnote⟩, hfirst⟩

/-- Between API calls the invariant makes the log orderly. -/
theorem Lifecycle.inOrder {w : World cfg σ} (h : Lifecycle ([], w))
    (hstatus : ∀ f u r, .fired f u r ∈ w.log → FinalStatus r.status) : InOrder w.log where
  completions_le P hP := by
    obtain ⟨_, -, hrun⟩ := h.replay
    obtain ⟨_, hrun⟩ := history_cut hP hrun
    exact completions_le_of_run hrun
  notifies P f u r Q heq := by
    obtain ⟨_, -, hrun⟩ := h.replay
    have hmem : .fired f u r ∈ w.log := heq ▸ List.mem_append_right P List.mem_cons_self
    dsimp only at hrun
    rw [heq] at hrun
    exact notifiesOldest_of_run (hstatus f u r hmem) hrun
  firings_eq := by
    obtain ⟨_, rfl, hrun⟩ := h.replay
    have h := FifoService.notified_eq hrun
    rw [notified_history, retired_history] at h
    simpa [FifoService.inFlight] using h

/-- The queue holds what was accepted and not completed. -/
theorem Lifecycle.count {st : List (Frame cfg)} {w : World cfg σ} (h : Lifecycle (st, w)) :
    (acceptances w.log).length = (completions w.log).length + w.eng.qCount := by
  have h := congrArg List.length h.accepted_eq
  rw [List.length_map, List.length_append] at h
  simpa [Engine.pending] using h

theorem Reachable.fired_status {P : Env σ → TopCall → Prop} {w : World cfg σ}
    (h : Reachable P w) : ∀ f u r, .fired f u r ∈ w.log → FinalStatus r.status := by
  obtain ⟨s, hs⟩ := h.steps_any
  exact hs.fired_status (by simp)

/-! ## Hooks that send -/

/-- Hooks that only send cancel nothing. -/
theorem Reachable.not_cancelled {P : Env σ → TopCall → Prop}
    (hP : ∀ env call, P env call → env.Respects SendsOnly) {w : World cfg σ}
    (h : Reachable P w) : ¬Cancelled w.log := by
  refine h.not_cancelled_of (fun k c st hc hharm => ?_) hP
  match k, c, hharm with
  | .completion, .reset, _ => exact hc
  | .completion, .abort, _ => exact hc

/-- A call whose hooks only send, and do not send from inside `at_reset`. -/
def SendingCall (env : Env σ) (call : TopCall) : Prop :=
  env.Respects SendsOnly ∧ (call = .api .reset ∨ call = .deinit → SilentOnAbort env)

/-- Such a call returns. -/
theorem exec_returns (hfit : cfg.Fits) {call : TopCall} (h : SendingCall env call)
    {w : World cfg σ} (hw : w.eng.qCount < 256) :
    ∃ fuel r w', exec env fuel call w = some (r, w') := by
  obtain ⟨henv, hsilent⟩ := h
  cases call with
  | process =>
    obtain ⟨n, w', h⟩ := atProcess_returns hfit henv w
    exact ⟨n + 1, .unit, w', Option.map_eq_some_iff.mpr ⟨w', h, rfl⟩⟩
  | setTraceHook hook => exact ⟨0, _, _, rfl⟩
  | deinit =>
    obtain ⟨fuel, w', h⟩ := atReset_returns hfit (hsilent (.inr rfl)) hw
    exact ⟨fuel, _, _, Option.map_eq_some_iff.mpr ⟨w', h, rfl⟩⟩
  | api c =>
    cases c with
    | abort =>
      obtain ⟨w', h⟩ := atAbort_returns hfit henv w
      exact ⟨1, .unit, w', Option.map_eq_some_iff.mpr ⟨w', h 0, rfl⟩⟩
    | reset =>
      obtain ⟨fuel, w', h⟩ := atReset_returns hfit (hsilent (.inl rfl)) hw
      exact ⟨fuel, .unit, w', Option.map_eq_some_iff.mpr ⟨w', h, rfl⟩⟩
    | registerUrc pre cb user =>
      obtain ⟨r, h⟩ := atRegisterUrc_isSome hfit pre cb user w.eng
      exact ⟨0, _, _, Option.map_eq_some_iff.mpr ⟨r, h, rfl⟩⟩
    | deregisterUrc pre =>
      obtain ⟨r, h⟩ := atDeregisterUrc_isSome hfit pre w.eng
      exact ⟨0, _, _, Option.map_eq_some_iff.mpr ⟨r, h, rfl⟩⟩
    | send | feed | tick | state | queueDepth => exact ⟨0, _, _, rfl⟩

/-- **Exactly-once, in-order completion.** In a run whose callbacks and
handlers only send, commands complete in the order of acceptance, each callback
is called at most once, with its own user pointer and a final status, when
every earlier command has completed, and between API calls the queue depth is
the number of commands accepted minus the number completed. Each further call
returns. -/
theorem completes_in_order (hfit : cfg.Fits) {w : World cfg σ}
    (h : Reachable (fun env _ => env.Respects SendsOnly) w) :
    InOrder w.log ∧ (acceptances w.log).length = (completions w.log).length + w.eng.qCount ∧
      ∀ (env : Env σ) (call : TopCall), SendingCall env call →
        ∃ fuel r w', exec env fuel call w = some (r, w') := by
  have hlife := h.lifecycle hfit (h.not_cancelled fun _ _ henv => henv)
  exact ⟨hlife.inOrder h.fired_status, hlife.count,
    fun _ _ hrun => exec_returns hfit hrun h.count_lt⟩

/-- The callback sends `probe` again when its command succeeds. -/
def followUpEnv : Env Unit where
  write s data := (data.length, s)
  completion _ r _ s :=
    if r.status = .ok then .call (.send (some probe)) s fun _ s => .ret s else .ret s
  handler _ _ _ s := .ret s

theorem followUpEnv_sendsOnly : followUpEnv.Respects SendsOnly := by
  rintro (⟨f, r, u⟩ | ⟨f, l, u⟩) s
  · simp only [Env.hook, followUpEnv]
    split
    · exact ⟨trivial, fun _ _ => trivial⟩
    · trivial
  · trivial

theorem completes_in_order_followUp : ∃ w : World Config.default Unit,
    firings w.log = [(1, 7), (1, 7)] ∧ InOrder w.log ∧
      (acceptances w.log).length = (completions w.log).length + w.eng.qCount ∧
      ∀ (env : Env Unit) (call : TopCall), SendingCall env call →
        ∃ fuel r w', exec env fuel call w = some (r, w') := by
  obtain ⟨w, hw, hp⟩ := Reachable.of_execAll (P := fun env _ => env.Respects SendsOnly)
    followUpEnv 16
    [.api (.send (some probe)), .process, .api (.feed (ascii "OK\r\n")), .process, .api .reset]
    () (fun _ => followUpEnv_sendsOnly)
    (fun w : World Config.default Unit => decide (firings w.log = [(1, 7), (1, 7)])) (by decide +kernel)
  exact ⟨w, of_decide_eq_true hp, completes_in_order Config.default_fits hw⟩

/-! ## Hooks that cancel -/

/-- What must hold between API calls however commands were cancelled. -/
structure QueueSafe (w : World cfg σ) : Prop where
  /-- no command is notified twice -/
  inOrder : InOrder w.log
  /-- the queue depth counts the pending commands -/
  count : (acceptances w.log).length = (completions w.log).length + w.eng.qCount
  head : w.eng.qHead.val = (w.eng.qTail.val + w.eng.qCount) % cfg.cmdQueueDepth
  /-- there is room for every command up to the queue depth -/
  accepts : ∀ d : CmdDesc, cstr (d.cmd.getD []) ≠ [] →
    (acceptances w.log).length - (completions w.log).length < cfg.cmdQueueDepth →
    (atSend (some d) w.eng).1 = .ok

/-- **Cancelling.** Whatever callbacks and handlers do, the queue stays safe
as long as no completion callback calls `at_reset`, or `at_abort` while a
command is being waited for. Handlers may cancel at any time. -/
theorem queueSafe_of_not_cancelled (hfit : cfg.Fits) {w : World cfg σ}
    (h : Reachable (fun _ _ => True) w) (hc : ¬Cancelled w.log) : QueueSafe w := by
  have hlife := h.lifecycle hfit hc
  have hcount := hlife.count
  refine ⟨hlife.inOrder h.fired_status, hcount, congrArg Fin.val hlife.queue.head, ?_⟩
  intro d hd hlt
  have hroom : ¬cfg.cmdQueueDepth ≤ w.eng.qCount := by omega
  simp only [atSend, if_neg hd, if_neg hroom]

/-- A URC handler that aborts the active command. -/
def abortingHandler : Env Unit where
  write s data := (data.length, s)
  completion _ _ _ s := .ret s
  handler _ _ _ s := .call .abort s fun _ s => .ret s

theorem queueSafe_abortingHandler : ∃ w : World Config.default Unit,
    .nested .handler .abort .waiting ∈ w.log ∧ firings w.log = [(1, 7)] ∧ QueueSafe w := by
  obtain ⟨w, hw, hp⟩ := Reachable.of_execAll (P := fun _ _ => True) abortingHandler 16
    [.api (.registerUrc (some (ascii "+X")) (some 2) 0), .api (.send (some probe)),
      .process, .api (.feed (ascii "+X\r\n")), .process]
    () (fun _ => trivial)
    (fun w : World Config.default Unit => decide (.nested .handler .abort .waiting ∈ w.log ∧ firings w.log = [(1, 7)] ∧
      ¬Cancelled w.log)) (by decide +kernel)
  obtain ⟨hnested, hfired, hc⟩ := of_decide_eq_true hp
  exact ⟨w, hnested, hfired, queueSafe_of_not_cancelled Config.default_fits hw hc⟩

/-- A completion callback that aborts when its command succeeds. -/
def abortingCallback : Env Unit where
  write s data := (data.length, s)
  completion _ r _ s := if r.status = .ok then .call .abort s fun _ s => .ret s else .ret s
  handler _ _ _ s := .ret s

/-- One command, answered with `OK`, and the callback calls `at_abort`: the
callback runs a second time, the queue counter goes below zero, and `at_send`
refuses every command from then on. -/
theorem abort_in_callback : ∃ w : World Config.default Unit,
    Reachable (fun _ _ => True) w ∧ acceptances w.log = [probe] ∧
      firings w.log = [(1, 7), (1, 7)] ∧ w.eng.qCount = 255 ∧
      (atSend (some probe) w.eng).1 = .errBusy ∧ ¬QueueSafe w := by
  obtain ⟨w, hw, hp⟩ := Reachable.of_execAll (P := fun _ _ => True) abortingCallback 16
    [.api (.send (some probe)), .process, .api (.feed (ascii "OK\r\n")), .process]
    () (fun _ => trivial)
    (fun w : World Config.default Unit => decide (acceptances w.log = [probe] ∧ firings w.log = [(1, 7), (1, 7)] ∧
      w.eng.qCount = 255 ∧ (atSend (some probe) w.eng).1 = .errBusy)) (by decide +kernel)
  obtain ⟨hacc, hfired, hcount, hbusy⟩ := of_decide_eq_true hp
  refine ⟨w, hw, hacc, hfired, hcount, hbusy, fun hsafe => ?_⟩
  have h := hsafe.count
  rw [hacc, hcount] at h
  simp only [List.length_singleton] at h
  omega

end LibAt
