import LibAt.Discipline
import LibAt.Exchange

/-!
# Half-duplex on the wire

What the modem sees, and in what order the application hears of it. `wire` is
the part of the log made of writes, callbacks, and the ends of commands. In a
run whose hooks cancel nothing it is a sequence of blocks, one for each command
in the order of acceptance (`Block`): a command is transmitted, its prompts are
answered, and then it completes, before anything of the next one is written. The
block of an active command is open at the end (`Sent`).
-/

namespace LibAt

variable {cfg : Config} {σ : Type}

/-! ## Blocks -/

/-- Writes, callbacks, and the ends of commands. -/
def Event.onWire : Event cfg → Bool
  | .write .. | .fired .. | .completed _ => true
  | _ => false

/-- The part of a log that concerns the wire. -/
def wire (log : List (Event cfg)) : List (Event cfg) := log.filter Event.onWire

/-- What has been written for a command that was started: the command with its
CR, and then its body with its Ctrl-Z for each prompt. The `Bool` says whether
everything went out whole; after a short write nothing follows. -/
inductive Sent (e : CmdEntry cfg) : Bool → List (Event cfg) → Prop
  | start {b evs} : SentPair false .cmd .cr e.cmd.bytes [13] b evs → Sent e b evs
  | answer {b evs evs'} : Sent e true evs →
      SentPair false .body .ctrlZ e.body.bytes [26] b evs' → Sent e b (evs ++ evs')

/-- Everything about one command: its writes, its callback, its end. A drained
command has been told of the abort; one that was started is told of an error
on the wire exactly when its last write was short. -/
inductive Block (e : CmdEntry cfg) : List (Event cfg) → Prop
  | drained : Block e (e.notice abortedResponse ++ [.completed e])
  | ended {b evs r} : Sent e b evs → (b = false ↔ r.status = .errIo) →
      Block e (evs ++ e.notice r ++ [.completed e])

/-- The wire carried a block for each completed command, and then `cur`. -/
def Carried (log cur : List (Event cfg)) : Prop :=
  ∃ blocks, List.Forall₂ Block (completions log) blocks ∧ wire log = blocks.flatten ++ cur

theorem wire_append (log evs : List (Event cfg)) : wire (log ++ evs) = wire log ++ wire evs :=
  List.filter_append _ _

/-- Log entries that end no command extend what is carried behind the blocks. -/
theorem Carried.append {log cur evs : List (Event cfg)} (h : Carried log cur)
    (hevs : completions evs = []) : Carried (log ++ evs) (cur ++ wire evs) := by
  obtain ⟨blocks, hblocks, hwire⟩ := h
  refine ⟨blocks, ?_, ?_⟩
  · rw [completions_append, hevs, List.append_nil]
    exact hblocks
  · rw [wire_append, hwire, List.append_assoc]

/-- Log entries that do not concern the wire change nothing. -/
theorem Carried.growsBy {log log' cur : List (Event cfg)} (h : Carried log cur)
    (hlog : GrowsBy (fun ev => ev.onWire = false) log log') : Carried log' cur := by
  obtain ⟨evs, rfl, hevs⟩ := hlog
  have hwire : wire evs = [] := List.filter_eq_nil_iff.mpr fun ev hev => by simp [hevs ev hev]
  have hcompleted : completions evs = [] := by
    refine List.filterMap_eq_nil_iff.mpr fun ev hev => ?_
    have := hevs ev hev
    cases ev <;> first | rfl | cases this
  simpa [hwire] using h.append hcompleted

/-- The end of a command closes its block. -/
theorem Carried.completed {log cur : List (Event cfg)} {e : CmdEntry cfg} (h : Carried log cur)
    (he : Block e (cur ++ [.completed e])) : Carried (log ++ [.completed e]) [] := by
  obtain ⟨blocks, hblocks, hwire⟩ := h
  refine ⟨blocks ++ [cur ++ [.completed e]], ?_, ?_⟩
  · rw [completions_append]
    exact List.rel_append hblocks (.cons he .nil)
  · rw [wire_append, hwire, List.flatten_append, List.flatten_singleton, List.append_nil,
      List.append_assoc]
    rfl

/-! ## What is written -/

/-- A pair of writes on the wire. -/
theorem SentPair.wire {hook b : Bool} {site₁ site₂ : WriteSite} {data term : List UInt8}
    {evs : List (Event cfg)} (h : SentPair hook site₁ site₂ data term b evs) :
    SentPair false site₁ site₂ data term b (wire evs) ∧ completions evs = [] := by
  cases h with
  | shortData n hn => exact ⟨.shortData n hn, rfl⟩
  | shortTerm n hn => exact ⟨.shortTerm n hn, rfl⟩
  | sent => cases hook <;> exact ⟨.sent, rfl⟩

theorem wire_notice (e : CmdEntry cfg) (r : Response) : wire (e.notice r) = e.notice r := by
  rw [CmdEntry.notice]
  cases e.cb <;> rfl

theorem completions_notice (e : CmdEntry cfg) (r : Response) : completions (e.notice r) = [] := by
  rw [CmdEntry.notice]
  cases e.cb <;> rfl

/-- A command transmitted behind the blocks. -/
theorem Carried.transmit {w : World cfg σ} (h : Carried w.log []) (env : Env σ) :
    ∃ cur, Carried (transmit env w).2.log cur ∧
      Sent (w.eng.queue w.eng.qTail) (transmit env w).1 cur := by
  obtain ⟨evs, hsent, hlog⟩ := transmit_sent env w
  obtain ⟨hpair, hcompleted⟩ := hsent.wire
  have hstart : completions (.start (w.eng.queue w.eng.qTail) :: evs) = [] := hcompleted
  rw [hlog]
  exact ⟨_, h.append hstart, .start hpair⟩

/-- A prompt answered behind what was written. -/
theorem Carried.answerPrompt {w : World cfg σ} {cur : List (Event cfg)} {e : CmdEntry cfg}
    (h : Carried w.log cur) (he : Sent e true cur) (env : Env σ) :
    ∃ cur', Carried (answerPrompt env e w).2.log cur' ∧ Sent e (answerPrompt env e w).1 cur' := by
  obtain ⟨evs, hsent, hlog⟩ := answerPrompt_sent env e w
  obtain ⟨hpair, hcompleted⟩ := hsent.wire
  rw [hlog]
  exact ⟨_, h.append hcompleted, .answer he hpair⟩

/-- A notification behind what was written. -/
theorem Carried.fire {w : World cfg σ} {cur : List (Event cfg)} (h : Carried w.log cur)
    (e : CmdEntry cfg) (r : Response) : Carried (w.fire e r).log (cur ++ e.notice r) := by
  have happend := h.append (completions_notice e r)
  rw [wire_notice] at happend
  rw [World.fire_log]
  exact happend

theorem Edit.log {w w' : World cfg σ} (h : Edit w w') :
    GrowsBy (fun ev => ev.onWire = false) w.log w'.log := by
  cases h with
  | nested | send => exact (GrowsBy.refl _).concat rfl
  | _ => exact .refl _

theorem Receive.log {w w' : World cfg σ} (h : Receive w w') :
    GrowsBy (fun ev => ev.onWire = false) w.log w'.log := by
  cases h with
  | echo | ignored => exact (GrowsBy.refl _).concat rfl
  | urc l i => exact ⟨[.line .urc l, .urc _ _ l], List.append_assoc _ _ _, by simp [Event.onWire]⟩
  | accumulate l =>
    rw [accumulate_log]
    exact (GrowsBy.refl _).concat rfl
  | _ => exact .refl _

/-- The modem cannot make a write fail. -/
theorem engineIsFinal_ne_io {l : List UInt8} {s : AtResult} {c : Int}
    (h : engineIsFinal l = some (s, c)) : s ≠ .errIo := by
  rw [engineIsFinal] at h
  repeat' split at h
  all_goals first
    | (obtain ⟨rfl, -⟩ := Prod.mk.inj (Option.some.inj h); decide)
    | cases h

/-! ## The discipline -/

/-- Between two commands the wire is free; while one is waited for, its block is
open. -/
def WireRest (w : World cfg σ) : Prop :=
  QueueOk w.eng ∧ ∃ cur, Carried w.log cur ∧
    (w.eng.state = .idle ∧ cur = [] ∨
      w.eng.state = .waiting ∧ Sent (w.eng.queue w.eng.qTail) true cur)

/-- A command's block can be closed. -/
def Closing (e : CmdEntry cfg) (log : List (Event cfg)) : Prop :=
  ∃ cur, Carried log cur ∧ Block e (cur ++ [.completed e])

theorem Closing.growsBy {e : CmdEntry cfg} {log log' : List (Event cfg)} (h : Closing e log)
    (hlog : GrowsBy (fun ev => ev.onWire = false) log log') : Closing e log' := by
  obtain ⟨cur, hcur, hblock⟩ := h
  exact ⟨cur, hcur.growsBy hlog, hblock⟩

theorem WireRest.congr {w w' : World cfg σ} (h : WireRest w) (hq : SameQueue w.eng w'.eng)
    (hs : w'.eng.state = w.eng.state) (hlog : GrowsBy (fun ev => ev.onWire = false) w.log w'.log) :
    WireRest w' := by
  obtain ⟨hqueue, cur, hcur, hstate⟩ := h
  refine ⟨hqueue.congr hq (hs ▸ hqueue.active), cur, hcur.growsBy hlog, ?_⟩
  rw [hs, hq.queue, hq.qTail]
  exact hstate

/-- What has been written for the command that is waited for. -/
theorem WireRest.waiting {w : World cfg σ} (h : WireRest w) (hs : w.eng.state = .waiting) :
    ∃ cur, Carried w.log cur ∧ Sent (w.eng.queue w.eng.qTail) true cur := by
  obtain ⟨-, cur, hcur, ⟨hidle, -⟩ | ⟨-, hsent⟩⟩ := h
  · rw [hs] at hidle
    cases hidle
  · exact ⟨cur, hcur, hsent⟩

theorem WireRest.idle {w : World cfg σ} (h : WireRest w) (hs : w.eng.state = .idle) :
    Carried w.log [] := by
  obtain ⟨-, cur, hcur, ⟨-, rfl⟩ | ⟨hwaiting, -⟩⟩ := h
  · exact hcur
  · rw [hs] at hwaiting
    cases hwaiting

theorem wireRest_init (s : σ) : WireRest ⟨atInit cfg, s, []⟩ :=
  ⟨⟨Nat.zero_le _, (Circular.slot_zero _).symm, absurd rfl⟩, [], ⟨[], .nil, rfl⟩, .inl ⟨rfl, rfl⟩⟩

/-- The wire as a discipline: a block is opened by the transmission and closed by
the completion. -/
def wireDiscipline (hfit : cfg.Fits) : Discipline cfg σ where
  rest := WireRest
  ending s w := QueueOk w.eng ∧ 0 < w.eng.qCount ∧
    ∃ b cur, Carried w.log cur ∧ Sent (w.eng.queue w.eng.qTail) b cur ∧ (b = false ↔ s = .errIo)
  finalizing _ e w := QueueOk w.eng ∧ 0 < w.eng.qCount ∧ Closing e w.log
  notifying e w := QueueOk w.eng ∧ w.eng.state = .idle ∧ 0 < w.eng.qCount ∧ Closing e w.log
  ok _ := True
  rest_ok _ := trivial
  finalizing_ok _ := trivial
  notifying_ok _ := trivial
  rest_edit w w' h he := by
    obtain ⟨hqueue, hu⟩ := he.queue hfit h.1
    obtain ⟨hqueue₀, cur, hcur, hstate⟩ := h
    refine ⟨hqueue, cur, hcur.growsBy he.log, ?_⟩
    rcases hstate with ⟨hs, rfl⟩ | ⟨hs, hsent⟩
    · exact .inl ⟨hu.state.trans hs, rfl⟩
    · refine .inr ⟨hu.state.trans hs, ?_⟩
      rw [hu.qTail, hu.oldest (hqueue₀.active (by simp [hs]))]
      exact hsent
  finalizing_edit i e w w' h he := by
    obtain ⟨hqueue, hu⟩ := he.queue hfit h.1
    exact ⟨hqueue, h.2.1.trans_le hu.count_le, h.2.2.growsBy he.log⟩
  notifying_edit e w w' h he := by
    obtain ⟨hqueue, hu⟩ := he.queue hfit h.1
    exact ⟨hqueue, hu.state.trans h.2.1, h.2.2.1.trans_le hu.count_le, h.2.2.2.growsBy he.log⟩
  active h := h.1.active
  traceHook w hook h := h.congr ⟨rfl, rfl, rfl, rfl⟩ rfl (.refl _)
  receive w w' h hr := h.congr hr.queue.1 hr.queue.2 hr.log
  answered env w w' l h hs ha := by
    obtain ⟨cur, hcur, hsent⟩ := h.waiting hs
    have hcur' : Carried (w.emit (.line (.prompt true) l)).log cur :=
      hcur.growsBy ((GrowsBy.refl _).concat rfl)
    obtain ⟨cur', hcur', hsent'⟩ := hcur'.answerPrompt hsent env
    have heng := answerPrompt_eng env (w.eng.queue w.eng.qTail) (w.emit (.line (.prompt true) l))
    rw [ha] at hcur' hsent' heng
    have hqueue : QueueOk w'.eng := by
      rw [heng]
      exact h.1.congr ⟨rfl, rfl, rfl, rfl⟩ fun _ => h.1.active (by simp [hs])
    refine ⟨hqueue, cur', hcur', .inr ?_⟩
    rw [heng]
    exact ⟨rfl, hsent'⟩
  failed env w w' l h hs ha := by
    obtain ⟨cur, hcur, hsent⟩ := h.waiting hs
    have hcur' : Carried (w.emit (.line (.prompt true) l)).log cur :=
      hcur.growsBy ((GrowsBy.refl _).concat rfl)
    obtain ⟨cur', hcur', hsent'⟩ := hcur'.answerPrompt hsent env
    have heng := answerPrompt_eng env (w.eng.queue w.eng.qTail) (w.emit (.line (.prompt true) l))
    rw [ha] at hcur' hsent' heng
    have h0 : 0 < w.eng.qCount := h.1.active (by simp [hs])
    rw [heng]
    exact ⟨h.1.congr ⟨rfl, rfl, rfl, rfl⟩ fun _ => h0, h0, false, cur', hcur', hsent', by simp⟩
  final w l s c h hs hfin := by
    obtain ⟨cur, hcur, hsent⟩ := h.waiting hs
    refine ⟨h.1, h.1.active (by simp [hs]), true, cur, ?_, hsent, ?_⟩
    · exact hcur.growsBy ((GrowsBy.refl _).concat rfl)
    · simpa using engineIsFinal_ne_io hfin
  transmitted env w w' h hs h0 ht := by
    obtain ⟨cur, hcur, hsent⟩ := (h.idle hs).transmit env
    have heng := transmit_eng env w
    rw [ht] at hcur hsent heng
    have hqueue : QueueOk w'.eng := by
      rw [heng]
      exact h.1.congr ⟨rfl, rfl, rfl, rfl⟩ fun _ => h0
    refine ⟨hqueue, cur, hcur, .inr ?_⟩
    rw [heng]
    exact ⟨rfl, hsent⟩
  unsent env w w' h hs h0 ht := by
    obtain ⟨cur, hcur, hsent⟩ := (h.idle hs).transmit env
    have heng := transmit_eng env w
    rw [ht] at hcur hsent heng
    rw [heng]
    exact ⟨h.1.congr ⟨rfl, rfl, rfl, rfl⟩ fun _ => h0, h0, false, cur, hcur, hsent, by simp⟩
  cancel w s h hs hcancel := by
    obtain ⟨hqueue, cur, hcur, ⟨hidle, -⟩ | ⟨-, hsent⟩⟩ := h
    · exact absurd hidle hs
    · refine ⟨hqueue, hqueue.active hs, true, cur, hcur, hsent, ?_⟩
      rcases hcancel with rfl | rfl <;> decide
  finalize w s c h := by
    obtain ⟨hqueue, h0, b, cur, hcur, hsent, hio⟩ := h
    have hfire := Carried.fire
      (w := w.putEng (setResponse (finalResponse s c w.eng) w.eng)) hcur
      (w.eng.queue w.eng.qTail) (finalResponse s c w.eng)
    rw [World.fire_eng]
    refine ⟨hqueue.congr ⟨rfl, rfl, rfl, rfl⟩ hqueue.active, h0, _, hfire, ?_⟩
    exact .ended hsent hio
  dequeue w i e h := by
    obtain ⟨hqueue, h0, cur, hcur, hblock⟩ := h
    exact ⟨hqueue.advance hfit h0 rfl rfl rfl rfl, [], hcur.completed hblock, .inl ⟨rfl, rfl⟩⟩
  drainNotify w h hs h0 := by
    have hfire := (h.idle hs).fire (w.eng.queue w.eng.qTail) abortedResponse
    rw [World.fire_eng]
    exact ⟨h.1, hs, h0, _, hfire, .drained⟩
  drainNext w e h := by
    obtain ⟨hqueue, hs, h0, cur, hcur, hblock⟩ := h
    exact ⟨⟨hqueue.advance hfit h0 rfl rfl rfl hs, [], hcur.completed hblock, .inl ⟨hs, rfl⟩⟩, hs⟩
  reset w h hs _ :=
    ⟨h.1.congr ⟨rfl, rfl, rfl, rfl⟩ (absurd rfl), [], h.idle hs, .inl ⟨rfl, rfl⟩⟩
  deinit w h hs _ :=
    ⟨h.1.congr ⟨rfl, rfl, rfl, rfl⟩ (absurd rfl), [], h.idle hs, .inl ⟨rfl, rfl⟩⟩

/-- The wire carried the blocks of the completed commands, and that of the
active command as far as it got; commands complete in the order of acceptance,
and the active one is the next. -/
structure HalfDuplex (w : World cfg σ) : Prop where
  order : (acceptances w.log).map (cmdEntryOf cfg) = completions w.log ++ w.eng.pending
  blocks : ∃ blocks cur, List.Forall₂ Block (completions w.log) blocks ∧
    wire w.log = blocks.flatten ++ cur ∧
    (w.eng.state = .idle ∧ cur = [] ∨
      w.eng.state = .waiting ∧ ∃ e rest, w.eng.pending = e :: rest ∧ Sent e true cur)

/-- **Half-duplex.** In every run whose callbacks and handlers cancel nothing,
the writes and callbacks are one block for each command, in the order of
acceptance: nothing of a command is written before the previous one has
completed or after its own completion, and a short write is followed by the
callback with `AT_ERR_IO`. -/
theorem half_duplex (hfit : cfg.Fits) {w : World cfg σ}
    (h : Reachable (fun env _ => env.Respects NotCancelling) w) : HalfDuplex w := by
  have hlife := h.lifecycle hfit (h.notCancelled fun _ _ henv => henv)
  obtain ⟨hqueue, cur, ⟨blocks, hblocks, hwire⟩, hstate⟩ :=
    (wireDiscipline (σ := σ) hfit).reachable (fun _ _ henv => henv) wireRest_init h
  refine ⟨?_, blocks, cur, hblocks, hwire, ?_⟩
  · obtain ⟨_, -, hrun⟩ := hlife.replay
    have horder := FifoService.accepted_eq hrun
    rw [accepted_history, retired_history] at horder
    exact horder
  · rcases hstate with hidle | ⟨hs, hsent⟩
    · exact .inl hidle
    · obtain ⟨rest, hpend⟩ := Engine.pending_eq_cons (hqueue.active (by simp [hs]))
      exact .inr ⟨hs, _, rest, hpend, hsent⟩

/-- A message whose prompt is answered, and the command behind it. -/
theorem half_duplex_message : ∃ w : World Config.default Unit,
    (wire w.log).map (fun | .write site _ _ => some site | _ => none) =
      [some .cmd, some .cr, some .body, some .ctrlZ, none, none, some .cmd, some .cr] ∧
    HalfDuplex w := by
  obtain ⟨w, hw, hp⟩ := Reachable.of_execAll (P := fun env _ => env.Respects NotCancelling)
    plainEnv 16
    [.api (.send (some message)), .api (.send (some probe)), .process,
      .api (.feed (ascii ">\r OK\r\n")), .process]
    () (fun _ => plainEnv_respects _)
    (fun w : World Config.default Unit =>
      decide ((wire w.log).map (fun | .write site _ _ => some site | _ => none) =
        [some .cmd, some .cr, some .body, some .ctrlZ, none, none, some .cmd, some .cr]))
    (by decide +kernel)
  exact ⟨w, of_decide_eq_true hp, half_duplex Config.default_fits hw⟩

end LibAt
