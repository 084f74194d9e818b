import LibAt.Interrupts

/-!
# Nobody waits longer than agreed

When `at_process` is called at least every `M` milliseconds, a command that is transmitted
waits for its timeout and then at most `M` longer, and the one behind it is transmitted at
once. So a command in the queue is completed within the sum of these times, for itself and
for those ahead of it, whatever the modem sends, whatever writes fail, whenever interrupts
come, and whatever the application and its callbacks do meanwhile. Only an answered prompt
gives more time.

A `Pledge` says which commands are owed and how much time has gone by; what may still be
spent on them is at most what is left of the bound (`Pledge.Due`), in every place where
control can be (`Pledge.discipline`).
-/

namespace LibAt

variable {cfg : Config} {σ : Type}

/-! ## Time -/

/-- How many prompts have been answered. -/
def promptsAnswered (log : List (Event cfg)) : Nat := log.countP Event.answers

/-- An entry that neither ends a command nor answers a prompt. -/
def Event.calm : Event cfg → Bool
  | .completed _ | .line (.prompt true) _ => false
  | _ => true

theorem calm_spec {log log' : List (Event cfg)} (h : GrowsBy (fun ev => ev.calm) log log') :
    completions log' = completions log ∧ promptsAnswered log' = promptsAnswered log := by
  obtain ⟨evs, rfl, hevs⟩ := h
  have hcompleted : completions evs = [] := by
    refine List.filterMap_eq_nil_iff.mpr fun ev hev => ?_
    have := hevs ev hev
    cases ev <;> first | rfl | cases this
  have hanswers : evs.countP Event.answers = 0 := by
    refine List.countP_eq_zero.mpr fun ev hev hans => ?_
    have := hevs ev hev
    unfold Event.answers at hans
    split at hans
    · cases this
    · cases hans
  rw [completions_append, hcompleted, List.append_nil, promptsAnswered, List.countP_append, hanswers]
  exact ⟨rfl, rfl⟩

/-- The time that goes by with an interrupt. -/
def Interrupt.time : Interrupt → Nat
  | .feed _ => 0
  | .tick ms => ms

/-- The time that goes by with some interrupts. -/
def time (is : List Interrupt) : Nat := (is.map Interrupt.time).sum

theorem time_append (is js : List Interrupt) : time (is ++ js) = time is + time js := by
  rw [time, List.map_append, List.sum_append]
  rfl

/-- The time a command may take from its transmission, if it may go unnoticed for `M`
that its time is up. -/
def CmdEntry.span (M : Nat) (e : CmdEntry cfg) : Nat := e.timeoutMs + M

/-- The time some commands may take one after the other. -/
def spans (M : Nat) (es : List (CmdEntry cfg)) : Nat := (es.map (CmdEntry.span M)).sum

@[simp] theorem spans_nil (M : Nat) : spans M ([] : List (CmdEntry cfg)) = 0 := rfl

@[simp] theorem spans_cons (M : Nat) (e : CmdEntry cfg) (es : List (CmdEntry cfg)) :
    spans M (e :: es) = e.timeoutMs + M + spans M es := rfl

/-! ## What hooks and bytes do -/

theorem Edit.calm {w w' : World cfg σ} (h : Edit w w') :
    GrowsBy (fun ev => ev.calm) w.log w'.log := by
  cases h with
  | nested | send => exact (GrowsBy.refl _).concat rfl
  | _ => exact .refl _

/-- A hook puts commands behind those in the queue. -/
theorem Edit.pending {w w' : World cfg σ} (hfit : cfg.Fits) (hqueue : QueueOk w.eng)
    (h : Edit w w') : ∃ more, w'.eng.pending = w.eng.pending ++ more := by
  have hsame (hq : SameQueue w.eng w'.eng) : ∃ more, w'.eng.pending = w.eng.pending ++ more :=
    ⟨[], by rw [hq.pending, List.append_nil]⟩
  cases h with
  | app | nested | feed => exact hsame ⟨rfl, rfl, rfl, rfl⟩
  | send d g hd => exact ⟨_, pending_send hfit hqueue hd⟩
  | tick ms =>
    obtain ⟨n, hn⟩ := atTick_eq ms w.eng
    refine hsame ?_
    rw [World.putEng_eng, hn]
    exact ⟨rfl, rfl, rfl, rfl⟩
  | register pre cb user r g hr =>
    obtain ⟨table, rfl⟩ := atRegisterUrc_eq hr
    exact hsame ⟨rfl, rfl, rfl, rfl⟩
  | deregister pre r g hr =>
    obtain ⟨table, rfl⟩ := atDeregisterUrc_eq hr
    exact hsame ⟨rfl, rfl, rfl, rfl⟩

theorem Receive.calm {w w' : World cfg σ} (h : Receive w w') :
    GrowsBy (fun ev => ev.calm) w.log w'.log ∧ w'.eng.timerMs = w.eng.timerMs := by
  have hrefl : GrowsBy (fun ev : Event cfg => ev.calm) w.log w.log := .refl _
  cases h with
  | pop | lineDone => exact ⟨.refl _, rfl⟩
  | byte b g hb =>
    obtain ⟨line, lfsm, rfl⟩ := lfsmByte_eq hb
    exact ⟨.refl _, rfl⟩
  | echo | ignored => exact ⟨hrefl.concat rfl, rfl⟩
  | urc l i => exact ⟨(hrefl.concat rfl).concat rfl, rfl⟩
  | accumulate l =>
    obtain ⟨pool, response, heng⟩ := accumulate_eng l w
    rw [accumulate_log, heng]
    refine ⟨hrefl.concat ?_, rfl⟩
    split <;> rfl

theorem transmit_growsBy_calm (env : Env σ) (w : World cfg σ) :
    GrowsBy (fun ev => ev.calm) w.log (transmit env w).2.log := by
  obtain ⟨evs, hsent, hlog⟩ := transmit_sent env w
  exact ⟨_, hlog, List.forall_mem_cons.mpr
    ⟨rfl, hsent.forall (fun _ _ => rfl) (fun _ _ => rfl) fun _ => rfl⟩⟩

/-- An answered prompt is counted. -/
theorem answerPrompt_prompts (env : Env σ) (e : CmdEntry cfg) (l : List UInt8) (w : World cfg σ) :
    completions (answerPrompt env e (w.emit (.line (.prompt true) l))).2.log =
        completions w.log ∧
      promptsAnswered (answerPrompt env e (w.emit (.line (.prompt true) l))).2.log =
        promptsAnswered w.log + 1 := by
  obtain ⟨hcomp, hprompts⟩ := calm_spec (answerPrompt_growsBy (p := fun ev => ev.calm)
    (fun _ _ _ => rfl) (fun _ => rfl) env e (w.emit (.line (.prompt true) l)))
  rw [hcomp, hprompts, World.emit_log, completions_append, promptsAnswered, List.countP_append]
  exact ⟨List.append_nil _, rfl⟩

/-- A notification ends nothing yet. -/
theorem fire_calm (e : CmdEntry cfg) (r : Response) (w : World cfg σ) :
    GrowsBy (fun ev => ev.calm) w.log (w.fire e r).log := by
  rw [World.fire_log]
  refine ⟨_, rfl, ?_⟩
  rw [CmdEntry.notice]
  split <;> simp [Event.calm]

theorem prompts_completed (log : List (Event cfg)) (e : CmdEntry cfg) :
    promptsAnswered (log ++ [.completed e]) = promptsAnswered log := by
  rw [promptsAnswered, List.countP_append]
  rfl

/-! ## Pledges -/

/-- Commands that are owed, and what time has gone by. -/
structure Pledge (cfg : Config) where
  /-- what had been completed before -/
  before : List (CmdEntry cfg)
  /-- how many prompts had been answered before -/
  answered : Nat
  /-- the commands -/
  owed : List (CmdEntry cfg)
  /-- the longest time between two calls of `at_process` -/
  period : Nat
  /-- the time that was promised -/
  bound : Nat
  /-- the time that has gone by -/
  elapsed : Nat
  /-- the part of it since the last `at_process` -/
  since : Nat

namespace Pledge

variable (P : Pledge cfg)

/-- The time until the next `at_process`. -/
def slack : Nat := P.period - P.since

/-- The time an answered prompt buys. -/
def extra : Nat := cfg.promptTimeoutMs + P.period

/-- How long the oldest command may take from now on. -/
def head (g : Engine cfg) (e : CmdEntry cfg) : Nat :=
  if g.state = .idle then P.slack + e.span P.period
  else if g.timerMs = 0 then P.slack
  else g.timerMs + P.period

/-- The commands have been completed, or some are left in the queue and there is time
for them, with `head` for the oldest. -/
inductive Due (head : CmdEntry cfg → Nat) (w : World cfg σ) : Prop
  | paid : P.before ++ P.owed <+: completions w.log → Due head w
  | owes (done : List (CmdEntry cfg)) (e : CmdEntry cfg) (left new : List (CmdEntry cfg)) :
      P.owed = done ++ e :: left → w.eng.pending = e :: (left ++ new) →
      completions w.log = P.before ++ done →
      head e + spans P.period left + P.elapsed + P.answered * P.extra ≤
        P.bound + promptsAnswered w.log * P.extra →
      Due head w

variable {P}

/-- Commands may come behind, and what the oldest one may take may shrink, or grow by what
prompts buy. -/
theorem Due.mono {head head' : CmdEntry cfg → Nat} {w w' : World cfg σ} (h : P.Due head w)
    (hpend : ∃ more, w'.eng.pending = w.eng.pending ++ more)
    (hcomp : completions w'.log = completions w.log)
    (hhead : ∀ e rest, w.eng.pending = e :: rest →
      head' e + promptsAnswered w.log * P.extra ≤ head e + promptsAnswered w'.log * P.extra) :
    P.Due head' w' := by
  cases h with
  | paid hpaid => exact .paid (hcomp ▸ hpaid)
  | owes done e left new howed hqueue hdone htime =>
    obtain ⟨more, hmore⟩ := hpend
    have hle := hhead e _ hqueue
    refine .owes done e left (new ++ more) howed ?_ (hcomp.trans hdone) ?_
    · rw [hmore, hqueue, List.cons_append, List.append_assoc]
    · omega

theorem Due.weaken {head head' : CmdEntry cfg → Nat} {w : World cfg σ} (h : P.Due head w)
    (hle : ∀ e, head' e ≤ head e) : P.Due head' w :=
  h.mono ⟨[], (List.append_nil _).symm⟩ rfl fun e _ _ => Nat.add_le_add_right (hle e) _

/-- Nothing that matters has been logged. -/
theorem Due.calm {head head' : CmdEntry cfg → Nat} {w w' : World cfg σ} (h : P.Due head w)
    (hq : SameQueue w.eng w'.eng) (hlog : GrowsBy (fun ev => ev.calm) w.log w'.log)
    (hhead : ∀ e rest, w.eng.pending = e :: rest → head' e ≤ head e) : P.Due head' w' := by
  obtain ⟨hcomp, hprompts⟩ := calm_spec hlog
  refine h.mono ⟨[], by rw [hq.pending, List.append_nil]⟩ hcomp fun e rest hpend => ?_
  rw [hprompts]
  exact Nat.add_le_add_right (hhead e rest hpend) _

/-- The oldest command is completed. -/
theorem Due.next {w w' : World cfg σ} {e : CmdEntry cfg} (h : P.Due (fun _ => P.slack) w)
    (hpend : w.eng.pending = e :: w'.eng.pending)
    (hcomp : completions w'.log = completions w.log ++ [e])
    (hprompts : promptsAnswered w'.log = promptsAnswered w.log) (hidle : w'.eng.state = .idle) :
    P.Due (P.head w'.eng) w' := by
  cases h with
  | paid hpaid => exact .paid (hpaid.trans (hcomp ▸ List.prefix_append _ _))
  | owes done e' left new howed hqueue hdone htime =>
    obtain ⟨rfl, hrest⟩ := List.cons.inj (hpend.symm.trans hqueue)
    have hdone' : completions w'.log = P.before ++ (done ++ [e]) := by
      rw [hcomp, hdone, List.append_assoc]
    cases left with
    | nil =>
      have hall : completions w'.log = P.before ++ P.owed := by rw [hdone', howed]
      exact .paid (hall ▸ List.prefix_rfl)
    | cons e₁ left =>
      refine .owes (done ++ [e]) e₁ left new (by simp [howed]) hrest hdone' ?_
      rw [head, if_pos hidle, hprompts, CmdEntry.span]
      rw [spans_cons] at htime
      omega

/-- With an empty queue nothing is owed. -/
theorem Due.of_empty {head head' : CmdEntry cfg → Nat} {w w' : World cfg σ} (h : P.Due head w)
    (h0 : w.eng.qCount = 0) (hlog : w'.log = w.log) : P.Due head' w' := by
  cases h with
  | paid hpaid => exact .paid (hlog ▸ hpaid)
  | owes done e left new _ hqueue _ _ =>
    rw [Engine.pending, h0, Circular.window_zero] at hqueue
    cases hqueue

/-! ## Places -/

/-- Between calls. -/
def Rest (P : Pledge cfg) (w : World cfg σ) : Prop :=
  QueueOk w.eng ∧ (w.eng.state = .idle ∨ w.eng.state = .waiting) ∧ P.Due (P.head w.eng) w

/-- The oldest command is about to be completed. -/
def Ending (P : Pledge cfg) (w : World cfg σ) : Prop :=
  QueueOk w.eng ∧ 0 < w.eng.qCount ∧ P.Due (fun _ => P.slack) w

/-- What is left of the countdown of the oldest command is not needed for the others. -/
theorem slack_le_head (P : Pledge cfg) (g : Engine cfg) (e : CmdEntry cfg) :
    P.slack ≤ P.head g e := by
  rw [head, slack]
  split
  · omega
  · split <;> omega

/-- Completing it takes no longer than waiting for it. -/
theorem Due.ending {w w' : World cfg σ} (h : P.Due (P.head w.eng) w)
    (hq : SameQueue w.eng w'.eng) (hlog : GrowsBy (fun ev => ev.calm) w.log w'.log) :
    P.Due (fun _ => P.slack) w' :=
  h.calm hq hlog fun e _ _ => P.slack_le_head w.eng e

/-- Time that goes by leaves less to wait. -/
theorem head_atTick (P : Pledge cfg) (ms : Nat) (g : Engine cfg) (e : CmdEntry cfg) :
    P.head (atTick ms g) e ≤ P.head g e := by
  rw [atTick]
  split
  · rename_i hs
    have hne : g.state ≠ .idle := by rcases hs with hs | hs <;> simp [hs]
    rw [head, head, if_neg hne, if_neg (show ¬_ from hne), slack]
    dsimp only
    split_ifs <;> omega
  · exact Nat.le_refl _

theorem head_edit {w w' : World cfg σ} (P : Pledge cfg) (h : Edit w w') (e : CmdEntry cfg) :
    P.head w'.eng e ≤ P.head w.eng e := by
  cases h with
  | app | nested | feed => exact Nat.le_refl _
  | send d g hd =>
    obtain ⟨-, -, rfl⟩ := atSend_ok hd
    exact Nat.le_refl _
  | tick ms => exact P.head_atTick ms w.eng e
  | register pre cb user r g hr =>
    obtain ⟨table, rfl⟩ := atRegisterUrc_eq hr
    exact Nat.le_refl _
  | deregister pre r g hr =>
    obtain ⟨table, rfl⟩ := atDeregisterUrc_eq hr
    exact Nat.le_refl _

/-- **A hook takes no time from the commands.** -/
theorem Due.edit {head head' : CmdEntry cfg → Nat} {w w' : World cfg σ} (hfit : cfg.Fits)
    (h : P.Due head w) (hqueue : QueueOk w.eng) (he : Edit w w') (hhead : ∀ e, head' e ≤ head e) :
    P.Due head' w' := by
  obtain ⟨hcomp, hprompts⟩ := calm_spec (Edit.calm he)
  refine h.mono (Edit.pending hfit hqueue he) hcomp fun e _ _ => ?_
  rw [hprompts]
  exact Nat.add_le_add_right (hhead e) _

/-- The same pledge, after an `at_process`. -/
def passed (P : Pledge cfg) : Pledge cfg := { P with since := 0 }

/-- The same pledge, when `ms` more have gone by. -/
def later (P : Pledge cfg) (ms : Nat) : Pledge cfg :=
  { P with elapsed := P.elapsed + ms, since := P.since + ms }

theorem later_later (P : Pledge cfg) (a b : Nat) : (P.later a).later b = P.later (a + b) := by
  rw [later, later, later, Nat.add_assoc, Nat.add_assoc]

theorem Due.passed {head : CmdEntry cfg → Nat} {w : World cfg σ} (h : P.Due head w) :
    P.passed.Due head w := by
  cases h with
  | paid hpaid => exact .paid hpaid
  | owes done e left new howed hqueue hdone htime =>
    exact .owes done e left new howed hqueue hdone htime

theorem slack_le (P : Pledge cfg) : P.slack ≤ P.period := Nat.sub_le _ _

/-- The head depends on the state and the timer only. -/
theorem head_congr {g g' : Engine cfg} (P : Pledge cfg) (hs : g'.state = g.state)
    (ht : g'.timerMs = g.timerMs) : P.head g' = P.head g := by
  funext e
  rw [head, head, hs, ht]

/-- An idle engine has time for the whole of the next command. -/
theorem head_idle (P : Pledge cfg) {g : Engine cfg} (hs : g.state = .idle) (e : CmdEntry cfg) :
    P.head g e = P.slack + (e.timeoutMs + P.period) := if_pos hs

/-- A command that is waited for takes at most its countdown and a period. -/
theorem head_waiting_le (P : Pledge cfg) {g : Engine cfg} (hs : g.state ≠ .idle)
    (e : CmdEntry cfg) : P.head g e ≤ g.timerMs + P.period := by
  rw [head, if_neg hs, slack]
  split <;> omega

/-- **A command is transmitted** within the time for it. -/
theorem Due.started {env : Env σ} {w w' : World cfg σ} (h : P.Due (P.head w.eng) w)
    (hs : w.eng.state = .idle) (h0 : 0 < w.eng.qCount) (ht : transmit env w = (true, w')) :
    w'.eng.state = .waiting ∧ P.Due (fun _ => w'.eng.timerMs + P.period) w' := by
  have heng := transmit_eng env w
  have hlog := transmit_growsBy_calm env w
  rw [ht] at heng hlog
  refine ⟨by rw [heng]; rfl, ?_⟩
  refine h.calm (by rw [heng]; exact ⟨rfl, rfl, rfl, rfl⟩) hlog fun e rest hpend => ?_
  obtain ⟨rest', hrest⟩ := Engine.pending_eq_cons h0
  obtain ⟨rfl, -⟩ := List.cons.inj (hpend.symm.trans hrest)
  have htimer : w'.eng.timerMs = (w.eng.queue w.eng.qTail).timeoutMs := by rw [heng]; rfl
  rw [P.head_idle hs]
  omega

/-- Or it cannot be written, and is completed at once. -/
theorem Due.unsent {env : Env σ} {w w' : World cfg σ} (h : P.Due (P.head w.eng) w)
    (hs : w.eng.state = .idle) (ht : transmit env w = (false, w')) :
    P.Due (fun _ => P.period) w' := by
  have heng := transmit_eng env w
  have hlog := transmit_growsBy_calm env w
  rw [ht] at heng hlog
  refine h.calm (by rw [heng]; exact ⟨rfl, rfl, rfl, rfl⟩) hlog fun e _ _ => ?_
  rw [P.head_idle hs]
  omega

/-- **A prompt is answered**: the countdown starts again, and the prompt pays for it. -/
theorem Due.answered {env : Env σ} {b : Bool} {l : List UInt8} {w w' : World cfg σ}
    (h : P.Due (P.head w.eng) w)
    (ha : answerPrompt env (w.eng.queue w.eng.qTail) (w.emit (.line (.prompt true) l)) = (b, w'))
    {head' : CmdEntry cfg → Nat} (hhead : ∀ e, head' e ≤ cfg.promptTimeoutMs + P.period) :
    P.Due head' w' := by
  have heng := answerPrompt_eng env (w.eng.queue w.eng.qTail) (w.emit (.line (.prompt true) l))
  obtain ⟨hcomp, hprompts⟩ := answerPrompt_prompts env (w.eng.queue w.eng.qTail) l w
  rw [ha] at heng hcomp hprompts
  have hq : SameQueue w.eng w'.eng := by rw [heng]; exact ⟨rfl, rfl, rfl, rfl⟩
  refine h.mono ⟨[], by rw [hq.pending, List.append_nil]⟩ hcomp fun e _ _ => ?_
  have hle : head' e ≤ P.extra := hhead e
  rw [hprompts, Nat.succ_mul]
  omega

/-! ## The discipline -/

theorem Rest.congr {w w' : World cfg σ} (h : P.Rest w) (hq : SameQueue w.eng w'.eng)
    (hs : w'.eng.state = w.eng.state) (ht : w'.eng.timerMs = w.eng.timerMs)
    (hlog : GrowsBy (fun ev => ev.calm) w.log w'.log) : P.Rest w' := by
  obtain ⟨hqueue, hrest, hdue⟩ := h
  refine ⟨hqueue.congr hq (hs ▸ hqueue.active), hs ▸ hrest, ?_⟩
  rw [P.head_congr hs ht]
  exact hdue.calm hq hlog fun _ _ _ => Nat.le_refl _

/-- Its callback is called. -/
theorem Ending.fire {w : World cfg σ} (h : P.Ending w) (e : CmdEntry cfg) (r : Response) :
    P.Ending (w.fire e r) := by
  obtain ⟨hqueue, h0, hdue⟩ := h
  have hlog := fire_calm e r w
  have hq : SameQueue w.eng (w.fire e r).eng := by
    rw [World.fire_eng]
    exact ⟨rfl, rfl, rfl, rfl⟩
  refine ⟨?_, ?_, hdue.calm hq hlog fun _ _ _ => Nat.le_refl _⟩
  · rw [World.fire_eng]
    exact hqueue
  · rw [World.fire_eng]
    exact h0

/-- The promise as a discipline. -/
def discipline (hfit : cfg.Fits) (P : Pledge cfg) : Discipline cfg σ where
  rest := P.Rest
  ending _ := P.Ending
  finalizing i e w := i = w.eng.qTail ∧ e = w.eng.queue w.eng.qTail ∧ P.Ending w
  notifying e w := e = w.eng.queue w.eng.qTail ∧ w.eng.state = .idle ∧ P.Ending w
  ok _ := True
  rest_ok _ := trivial
  finalizing_ok _ := trivial
  notifying_ok _ := trivial
  rest_edit w w' h he := by
    obtain ⟨hqueue, hu⟩ := he.queue hfit h.1
    exact ⟨hqueue, hu.state ▸ h.2.1, h.2.2.edit hfit h.1 he (P.head_edit he)⟩
  finalizing_edit i e w w' h he := by
    obtain ⟨rfl, rfl, hqueue, h0, hdue⟩ := h
    obtain ⟨hqueue', hu⟩ := he.queue hfit hqueue
    exact ⟨hu.qTail.symm, by rw [hu.qTail, hu.oldest h0], hqueue', h0.trans_le hu.count_le,
      hdue.edit hfit hqueue he fun _ => Nat.le_refl _⟩
  notifying_edit e w w' h he := by
    obtain ⟨rfl, hs, hqueue, h0, hdue⟩ := h
    obtain ⟨hqueue', hu⟩ := he.queue hfit hqueue
    exact ⟨by rw [hu.qTail, hu.oldest h0], hu.state.trans hs, hqueue', h0.trans_le hu.count_le,
      hdue.edit hfit hqueue he fun _ => Nat.le_refl _⟩
  active h := h.1.active
  traceHook w hook h := h.congr ⟨rfl, rfl, rfl, rfl⟩ rfl rfl (.refl _)
  receive w w' h hr := h.congr hr.queue.1 hr.queue.2 hr.calm.2 hr.calm.1
  answered env w w' l h hs ha := by
    have heng := answerPrompt_eng env (w.eng.queue w.eng.qTail) (w.emit (.line (.prompt true) l))
    rw [ha] at heng
    have hwaiting : w'.eng.state = .waiting := by rw [heng]; rfl
    have htimer : w'.eng.timerMs = cfg.promptTimeoutMs := by rw [heng]
    refine ⟨h.1.congr (by rw [heng]; exact ⟨rfl, rfl, rfl, rfl⟩) fun _ => h.1.active (by simp [hs]),
      .inr hwaiting, h.2.2.answered ha fun e => ?_⟩
    rw [← htimer]
    exact P.head_waiting_le (by simp [hwaiting]) e
  failed env w w' l h hs ha := by
    have heng := answerPrompt_eng env (w.eng.queue w.eng.qTail) (w.emit (.line (.prompt true) l))
    rw [ha] at heng
    have h0 : 0 < w.eng.qCount := h.1.active (by simp [hs])
    refine ⟨h.1.congr (by rw [heng]; exact ⟨rfl, rfl, rfl, rfl⟩) fun _ => h0, by rwa [heng],
      h.2.2.answered ha fun _ => ?_⟩
    exact P.slack_le.trans (Nat.le_add_left _ _)
  final w l s c h hs _ := ⟨h.1, h.1.active (by simp [hs]),
    h.2.2.ending ⟨rfl, rfl, rfl, rfl⟩ ((GrowsBy.refl _).concat rfl)⟩
  transmitted env w w' h hs h0 ht := by
    have heng := transmit_eng env w
    rw [ht] at heng
    obtain ⟨hwaiting, hdue⟩ := h.2.2.started hs h0 ht
    exact ⟨h.1.congr (by rw [heng]; exact ⟨rfl, rfl, rfl, rfl⟩) fun _ => h0, .inr hwaiting,
      hdue.weaken (P.head_waiting_le (by simp [hwaiting]))⟩
  unsent env w w' h hs h0 ht := by
    have heng := transmit_eng env w
    rw [ht] at heng
    exact ⟨h.1.congr (by rw [heng]; exact ⟨rfl, rfl, rfl, rfl⟩) fun _ => h0, by rw [heng]; exact h0,
      (h.2.2.unsent hs ht).weaken fun _ => P.slack_le⟩
  cancel w s h hs _ := ⟨h.1, h.1.active hs, h.2.2.ending ⟨rfl, rfl, rfl, rfl⟩ (.refl _)⟩
  finalize w s c h := by
    have hset : P.Ending (w.putEng (setResponse (finalResponse s c w.eng) w.eng)) :=
      ⟨h.1.congr ⟨rfl, rfl, rfl, rfl⟩ h.1.active, h.2.1,
        h.2.2.calm ⟨rfl, rfl, rfl, rfl⟩ (.refl _) fun _ _ _ => Nat.le_refl _⟩
    exact ⟨by rw [World.fire_eng]; rfl, by rw [World.fire_eng]; rfl, hset.fire _ _⟩
  dequeue w i e h := by
    obtain ⟨rfl, rfl, hqueue, h0, hdue⟩ := h
    refine ⟨hqueue.advance hfit h0 rfl rfl rfl rfl, .inl rfl, ?_⟩
    exact hdue.next (pending_dequeue hfit hqueue h0) (completions_append _ _)
      (prompts_completed _ _) rfl
  drainNotify w h hs h0 := by
    have hending : P.Ending w :=
      ⟨h.1, h0, h.2.2.ending ⟨rfl, rfl, rfl, rfl⟩ (.refl _)⟩
    exact ⟨by rw [World.fire_eng], by rw [World.fire_eng]; exact hs, hending.fire _ _⟩
  drainNext w e h := by
    obtain ⟨rfl, hs, hqueue, h0, hdue⟩ := h
    refine ⟨⟨hqueue.advance hfit h0 rfl rfl rfl hs, .inl hs, ?_⟩, hs⟩
    exact hdue.next (pending_drainNext hfit hqueue h0) (completions_append _ _)
      (prompts_completed _ _) hs
  reset w h hs h0 :=
    ⟨h.1.congr ⟨rfl, rfl, rfl, rfl⟩ (absurd rfl), .inl rfl, h.2.2.of_empty h0 rfl⟩
  deinit w h hs h0 :=
    ⟨h.1.congr ⟨rfl, rfl, rfl, rfl⟩ (absurd rfl), .inl rfl, h.2.2.of_empty h0 rfl⟩

/-! ## A call of `at_process` -/

/-- Behind the check of the countdown the engine is idle, or has time. -/
theorem Rest.checkTimeout (hfit : cfg.Fits)
    {invoke invoke' : Invocation → World cfg σ → Option (World cfg σ)}
    (hinv : Follow (fun _ => True) invoke invoke') {w w' : World cfg σ} (h : P.Rest w)
    (hx : checkTimeout invoke w = some w') :
    P.Rest w' ∧ (w'.eng.state ≠ .idle → w'.eng.timerMs ≠ 0) := by
  rw [LibAt.checkTimeout] at hx
  split at hx
  · rename_i hs
    have hne : w.eng.state ≠ .idle := by rcases hs.1 with hs | hs <;> simp [hs]
    obtain ⟨-, hrest, hidle⟩ := (discipline hfit P).engineFinalize hinv
      ((discipline hfit P).cancel w .errTimeout h hne (.inl rfl)) hx
    exact ⟨hrest, absurd hidle⟩
  · rename_i hs
    obtain rfl := Option.some.inj hx
    refine ⟨h, fun hne h0 => hs ⟨?_, h0⟩⟩
    exact .inl (h.2.1.resolve_left hne)

/-- While the countdown runs it does not matter when `at_process` is called next, -/
theorem Rest.running {w : World cfg σ} (h : P.Rest w) (hne : w.eng.state ≠ .idle)
    (htime : w.eng.timerMs ≠ 0) : P.passed.Rest w := by
  refine ⟨h.1, h.2.1, h.2.2.passed.weaken fun e => ?_⟩
  rw [head, head, if_neg hne, if_neg hne, if_neg htime, if_neg htime]
  exact Nat.le_refl _

/-- and it may be called earlier. -/
theorem Rest.sooner {w : World cfg σ} (h : P.Rest w) {s : Nat} (hs : P.since ≤ s) :
    Rest { P with since := s } w := by
  obtain ⟨hqueue, hrest, hdue⟩ := h
  refine ⟨hqueue, hrest, ?_⟩
  have hhead (e : CmdEntry cfg) : head { P with since := s } w.eng e ≤ P.head w.eng e := by
    rw [head, head, slack, slack]
    dsimp only
    split
    · omega
    · split <;> omega
  cases hdue with
  | paid hpaid => exact .paid hpaid
  | owes done e left new howed hpend hdone htime =>
    refine .owes done e left new howed hpend hdone ?_
    have hle := hhead e
    change _ + spans P.period left + P.elapsed + P.answered * P.extra ≤
      P.bound + promptsAnswered w.log * P.extra
    omega

/-- What the start of the next command leaves: all of the period is ahead. -/
theorem Rest.startIfIdle (hfit : cfg.Fits) {env : Env σ}
    {invoke invoke' : Invocation → World cfg σ → Option (World cfg σ)}
    (hinv : Follow (fun _ => True) invoke invoke') {w w' : World cfg σ} (h : P.Rest w)
    (hidle : w.eng.state = .idle) (hx : startIfIdle invoke env w = some w') :
    P.passed.Rest w' := by
  rw [LibAt.startIfIdle] at hx
  split at hx
  · rename_i hs
    have h0 : 0 < w.eng.qCount := hs.2
    have heng := transmit_eng env w
    rw [engineStartNext] at hx
    rcases ht : transmit env w with ⟨_ | _, v⟩ <;> rw [ht] at hx heng
    · have hending : P.passed.Ending v := by
        refine ⟨h.1.congr (by rw [heng]; exact ⟨rfl, rfl, rfl, rfl⟩) fun _ => h0,
          by rw [heng]; exact h0, ?_⟩
        exact (h.2.2.unsent hidle ht).passed.weaken fun _ => P.passed.slack_le
      exact ((discipline hfit P.passed).engineFinalize hinv hending hx).2.1
    · obtain rfl := Option.some.inj hx
      obtain ⟨hwaiting, hdue⟩ := h.2.2.started hidle h0 ht
      refine ⟨h.1.congr (by rw [heng]; exact ⟨rfl, rfl, rfl, rfl⟩) fun _ => h0, .inr hwaiting, ?_⟩
      exact hdue.passed.weaken (P.passed.head_waiting_le (by simp [hwaiting]))
  · rename_i hs
    obtain rfl := Option.some.inj hx
    have h0 : w.eng.qCount = 0 := Nat.eq_zero_of_not_pos fun h0 => hs ⟨hidle, h0⟩
    exact ⟨h.1, h.2.1, h.2.2.passed.of_empty h0 rfl⟩

/-- What a tick takes from the oldest command is at least what goes by. -/
theorem head_tick (P : Pledge cfg) {ms : Nat} (hms : P.since + ms ≤ P.period) {g : Engine cfg}
    (hs : g.state = .idle ∨ g.state = .waiting) (e : CmdEntry cfg) :
    (P.later ms).head (atTick ms g) e + ms ≤ P.head g e := by
  rcases hs with hs | hs
  · have hidle : atTick ms g = g := if_neg (by simp [hs])
    rw [hidle, head_idle _ hs, head_idle _ hs]
    dsimp only [slack, later]
    omega
  · have hwait : (atTick ms g).timerMs = if g.timerMs ≤ ms then 0 else g.timerMs - ms := by
      rw [atTick, if_pos (.inl hs)]
    have hstate : (atTick ms g).state = .waiting := by
      obtain ⟨n, hn⟩ := atTick_eq ms g
      rw [hn]
      exact hs
    have hne : g.state ≠ .idle := by simp [hs]
    have hne' : (atTick ms g).state ≠ .idle := by simp [hstate]
    by_cases hle : g.timerMs ≤ ms
    · rw [if_pos hle] at hwait
      rw [head, if_neg hne', if_pos hwait, head, if_neg hne]
      dsimp only [slack, later]
      split <;> omega
    · rw [if_neg hle] at hwait
      have hleft : (atTick ms g).timerMs ≠ 0 := by omega
      rw [head, if_neg hne', if_neg hleft, hwait, head, if_neg hne, if_neg (by omega)]
      dsimp only [later]
      omega

/-- **A tick** takes time from the commands, no less than goes by. -/
theorem Rest.tick {w : World cfg σ} (h : P.Rest w) {ms : Nat} (hms : P.since + ms ≤ P.period) :
    (P.later ms).Rest (w.putEng (atTick ms w.eng)) := by
  obtain ⟨hqueue, hrest, hdue⟩ := h
  obtain ⟨n, hn⟩ := atTick_eq ms w.eng
  have hq : SameQueue w.eng (atTick ms w.eng) := by rw [hn]; exact ⟨rfl, rfl, rfl, rfl⟩
  have hs : (atTick ms w.eng).state = w.eng.state := by rw [hn]
  refine ⟨hqueue.congr hq (hs ▸ hqueue.active), hs ▸ hrest, ?_⟩
  cases hdue with
  | paid hpaid => exact .paid hpaid
  | owes done e left new howed hpend hdone htime =>
    refine .owes done e left new howed (hq.pending.trans hpend) hdone ?_
    have hhead := P.head_tick hms hrest e
    change _ + spans P.period left + (P.elapsed + ms) + P.answered * P.extra ≤
      P.bound + promptsAnswered w.log * P.extra
    rw [World.putEng_eng]
    omega

/-! ## Interrupts -/

/-- **Interrupts** take no more time than their ticks say. -/
theorem Rest.interrupted (hfit : cfg.Fits) (is : List Interrupt) : ∀ {P : Pledge cfg}
    {w : World cfg σ}, P.Rest w → P.since + time is ≤ P.period →
      (P.later (time is)).Rest (w.interrupted is) := by
  induction is with
  | nil => exact fun h _ => h
  | cons i is ih =>
    intro P w h hms
    cases i with
    | feed data =>
      have htime : time (.feed data :: is) = time is := Nat.zero_add _
      rw [htime] at hms ⊢
      exact ih ((discipline hfit P).rest_edit w _ h (.feed w data)) hms
    | tick ms =>
      have htime : time (.tick ms :: is) = ms + time is := rfl
      rw [htime] at hms ⊢
      rw [← later_later]
      refine ih (h.tick (by omega)) ?_
      change P.since + ms + time is ≤ P.period
      omega

theorem Rest.drainRxIsr (hfit : cfg.Fits) {env : Env σ}
    {invoke invoke' : Invocation → World cfg σ → Option (World cfg σ)}
    (hinv : Follow (fun _ => True) invoke invoke') (fuel : Nat) : ∀ {P : Pledge cfg}
      {points : List (List Interrupt)} {w w' : World cfg σ}, P.Rest w →
      P.since + time points.flatten ≤ P.period →
      drainRxIsr invoke env fuel points w = some w' → (P.later (time points.flatten)).Rest w' := by
  induction fuel with
  | zero => intro P points w w' _ _ h; cases h
  | succ fuel ih =>
    intro P points w w' h hms hx
    have hall : time points.flatten = time (points.headD []) + time points.tail.flatten := by
      cases points with
      | nil => rfl
      | cons is points => exact time_append is points.flatten
    obtain ⟨-, rfl⟩ | ⟨b, rx, v, hp, hb, hv⟩ := drainRxIsr_cases hx
    · exact h.interrupted hfit _ hms
    · have hhead := h.interrupted hfit (points.headD []) (by omega)
      have hround := ((discipline hfit (P.later (time (points.headD [])))).processByte hinv
        ((discipline hfit _).receive _ _ hhead (.pop _ b rx hp)) hb).2
      rw [hall, ← later_later]
      refine ih hround ?_ hv
      change P.since + time (points.headD []) + time points.tail.flatten ≤ P.period
      omega

theorem interrupted_state (is : List Interrupt) : ∀ w : World cfg σ,
    (w.interrupted is).eng.state = w.eng.state := by
  induction is with
  | nil => exact fun w => rfl
  | cons i is ih =>
    intro w
    rw [World.interrupted_cons, ih]
    cases i with
    | feed data => rfl
    | tick ms =>
      obtain ⟨n, hn⟩ := atTick_eq ms w.eng
      rw [Interrupt.serve, World.putEng_eng, hn]

/-- **An `at_process`** costs no more than the time that goes by meanwhile, and puts off the
next one. -/
theorem Rest.process (hfit : cfg.Fits) {env : Env σ} (henv : env.Respects NotCancelling)
    {fuel : Nat} {before : List (List Interrupt)} {between : List Interrupt} {w w' : World cfg σ}
    (h : P.Rest w) (hms : P.since + time before.flatten + time between ≤ P.period)
    (hx : atProcessIsr (invoke env fuel) env fuel before between w = some w') :
    ((P.later (time before.flatten)).passed.later (time between)).Rest w' := by
  obtain ⟨w₁, h₁, hx⟩ := Option.bind_eq_some_iff.mp hx
  obtain ⟨w₂, h₂, h₃⟩ := Option.bind_eq_some_iff.mp hx
  have hinv := invokeIf_follow henv (fun _ : Engine cfg => True) fuel
  have hdrain := Rest.drainRxIsr hfit hinv fuel h (by omega) h₁
  obtain ⟨hrest, htime⟩ := hdrain.checkTimeout hfit hinv h₂
  have hstate := interrupted_state between w₂
  change LibAt.startIfIdle (invoke env fuel) env (w₂.interrupted between) = some w' at h₃
  by_cases hidle : w₂.eng.state = .idle
  · have hbetween := hrest.interrupted hfit between hms
    have hstart := hbetween.startIfIdle hfit hinv (hstate.trans hidle) h₃
    exact hstart.sooner (Nat.zero_le _)
  · rw [LibAt.startIfIdle, if_neg (by rw [hstate]; exact fun hs => hidle hs.1)] at h₃
    obtain rfl := Option.some.inj h₃
    refine (hrest.running hidle (htime hidle)).interrupted hfit between ?_
    change 0 + time between ≤ P.period
    omega

end Pledge

/-! ## Runs -/

/-- Two readings of the time. -/
structure Clock where
  /-- the time that has gone by -/
  elapsed : Nat
  /-- the part of it since the last `at_process` looked at the countdown -/
  since : Nat

/-- What a call does to the clock. -/
def Clock.after (c : Clock) : TopCall → Clock
  | .api (.tick ms) => ⟨c.elapsed + ms, c.since + ms⟩
  | _ => c

/-- The worlds that a run from `w` can come to, with the time it took, when nobody lets more
than `M` go by between two calls of `at_process`. The bytes that arrive, what writes return,
when interrupts come and what the application calls are arbitrary, and callbacks may do all
but abort and reset. -/
inductive Paced (M : Nat) (w : World cfg σ) : Clock → World cfg σ → Prop
  | start : Paced M w ⟨0, 0⟩ w
  /-- a call, for example of `at_tick` -/
  | call {c : Clock} {v v' : World cfg σ} {env : Env σ} {call : TopCall} {fuel : Nat} {r : ApiRet}
      (s : σ) : Paced M w c v → env.Respects NotCancelling → (c.after call).since ≤ M →
      exec env fuel call (v.putApp s) = some (r, v') → Paced M w (c.after call) v'
  /-- an `at_process`, with the interrupts that come meanwhile -/
  | process {c : Clock} {v v' : World cfg σ} {env : Env σ} {fuel : Nat}
      {before : List (List Interrupt)} {between : List Interrupt} (s : σ) : Paced M w c v →
      env.Respects NotCancelling → c.since + time before.flatten + time between ≤ M →
      atProcessIsr (invoke env fuel) env fuel before between (v.putApp s) = some v' →
      Paced M w ⟨c.elapsed + time before.flatten + time between, time between⟩ v'

/-- The time that the oldest commands in the queue are promised. -/
def promise (M : Nat) (g : Engine cfg) : List (CmdEntry cfg) → Nat
  | [] => 0
  | e :: left => (if g.state = .idle then M + e.timeoutMs else g.timerMs) + M + spans M left

/-- The pledge of a run. -/
def promised (M : Nat) (w : World cfg σ) (es : List (CmdEntry cfg)) (c : Clock) : Pledge cfg where
  before := completions w.log
  answered := promptsAnswered w.log
  owed := es
  period := M
  bound := promise M w.eng es
  elapsed := c.elapsed
  since := c.since

/-- Where the run begins. -/
theorem rest_start (hfit : cfg.Fits) {M : Nat} {I : World cfg σ → List Interrupt → Prop}
    {w : World cfg σ} (h : Preempted (fun env _ => env.Respects NotCancelling) I w)
    {es : List (CmdEntry cfg)} (hes : es <+: w.eng.pending) :
    (promised M w es ⟨0, 0⟩).Rest w := by
  obtain ⟨hqueue, cur, -, hstate⟩ :=
    (wireDiscipline (σ := σ) hfit).preempted (fun _ _ henv => henv) wireRest_init h
  refine ⟨hqueue, hstate.imp And.left And.left, ?_⟩
  obtain ⟨new, hnew⟩ := hes
  cases es with
  | nil => exact .paid (List.append_nil _ ▸ List.prefix_rfl)
  | cons e left =>
    refine .owes [] e left new rfl hnew.symm (List.append_nil _).symm ?_
    simp only [promised, promise, Pledge.head, Pledge.slack, Pledge.extra, CmdEntry.span]
    split_ifs <;> omega

/-- **A run keeps the promise.** -/
theorem Paced.rest (hfit : cfg.Fits) {M : Nat} {w w' : World cfg σ} {c : Clock}
    {es : List (CmdEntry cfg)} (hw : (promised M w es ⟨0, 0⟩).Rest w) (h : Paced M w c w') :
    (promised M w es c).Rest w' := by
  induction h with
  | start => exact hw
  | @call c v v' env call fuel r s _ henv hpace hx ih =>
    have hrest : (promised M w es c).Rest (v.putApp s) :=
      (Pledge.discipline hfit _).rest_edit v _ ih (.app _ s)
    by_cases htick : ∃ ms, call = .api (.tick ms)
    · obtain ⟨ms, rfl⟩ := htick
      obtain ⟨-, rfl⟩ := Prod.mk.inj (Option.some.inj hx)
      exact hrest.tick hpace
    · have hc : c.after call = c := by
        unfold Clock.after
        split
        · exact absurd ⟨_, rfl⟩ htick
        · rfl
      rw [hc]
      exact ((Pledge.discipline hfit _).exec henv hrest hx).1
  | @process c v v' env fuel before between s _ henv hpace hx ih =>
    have hrest : (promised M w es c).Rest (v.putApp s) :=
      (Pledge.discipline hfit _).rest_edit v _ ih (.app _ s)
    have hclock : ((promised M w es c).later (time before.flatten)).passed.later (time between) =
        promised M w es ⟨c.elapsed + time before.flatten + time between, time between⟩ := by
      simp [Pledge.later, Pledge.passed, promised]
    exact hclock ▸ hrest.process hfit henv hpace hx

/-- Calls of `at_process` that are all interrupted alike. -/
def roundsIsr (env : Env σ) (fuel : Nat) (before : List (List Interrupt))
    (between : List Interrupt) : Nat → World cfg σ → Option (World cfg σ)
  | 0, w => some w
  | n + 1, w => (atProcessIsr (invoke env fuel) env fuel before between w).bind
      (roundsIsr env fuel before between n)

theorem Paced.rounds {M : Nat} {w : World cfg σ} {env : Env σ}
    (henv : env.Respects NotCancelling) {fuel : Nat} {before : List (List Interrupt)}
    {between : List Interrupt} (hpace : time between + time before.flatten + time between ≤ M)
    (n : Nat) : ∀ {c : Clock} {v v' : World cfg σ}, Paced M w c v → c.since ≤ time between →
      roundsIsr env fuel before between n v = some v' →
      ∃ s, Paced M w ⟨c.elapsed + n * (time before.flatten + time between), s⟩ v' := by
  induction n with
  | zero =>
    intro c v v' h _ hx
    obtain rfl := Option.some.inj hx
    exact ⟨c.since, by rwa [Nat.zero_mul]⟩
  | succ n ih =>
    intro c v v' h hsince hx
    obtain ⟨v₁, h₁, hx⟩ := Option.bind_eq_some_iff.mp hx
    have hround := Paced.process v.app h henv (by omega) h₁
    obtain ⟨s, hs⟩ := ih hround (Nat.le_refl _) hx
    refine ⟨s, ?_⟩
    rw [Nat.succ_mul, show c.elapsed + (n * (time before.flatten + time between) +
      (time before.flatten + time between)) = c.elapsed + time before.flatten + time between +
        n * (time before.flatten + time between) by omega]
    exact hs

/-- The modem talks, but not to the point. -/
def chatter : List (List Interrupt) :=
  [[.feed (ascii "A"), .tick 2000], [.feed (ascii "B\r\n")], [], [.tick 2000]]

end LibAt
