import Mathlib.Logic.Relation
import LibAt.Process

/-!
# The engine as a transition system

Everything a run can do, said once. A `Snapshot` is a world together with the
stack of activities the engine is in the middle of: completing a command,
draining the queue, notifying a drained command. `Transition` lists the
uninterrupted pieces of code between two calls of foreign code, each with the
guard under which the code gets there, and `exec_steps` shows that every API
call, with whatever hooks it runs into, is a sequence of them. An invariant of
all runs is then a case analysis over `Transition` (`Steps.invariant`).

A completion callback that cancels — calls `at_reset`, or `at_abort` while a
command is being waited for — starts completing a command inside the
completion of a command. Such calls leave a mark in the log (`Harmful`), and
the transitions that begin a completion on a non-empty stack ask for one.
`Emits` says what one transition can add to the log.
-/

namespace LibAt

variable {cfg : Config} {σ : Type}

/-! ## Snapshots -/

/-- What the engine is in the middle of.

* `finalizing slot e` — `engine_finalize` has read entry `e` at `slot` and not
  yet dequeued it;
* `draining` — `at_reset` is in its drain loop;
* `notifying e` — that loop has read entry `e` and not yet removed it. -/
inductive Frame (cfg : Config) where
  | finalizing (slot : Fin cfg.cmdQueueDepth) (e : CmdEntry cfg)
  | draining
  | notifying (e : CmdEntry cfg)

/-- The activities in progress, innermost first, and the world. -/
abbrev Snapshot (cfg : Config) (σ : Type) := List (Frame cfg) × World cfg σ

/-- A cancellation from inside a completion callback that finds something to
cancel. -/
def Harmful : Event cfg → Prop
  | .nested .completion .reset _ => True
  | .nested .completion .abort s => s = .waiting ∨ s = .prompt
  | _ => False

instance : DecidablePred (@Harmful cfg)
  | .nested .completion .reset _ => inferInstanceAs (Decidable True)
  | .nested .completion .abort s => inferInstanceAs (Decidable (s = .waiting ∨ s = .prompt))
  | .nested .completion (.send _) _ | .nested .completion (.feed _) _
  | .nested .completion (.tick _) _ | .nested .completion (.registerUrc ..) _
  | .nested .completion (.deregisterUrc _) _ | .nested .completion .state _
  | .nested .completion .queueDepth _ | .nested .handler _ _
  | .accepted _ | .start _ | .write .. | .trace _ | .line .. | .urc .. | .fired ..
  | .completed _ => inferInstanceAs (Decidable False)

/-- A harmful call has been made. -/
def Cancelled (log : List (Event cfg)) : Prop := ∃ ev ∈ log, Harmful ev

instance (log : List (Event cfg)) : Decidable (Cancelled log) :=
  inferInstanceAs (Decidable (∃ ev ∈ log, Harmful ev))

theorem Cancelled.mono {log log' : List (Event cfg)} (h : Cancelled log) (hle : log <+: log') :
    Cancelled log' := by
  obtain ⟨ev, hev, hh⟩ := h
  exact ⟨ev, hle.subset hev, hh⟩

/-- The statuses a callback can be given. -/
def FinalStatus (s : AtResult) : Prop :=
  s ∈ [AtResult.ok, .errCme, .errCms, .errGeneric, .errTimeout, .errAborted, .errIo]

instance (s : AtResult) : Decidable (FinalStatus s) := inferInstanceAs (Decidable (_ ∈ _))

/-- Where a dispatched line comes from: the line buffer, or the literal prompt
the FSM passes on. -/
def Dispatched (g : Engine cfg) (l : List UInt8) : Prop := l = g.line ∨ l = [62, 32]

/-- The log entry of a notification, if the command has a callback. -/
def World.fire (e : CmdEntry cfg) (r : Response) (w : World cfg σ) : World cfg σ :=
  match e.cb with
  | none => w
  | some f => w.emit (.fired f e.user r)

/-- The log entries of a notification. -/
def CmdEntry.notice (e : CmdEntry cfg) (r : Response) : List (Event cfg) :=
  match e.cb with
  | none => []
  | some f => [.fired f e.user r]

theorem World.fire_log (e : CmdEntry cfg) (r : Response) (w : World cfg σ) :
    (w.fire e r).log = w.log ++ e.notice r := by
  rw [World.fire, CmdEntry.notice]
  cases e.cb with
  | none => exact (List.append_nil _).symm
  | some f => rfl

/-- Advance the queue past its oldest entry, as the drain loop does. -/
def drainNext (g : Engine cfg) : Engine cfg :=
  { g with qTail := nextSlot g.qTail, qCount := (g.qCount + 255) % 256 }

/-! ## Transitions -/

/-- One uninterrupted piece of code. Hooks make the calls `allowed` to them. -/
inductive Transition (allowed : HookKind → ApiCall → Prop) :
    Snapshot cfg σ → Snapshot cfg σ → Prop
  /-- foreign code changes its own state -/
  | app (st w s) : Transition allowed (st, w) (st, w.putApp s)
  /-- a hook is about to call the API -/
  | nested (st) (w : World cfg σ) (k c) : allowed k c →
      Transition allowed (st, w) (st, w.emit (.nested k c w.eng.state))
  /-- `at_send` accepts a descriptor -/
  | send (st) (w : World cfg σ) (d g) : atSend (some d) w.eng = (.ok, g) →
      Transition allowed (st, w) (st, (w.putEng g).emit (.accepted d))
  /-- `at_feed` -/
  | feed (st) (w : World cfg σ) (data) :
      Transition allowed (st, w) (st, w.putEng (atFeed data w.eng))
  /-- `at_tick` -/
  | tick (st) (w : World cfg σ) (ms) :
      Transition allowed (st, w) (st, w.putEng (atTick ms w.eng))
  /-- `at_register_urc` -/
  | register (st) (w : World cfg σ) (pre cb user r g) :
      atRegisterUrc pre cb user w.eng = some (r, g) →
      Transition allowed (st, w) (st, w.putEng g)
  /-- `at_deregister_urc` -/
  | deregister (st) (w : World cfg σ) (pre r g) : atDeregisterUrc pre w.eng = some (r, g) →
      Transition allowed (st, w) (st, w.putEng g)
  /-- `at_set_trace_hook` -/
  | traceHook (w : World cfg σ) (hook) :
      Transition allowed ([], w) ([], w.putEng { w.eng with traceHook := hook })
  /-- the end of `at_deinit`, behind `at_reset` -/
  | deinit (w : World cfg σ) : w.eng.state = .idle →
      Transition allowed ([], w) ([], w.putEng (deinitState w.eng))
  /-- `at_process` takes a byte from the ring -/
  | pop (w : World cfg σ) (b rx) : rxringPop w.eng.rx = some (b, rx) →
      Transition allowed ([], w) ([], w.putEng { w.eng with rx := rx })
  /-- a byte moves the line FSM -/
  | byte (w : World cfg σ) (b g) : lfsmByte b w.eng = .more g →
      Transition allowed ([], w) ([], w.putEng g)
  /-- a line has been dealt with -/
  | lineDone (w : World cfg σ) : Transition allowed ([], w) ([], lineDone w)
  /-- a line is the echo -/
  | echo (w : World cfg σ) (l) : isEcho w.eng l →
      Transition allowed ([], w)
        ([], (w.putEng { w.eng with echoArmed := false }).emit (.line .echo l))
  /-- a prompt for a command without a body to send -/
  | promptIgnored (w : World cfg σ) (l) : isEcho w.eng l = false → isPrompt w.eng l →
      ¬((w.eng.queue w.eng.qTail).prompt = .sms ∧ (w.eng.queue w.eng.qTail).hasBody) →
      Transition allowed ([], w) ([], w.emit (.line (.prompt false) l))
  /-- a prompt is answered -/
  | promptAnswered (w : World cfg σ) (l) (env : Env σ) : isEcho w.eng l = false →
      isPrompt w.eng l →
      (w.eng.queue w.eng.qTail).prompt = .sms ∧ (w.eng.queue w.eng.qTail).hasBody →
      Transition allowed ([], w)
        ([], (answerPrompt env (w.eng.queue w.eng.qTail) (w.emit (.line (.prompt true) l))).2)
  /-- a line is a final result -/
  | final (w : World cfg σ) (l r) : isEcho w.eng l = false → isPrompt w.eng l = false →
      w.eng.state = .waiting → engineIsFinal l = some r →
      Transition allowed ([], w) ([], w.emit (.line .final l))
  /-- a line goes to a URC handler -/
  | urc (w : World cfg σ) (l i) : isEcho w.eng l = false → isPrompt w.eng l = false →
      (w.eng.state = .waiting → engineIsFinal l = none) → urcMatch l w.eng = some (some i) →
      Transition allowed ([], w)
        ([], (w.emit (.line .urc l)).emit (.urc (w.eng.urcTable i).cb (w.eng.urcTable i).user l))
  /-- a line is kept or dropped -/
  | accumulate (w : World cfg σ) (l) : Dispatched w.eng l → isEcho w.eng l = false → isPrompt w.eng l = false →
      (w.eng.state = .waiting → engineIsFinal l = none) → urcMatch l w.eng = some none →
      Transition allowed ([], w) ([], accumulate l w)
  /-- `engine_start_next` transmits -/
  | transmit (w : World cfg σ) (env : Env σ) : w.eng.state = .idle → 0 < w.eng.qCount →
      Transition allowed ([], w) ([], (transmit env w).2)
  /-- `engine_finalize` notifies -/
  | finalize (st) (w : World cfg σ) (status errCode) : w.eng.state ≠ .idle →
      FinalStatus status → (st ≠ [] → Cancelled w.log) →
      Transition allowed (st, w)
        (.finalizing w.eng.qTail (w.eng.queue w.eng.qTail) :: st,
          (w.putEng (setResponse (finalResponse status errCode w.eng) w.eng)).fire
            (w.eng.queue w.eng.qTail) (finalResponse status errCode w.eng))
  /-- `engine_finalize` dequeues -/
  | dequeue (st) (w : World cfg σ) (slot e) :
      Transition allowed (.finalizing slot e :: st, w)
        (st, (w.putEng (dequeue slot w.eng)).emit (.completed e))
  /-- `at_reset` enters its drain loop -/
  | drain (st) (w : World cfg σ) : w.eng.state = .idle ∨ w.eng.qCount = 0 →
      (st ≠ [] → Cancelled w.log) →
      Transition allowed (st, w) (.draining :: st, w)
  /-- the drain loop notifies -/
  | drainNotify (st) (w : World cfg σ) : 0 < w.eng.qCount →
      Transition allowed (.draining :: st, w)
        (.notifying (w.eng.queue w.eng.qTail) :: .draining :: st,
          w.fire (w.eng.queue w.eng.qTail) abortedResponse)
  /-- the drain loop removes the entry -/
  | drainNext (st) (w : World cfg σ) (e) :
      Transition allowed (.notifying e :: .draining :: st, w)
        (.draining :: st, (w.putEng (drainNext w.eng)).emit (.completed e))
  /-- `at_reset` ends -/
  | reset (st) (w : World cfg σ) : w.eng.qCount = 0 →
      Transition allowed (.draining :: st, w) (st, w.putEng (resetState w.eng))

/-- Sequences of transitions. -/
abbrev Steps (allowed : HookKind → ApiCall → Prop) : Snapshot cfg σ → Snapshot cfg σ → Prop :=
  Relation.ReflTransGen (Transition allowed)

variable {allowed : HookKind → ApiCall → Prop}

/-- **Invariance.** What every transition preserves, every sequence of them
preserves. -/
theorem Steps.invariant {I : Snapshot cfg σ → Prop}
    (hI : ∀ s t, Transition allowed s t → I s → I t) {s t : Snapshot cfg σ}
    (h : Steps allowed s t) (hs : I s) : I t := by
  induction h with
  | refl => exact hs
  | tail _ hstep ih => exact hI _ _ hstep ih

/-! ## What a function changes -/

/-- A call that answered `AT_OK`, as an equation. -/
theorem eq_ok_of_fst {p : AtResult × Engine cfg} (h : p.1 = .ok) : p = (.ok, p.2) := by
  obtain ⟨r, g⟩ := p
  exact congrArg (·, g) h

/-- A call that answered `AT_OK` has passed a check that answers otherwise. -/
theorem of_guard {r : AtResult} (hr : r ≠ .ok) {c : Prop} [Decidable c] {g g' : Engine cfg}
    {k : AtResult × Engine cfg} (h : (if c then (r, g) else k) = (.ok, g')) :
    ¬c ∧ k = (.ok, g') := by
  by_cases hc : c
  · rw [if_pos hc] at h
    exact absurd (Prod.mk.inj h).1 hr
  · rw [if_neg hc] at h
    exact ⟨hc, h⟩

/-- The inverse of a successful `at_send`. -/
theorem atSend_ok {d : CmdDesc} {g g' : Engine cfg} (h : atSend (some d) g = (.ok, g')) :
    cstr (d.cmd.getD []) ≠ [] ∧ g.qCount < cfg.cmdQueueDepth ∧
      g' = { g with
        queue := Function.update g.queue g.qHead (cmdEntryOf cfg d)
        qHead := nextSlot g.qHead
        qCount := (g.qCount + 1) % 256 } := by
  obtain ⟨hne, h⟩ := of_guard (by decide) h
  obtain ⟨hlt, h⟩ := of_guard (by decide) h
  exact ⟨hne, Nat.lt_of_not_ge hlt, (Prod.mk.inj h).2.symm⟩

/-- An accepted descriptor stands in the slot the queue's head pointed at. -/
theorem atSend_stored {d : CmdDesc} {g g' : Engine cfg} (h : atSend (some d) g = (.ok, g')) :
    g'.queue g.qHead = cmdEntryOf cfg d := by
  obtain ⟨-, -, rfl⟩ := atSend_ok h
  exact Function.update_self _ _ _

/-- A rejected descriptor leaves the engine as it was. -/
theorem atSend_rejected {desc : Option CmdDesc} {g g' : Engine cfg} {r : AtResult}
    (h : atSend desc g = (r, g')) (hrej : ∀ d, r = .ok → desc = some d → False) : g' = g := by
  simp only [atSend] at h
  cases desc with
  | none => exact (Prod.mk.inj h).2.symm
  | some d =>
    dsimp only at h
    split at h
    · exact (Prod.mk.inj h).2.symm
    · split at h
      · exact (Prod.mk.inj h).2.symm
      · exact (hrej d (Prod.mk.inj h).1.symm rfl).elim

/-- `at_send` accepts, or changes nothing. -/
theorem World.send_cases (desc : Option CmdDesc) (w : World cfg σ) :
    (w.send desc).2 = w ∨ ∃ d g, atSend (some d) w.eng = (.ok, g) ∧
      (w.send desc).2 = (w.putEng g).emit (.accepted d) := by
  rw [World.send]
  rcases hs : atSend desc w.eng with ⟨r, g⟩
  dsimp only
  split
  · exact .inr ⟨_, g, hs, rfl⟩
  · rename_i hrej
    rw [atSend_rejected hs hrej]
    exact .inl rfl

theorem atTick_eq (ms : Nat) (g : Engine cfg) : ∃ n, atTick ms g = { g with timerMs := n } := by
  rw [atTick]
  split <;> exact ⟨_, rfl⟩

/-- Time that goes by is not given back. -/
theorem atTick_le (ms : Nat) (g : Engine cfg) : (atTick ms g).timerMs ≤ g.timerMs := by
  rw [atTick]
  split
  · dsimp only
    split <;> omega
  · exact Nat.le_refl _

theorem atRegisterUrc_eq {pre : Option (List UInt8)} {cb : Option Ptr} {user : Ptr}
    {g g' : Engine cfg} {r : AtResult} (h : atRegisterUrc pre cb user g = some (r, g')) :
    ∃ table, g' = { g with urcTable := table } := by
  simp only [atRegisterUrc] at h
  split at h
  · obtain ⟨m, -, h⟩ := Option.bind_eq_some_iff.mp h
    cases m with
    | some i => exact ⟨_, (Prod.mk.inj (Option.some.inj h)).2.symm⟩
    | none =>
      obtain ⟨m, -, h⟩ := Option.bind_eq_some_iff.mp h
      cases m with
      | some i => exact ⟨_, (Prod.mk.inj (Option.some.inj h)).2.symm⟩
      | none => exact ⟨_, (Prod.mk.inj (Option.some.inj h)).2.symm⟩
  · exact ⟨_, (Prod.mk.inj (Option.some.inj h)).2.symm⟩

theorem atDeregisterUrc_eq {pre : Option (List UInt8)} {g g' : Engine cfg} {r : AtResult}
    (h : atDeregisterUrc pre g = some (r, g')) : ∃ table, g' = { g with urcTable := table } := by
  simp only [atDeregisterUrc] at h
  split at h
  · exact ⟨_, (Prod.mk.inj (Option.some.inj h)).2.symm⟩
  · obtain ⟨m, -, h⟩ := Option.bind_eq_some_iff.mp h
    cases m with
    | some i => exact ⟨_, (Prod.mk.inj (Option.some.inj h)).2.symm⟩
    | none => exact ⟨_, (Prod.mk.inj (Option.some.inj h)).2.symm⟩

theorem lfsmByte_eq {b : UInt8} {g g' : Engine cfg} (h : lfsmByte b g = .more g') :
    ∃ line lfsm, g' = { g with line := line, lfsm := lfsm } := by
  rw [lfsmByte] at h
  repeat' split at h
  all_goals first
    | (injection h with h; subst h; exact ⟨_, _, rfl⟩)
    | cases h

theorem accumulate_eng (l : List UInt8) (w : World cfg σ) :
    ∃ pool response, (accumulate l w).eng = { w.eng with pool := pool, response := response } := by
  rw [accumulate]
  split
  · dsimp only
    split <;> exact ⟨_, _, rfl⟩
  · exact ⟨_, _, rfl⟩

/-! ## The two senders

A command with its CR and a body with its Ctrl-Z go out the same way: two
writes, the second only after the first went out whole, and a trace of both
when both did. `SentPair` lists the log entries of the three outcomes. -/

/-- The log entries of writing `data` and then `term`; the `Bool` says whether
both went out whole. -/
inductive SentPair (hook : Bool) (site₁ site₂ : WriteSite) (data term : List UInt8) :
    Bool → List (Event cfg) → Prop
  | shortData (n) : n ≠ data.length → SentPair hook site₁ site₂ data term false
      [.write site₁ data n]
  | shortTerm (n) : n ≠ 1 → SentPair hook site₁ site₂ data term false
      [.write site₁ data data.length, .write site₂ term n]
  | sent : SentPair hook site₁ site₂ data term true
      ([.write site₁ data data.length, .write site₂ term 1] ++
        if hook then [.trace data, .trace term] else [])

theorem traceTx_traceTx_log (a b : List UInt8) (w : World cfg σ) :
    (traceTx b (traceTx a w)).log =
      w.log ++ if w.eng.traceHook.isSome then [.trace a, .trace b] else [] := by
  simp only [traceTx]
  by_cases h : w.eng.traceHook.isSome <;> simp [h]

@[simp] theorem traceTx_eng (a : List UInt8) (w : World cfg σ) :
    (traceTx a w).eng = w.eng := by
  rw [traceTx]
  split <;> rfl

@[simp] theorem traceTx_app (a : List UInt8) (w : World cfg σ) :
    (traceTx a w).app = w.app := by
  rw [traceTx]
  split <;> rfl

@[simp] theorem atPlatformWrite_eng (env : Env σ) (site : WriteSite) (data : List UInt8)
    (w : World cfg σ) : (atPlatformWrite env site data w).2.eng = w.eng := rfl

@[simp] theorem atPlatformWrite_log (env : Env σ) (site : WriteSite) (data : List UInt8)
    (w : World cfg σ) : (atPlatformWrite env site data w).2.log =
      w.log ++ [.write site data (atPlatformWrite env site data w).1] := rfl

@[simp] theorem startState_traceHook (e : CmdEntry cfg) (g : Engine cfg) :
    (startState e g).traceHook = g.traceHook := rfl

/-- Write `data` and the terminator `term`, trace both, and wait: what starting a
command and answering a prompt have in common. -/
def writePair (env : Env σ) (site₁ site₂ : WriteSite) (data : List UInt8) (term : UInt8)
    (w : World cfg σ) : Bool × World cfg σ :=
  let (n, w) := atPlatformWrite env site₁ data w
  if n ≠ data.length then (false, w)
  else
    let (n, w) := atPlatformWrite env site₂ [term] w
    if n ≠ 1 then (false, w)
    else
      let w := traceTx [term] (traceTx data w)
      (true, w.putEng { w.eng with state := .waiting })

theorem transmit_eq (env : Env σ) (w : World cfg σ) :
    transmit env w = writePair env .cmd .cr (w.eng.queue w.eng.qTail).cmd.bytes 13
      ((w.putEng (startState (w.eng.queue w.eng.qTail) w.eng)).emit
        (.start (w.eng.queue w.eng.qTail))) :=
  rfl

theorem answerPrompt_eq (env : Env σ) (e : CmdEntry cfg) (w : World cfg σ) :
    answerPrompt env e w = writePair env .body .ctrlZ e.body.bytes 26
      (w.putEng { w.eng with state := .prompt, timerMs := cfg.promptTimeoutMs }) :=
  rfl

section

variable (env : Env σ) (site₁ site₂ : WriteSite) (data : List UInt8) (term : UInt8)
  (w : World cfg σ)

theorem writePair_eng :
    (writePair env site₁ site₂ data term w).2.eng = { w.eng with
      state := if (writePair env site₁ site₂ data term w).1 then .waiting else w.eng.state } := by
  rw [writePair]
  dsimp only
  split
  · rfl
  · split
    · rfl
    · simp only [World.putEng_eng, traceTx_eng]
      rfl

theorem writePair_sent :
    ∃ evs, SentPair w.eng.traceHook.isSome site₁ site₂ data [term]
        (writePair env site₁ site₂ data term w).1 evs ∧
      (writePair env site₁ site₂ data term w).2.log = w.log ++ evs := by
  rw [writePair]
  dsimp only
  split
  · rename_i h
    exact ⟨_, .shortData _ h, rfl⟩
  · rename_i h
    split
    · rename_i h'
      exact ⟨_, .shortTerm _ h', by simp [not_not.mp h]⟩
    · rename_i h'
      refine ⟨_, .sent, ?_⟩
      rw [World.putEng_log, traceTx_traceTx_log]
      simp [not_not.mp h, not_not.mp h']
      rfl

end

/-- The engine after `transmit`. -/
theorem transmit_eng (env : Env σ) (w : World cfg σ) :
    (transmit env w).2.eng = { startState (w.eng.queue w.eng.qTail) w.eng with
      state := if (transmit env w).1 then .waiting else .sending } := by
  rw [transmit_eq, writePair_eng]
  rfl

/-- The copy that is made for the echo test is the command. -/
theorem startState_echo (hecho : cfg.echoCancel = true) (e : CmdEntry cfg) (g : Engine cfg) :
    (startState e g).echoExpect.bytes = e.cmd.bytes ∧
      (startState e g).echoLen = e.cmd.bytes.length % 2 ^ 16 := by
  have hcmd : (strCopySafe cfg.tx_pos e.cmd.bytes).bytes = e.cmd.bytes := by
    change (cstr _).take (cfg.txBufSize - 1) = _
    rw [CString.cstr_bytes, List.take_of_length_le (Nat.le_sub_one_of_lt e.cmd.fits)]
  rw [startState]
  dsimp only
  rw [if_pos hecho, if_pos hecho, CString.length, hcmd]
  exact ⟨rfl, rfl⟩

theorem transmit_echo (hecho : cfg.echoCancel = true) (htx : cfg.txBufSize ≤ 2 ^ 16)
    (env : Env σ) (w : World cfg σ) :
    (transmit env w).2.eng.echoExpect.bytes = (w.eng.queue w.eng.qTail).cmd.bytes ∧
      (transmit env w).2.eng.echoLen = (w.eng.queue w.eng.qTail).cmd.bytes.length := by
  have hlt := (w.eng.queue w.eng.qTail).cmd.fits
  obtain ⟨hexpect, hlen⟩ := startState_echo hecho (w.eng.queue w.eng.qTail) w.eng
  rw [transmit_eng]
  exact ⟨hexpect, hlen.trans (Nat.mod_eq_of_lt (by omega))⟩

/-- The log entries of `transmit`. -/
theorem transmit_sent (env : Env σ) (w : World cfg σ) :
    ∃ evs, SentPair w.eng.traceHook.isSome .cmd .cr (w.eng.queue w.eng.qTail).cmd.bytes [13]
        (transmit env w).1 evs ∧
      (transmit env w).2.log = w.log ++ .start (w.eng.queue w.eng.qTail) :: evs := by
  rw [transmit_eq]
  obtain ⟨evs, hsent, hlog⟩ := writePair_sent env .cmd .cr (w.eng.queue w.eng.qTail).cmd.bytes 13
    ((w.putEng (startState (w.eng.queue w.eng.qTail) w.eng)).emit
      (.start (w.eng.queue w.eng.qTail)))
  exact ⟨evs, hsent, hlog.trans (List.append_assoc _ _ _)⟩

/-- The engine after `answerPrompt`. -/
theorem answerPrompt_eng (env : Env σ) (e : CmdEntry cfg) (w : World cfg σ) :
    (answerPrompt env e w).2.eng = { w.eng with
      state := if (answerPrompt env e w).1 then .waiting else .prompt
      timerMs := cfg.promptTimeoutMs } := by
  rw [answerPrompt_eq, writePair_eng]
  rfl

/-- The log entries of `answerPrompt`. -/
theorem answerPrompt_sent (env : Env σ) (e : CmdEntry cfg) (w : World cfg σ) :
    ∃ evs, SentPair w.eng.traceHook.isSome .body .ctrlZ e.body.bytes [26]
        (answerPrompt env e w).1 evs ∧
      (answerPrompt env e w).2.log = w.log ++ evs := by
  rw [answerPrompt_eq]
  exact writePair_sent env .body .ctrlZ e.body.bytes 26
    (w.putEng { w.eng with state := .prompt, timerMs := cfg.promptTimeoutMs })

/-- The log grew by entries of the kind `p`. -/
def GrowsBy (p : Event cfg → Prop) (log log' : List (Event cfg)) : Prop :=
  ∃ evs, log' = log ++ evs ∧ ∀ ev ∈ evs, p ev

theorem GrowsBy.refl {p : Event cfg → Prop} (log : List (Event cfg)) : GrowsBy p log log :=
  ⟨[], by simp, by simp⟩

theorem GrowsBy.concat {p : Event cfg → Prop} {log log' : List (Event cfg)}
    (h : GrowsBy p log log') {ev : Event cfg} (hev : p ev) : GrowsBy p log (log' ++ [ev]) := by
  obtain ⟨evs, rfl, hevs⟩ := h
  refine ⟨evs ++ [ev], by simp, fun ev' hmem => ?_⟩
  rcases List.mem_append.mp hmem with hmem | hmem
  · exact hevs ev' hmem
  · rw [List.mem_singleton.mp hmem]
    exact hev

theorem GrowsBy.trans {p : Event cfg → Prop} {log₁ log₂ log₃ : List (Event cfg)}
    (h : GrowsBy p log₁ log₂) (h' : GrowsBy p log₂ log₃) : GrowsBy p log₁ log₃ := by
  obtain ⟨evs, rfl, hevs⟩ := h
  obtain ⟨evs', rfl, hevs'⟩ := h'
  refine ⟨evs ++ evs', List.append_assoc _ _ _, fun ev hmem => ?_⟩
  exact (List.mem_append.mp hmem).elim (hevs ev) (hevs' ev)

theorem GrowsBy.log_mono {p : Event cfg → Prop} {log log' : List (Event cfg)}
    (h : GrowsBy p log log') : log <+: log' := by
  obtain ⟨evs, rfl, -⟩ := h
  exact List.prefix_append _ _

/-- A pair of writes logs writes at its two places and traces. -/
theorem SentPair.forall {p : Event cfg → Prop} {hook : Bool} {site₁ site₂ : WriteSite}
    (hwrite₁ : ∀ data n, p (.write site₁ data n)) (hwrite₂ : ∀ data n, p (.write site₂ data n))
    (htrace : ∀ data, p (.trace data)) {data term : List UInt8} {b : Bool}
    {evs : List (Event cfg)} (h : SentPair hook site₁ site₂ data term b evs) :
    ∀ ev ∈ evs, p ev := by
  cases h with
  | shortData | shortTerm => simp [hwrite₁, hwrite₂]
  | sent => cases hook <;> simp [hwrite₁, hwrite₂, htrace]

theorem answerPrompt_growsBy {p : Event cfg → Prop}
    (hwrite : ∀ site data n, p (.write site data n)) (htrace : ∀ data, p (.trace data))
    (env : Env σ) (e : CmdEntry cfg) (w : World cfg σ) :
    GrowsBy p w.log (answerPrompt env e w).2.log := by
  obtain ⟨evs, hsent, hlog⟩ := answerPrompt_sent env e w
  exact ⟨_, hlog, hsent.forall (hwrite _) (hwrite _) htrace⟩

/-! ## What a transition logs -/

/-- The log entries of one transition. -/
inductive Emits (allowed : HookKind → ApiCall → Prop) : List (Event cfg) → Prop
  | none : Emits allowed []
  | nested (k c s) : allowed k c → Emits allowed [.nested k c s]
  | accepted (d) : Emits allowed [.accepted d]
  | line (k l) : k ≠ .prompt true → Emits allowed [.line k l]
  | urc (l f u) : Emits allowed [.line .urc l, .urc f u l]
  | prompt (l hook body b evs) : [62, 32] <+: l → SentPair hook .body .ctrlZ body [26] b evs →
      Emits allowed (.line (.prompt true) l :: evs)
  | start (e hook b evs) : SentPair hook .cmd .cr e.cmd.bytes [13] b evs →
      Emits allowed (.start e :: evs)
  | fired (f u r) : FinalStatus r.status → Emits allowed [.fired f u r]
  | completed (e) : Emits allowed [.completed e]

/-- A log that grows by the entries of one transition. -/
def Extends (allowed : HookKind → ApiCall → Prop) (log log' : List (Event cfg)) : Prop :=
  ∃ evs, Emits allowed evs ∧ log' = log ++ evs

theorem Extends.refl (log : List (Event cfg)) : Extends allowed log log :=
  ⟨[], .none, (List.append_nil log).symm⟩

theorem Extends.log_mono {log log' : List (Event cfg)} (h : Extends allowed log log') :
    log <+: log' := by
  obtain ⟨evs, -, rfl⟩ := h
  exact List.prefix_append _ _

/-- A prompt line begins with the two prompt characters. -/
theorem isPrompt_begins {g : Engine cfg} {l : List UInt8} (h : isPrompt g l = true) :
    [62, 32] <+: l := by
  simp only [isPrompt, Bool.and_eq_true, beq_iff_eq, decide_eq_true_eq] at h
  match l, h with
  | a :: b :: l, ⟨⟨_, ha⟩, hb⟩ =>
    obtain rfl : a = 62 := by simpa using ha
    obtain rfl : b = 32 := by simpa using hb
    exact List.prefix_append [62, 32] l

theorem isPrompt_iff {g : Engine cfg} (hs : g.state = .waiting) {l : List UInt8} :
    isPrompt g l = true ↔ [62, 32] <+: l := by
  constructor
  · exact isPrompt_begins
  · rintro ⟨t, rfl⟩
    rw [isPrompt, hs]
    simp

theorem isPrompt_eq_false_iff {g : Engine cfg} (hs : g.state = .waiting) {l : List UInt8} :
    isPrompt g l = false ↔ ¬[62, 32] <+: l := by
  rw [← isPrompt_iff hs, Bool.not_eq_true]

/-- A line nobody takes is logged as what it is. -/
theorem accumulate_log (l : List UInt8) (w : World cfg σ) :
    (accumulate l w).log = w.log ++ [.line (if w.eng.state = .waiting then .payload else .stray) l] := by
  rw [accumulate]
  split
  · dsimp only
    split <;> rfl
  · rfl

theorem accumulate_extends (l : List UInt8) (w : World cfg σ) :
    Extends allowed w.log (accumulate l w).log := by
  rw [accumulate_log]
  exact ⟨_, .line _ l (by split <;> simp), rfl⟩

theorem World.fire_extends {e : CmdEntry cfg} {r : Response} (hr : FinalStatus r.status)
    (w : World cfg σ) : Extends allowed w.log (w.fire e r).log := by
  rw [World.fire]
  split
  · exact .refl _
  · exact ⟨_, .fired _ _ r hr, rfl⟩

/-- What one transition adds to the log. -/
theorem Transition.extends {s t : Snapshot cfg σ} (h : Transition allowed s t) :
    Extends allowed s.2.log t.2.log := by
  cases h with
  | nested st w k c hk => exact ⟨_, .nested k c _ hk, rfl⟩
  | send st w d g _ => exact ⟨_, .accepted d, rfl⟩
  | echo w l _ => exact ⟨_, .line .echo l (by simp), rfl⟩
  | promptIgnored w l _ _ _ => exact ⟨_, .line (.prompt false) l (by simp), rfl⟩
  | promptAnswered w l env _ hp _ =>
    obtain ⟨evs, hsent, hlog⟩ := answerPrompt_sent env (w.eng.queue w.eng.qTail)
      (w.emit (.line (.prompt true) l))
    exact ⟨_, .prompt l _ _ _ _ (isPrompt_begins hp) hsent, hlog.trans (by simp)⟩
  | final w l r _ _ _ _ => exact ⟨_, .line .final l (by simp), rfl⟩
  | urc w l i _ _ _ _ => exact ⟨_, .urc l _ _, List.append_assoc _ _ _⟩
  | accumulate w l _ _ _ _ _ => exact accumulate_extends l w
  | transmit w env _ _ =>
    obtain ⟨evs, hsent, hlog⟩ := transmit_sent env w
    exact ⟨_, .start _ _ _ _ hsent, hlog⟩
  | finalize st w status errCode _ hf _ =>
    exact World.fire_extends (r := finalResponse status errCode w.eng) hf
      (w.putEng (setResponse (finalResponse status errCode w.eng) w.eng))
  | dequeue st w i e => exact ⟨_, .completed e, rfl⟩
  | drainNotify st w _ => exact World.fire_extends (by decide) w
  | drainNext st w e => exact ⟨_, .completed e, rfl⟩
  | _ => exact .refl _

/-- No transition removes a log entry. -/
theorem Transition.log_mono {s t : Snapshot cfg σ} (h : Transition allowed s t) :
    s.2.log <+: t.2.log :=
  h.extends.log_mono

theorem Steps.log_mono {s t : Snapshot cfg σ} (h : Steps allowed s t) : s.2.log <+: t.2.log :=
  h.invariant (I := fun t => s.2.log <+: t.2.log) (fun _ _ hs hle => hle.trans hs.log_mono)
    (List.prefix_refl _)

/-- **Log invariance.** What every extension of the log preserves holds of
every log. -/
theorem Steps.log_invariant {I : List (Event cfg) → Prop}
    (hI : ∀ log evs, Emits allowed evs → I log → I (log ++ evs)) {s t : Snapshot cfg σ}
    (h : Steps allowed s t) (hs : I s.2.log) : I t.2.log := by
  refine h.invariant (I := fun t => I t.2.log) (fun s t ht ih => ?_) hs
  obtain ⟨evs, hevs, hlog⟩ := ht.extends
  exact hlog ▸ hI _ evs hevs ih

/-- Hooks made only calls they are allowed to make. -/
theorem Steps.nested_allowed {s t : Snapshot cfg σ} (h : Steps allowed s t)
    (hs : ∀ k c st, .nested k c st ∈ s.2.log → allowed k c) :
    ∀ k c st, .nested k c st ∈ t.2.log → allowed k c := by
  refine h.log_invariant (I := fun log => ∀ k c st, .nested k c st ∈ log → allowed k c)
    (fun log evs hevs ih k c st hmem => ?_) hs
  rcases List.mem_append.mp hmem with hmem | hmem
  · exact ih k c st hmem
  · cases hevs with
    | nested k' c' s' hk =>
      obtain ⟨rfl, rfl, -⟩ : k = k' ∧ c = c' ∧ st = s' := by simpa using hmem
      exact hk
    | prompt l hook body b evs _ hsent => cases hsent <;> cases hook <;> simp at hmem
    | start e hook b evs hsent => cases hsent <;> cases hook <;> simp at hmem
    | _ => simp at hmem

/-- Every callback was called with a final status. -/
theorem Steps.fired_status {s t : Snapshot cfg σ} (h : Steps allowed s t)
    (hs : ∀ f u r, .fired f u r ∈ s.2.log → FinalStatus r.status) :
    ∀ f u r, .fired f u r ∈ t.2.log → FinalStatus r.status := by
  refine h.log_invariant (I := fun log => ∀ f u r, .fired f u r ∈ log → FinalStatus r.status)
    (fun log evs hevs ih f u r hmem => ?_) hs
  rcases List.mem_append.mp hmem with hmem | hmem
  · exact ih f u r hmem
  · cases hevs with
    | fired f' u' r' hr =>
      obtain ⟨rfl, rfl, rfl⟩ : f = f' ∧ u = u' ∧ r = r' := by simpa using hmem
      exact hr
    | prompt l hook body b evs _ hsent => cases hsent <;> cases hook <;> simp at hmem
    | start e hook b evs hsent => cases hsent <;> cases hook <;> simp at hmem
    | _ => simp at hmem

end LibAt
