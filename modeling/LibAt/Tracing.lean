import LibAt.Framing

/-!
# What the trace hook sees

The hook is meant to see every byte that is written to the modem or read from it. It is
called at two places only, with direction `'T'`, behind the writes of a command and of a
body, each time after both writes of the pair have gone out whole.

So received bytes never reach it (`tracedBytes_rx`). Of what is sent it sees everything,
in order, unless a pair of writes fails after some of it has been reported as written
(`traceRun_sent`). In a run in which no byte is received and no such pair occurs, it sees
all traffic (`tracesAll_of_run`).
-/

namespace LibAt

variable {cfg : Config} {σ : Type}

/-! ## Traffic in a log -/

/-- The direction passed to the hook: `'T'` or `'R'`. -/
inductive TraceDir where
  | tx
  | rx
  deriving DecidableEq

/-- The bytes the hook is called with. No call has the direction `'R'`. -/
def Event.traced (dir : TraceDir) : Event cfg → List UInt8
  | .trace data => if dir = .tx then data else []
  | _ => []

/-- The bytes that `at_platform_write` reports as written. -/
def Event.reported : Event cfg → List UInt8
  | .write _ data n => data.take n
  | _ => []

/-- Everything the hook is called with, in a direction. -/
def tracedBytes (dir : TraceDir) (evs : List (Event cfg)) : List UInt8 :=
  evs.flatMap (Event.traced dir)

/-- Everything that is reported as written. -/
def reportedBytes (evs : List (Event cfg)) : List UInt8 := evs.flatMap Event.reported

/-- A write that leaves nothing untraced: the first of a pair is reported whole or not at
all, and the second is reported whole. -/
def Event.whole : Event cfg → Bool
  | .write .cmd data n => n == data.length || n == 0
  | .write .body data n => n == data.length || n == 0
  | .write .cr _ n => n == 1
  | .write .ctrlZ _ n => n == 1
  | _ => true

/-- No write and no call of the hook. -/
def Event.Silent (ev : Event cfg) : Prop := ev.traced .tx = [] ∧ ev.reported = []

/-- If every write is whole, the hook sees what is written. -/
def SeesSent (evs : List (Event cfg)) : Prop :=
  (∀ ev ∈ evs, ev.whole = true) → tracedBytes .tx evs = reportedBytes evs

theorem tracedBytes_append (dir : TraceDir) (as bs : List (Event cfg)) :
    tracedBytes dir (as ++ bs) = tracedBytes dir as ++ tracedBytes dir bs := List.flatMap_append

theorem reportedBytes_append (as bs : List (Event cfg)) :
    reportedBytes (as ++ bs) = reportedBytes as ++ reportedBytes bs := List.flatMap_append

/-- **Received bytes are not traced.** -/
theorem tracedBytes_rx (evs : List (Event cfg)) : tracedBytes .rx evs = [] := by
  refine List.flatMap_eq_nil_iff.mpr fun ev _ => ?_
  cases ev <;> rfl

theorem SeesSent.append {as bs : List (Event cfg)} (ha : SeesSent as) (hb : SeesSent bs) :
    SeesSent (as ++ bs) := by
  intro h
  rw [tracedBytes_append, reportedBytes_append, ha fun ev hev => h ev (List.mem_append_left _ hev),
    hb fun ev hev => h ev (List.mem_append_right _ hev)]

theorem SeesSent.silent {evs : List (Event cfg)} (h : ∀ ev ∈ evs, ev.Silent) : SeesSent evs := by
  intro _
  rw [tracedBytes, reportedBytes, List.flatMap_eq_nil_iff.mpr fun ev hev => (h ev hev).1,
    List.flatMap_eq_nil_iff.mpr fun ev hev => (h ev hev).2]

theorem SeesSent.one {ev : Event cfg} (h : ev.Silent) : SeesSent [ev] :=
  .silent (List.forall_mem_singleton.mpr h)

/-- **A pair of writes** is traced when it succeeds. When it fails, the first write has
been reported as empty, or the second is not whole. -/
theorem SentPair.seesSent {site₁ site₂ : WriteSite} {data : List UInt8} {term : UInt8} {b : Bool}
    {evs : List (Event cfg)} (h : SentPair true site₁ site₂ data [term] b evs)
    (h₁ : ∀ n, (.write site₁ data n : Event cfg).whole = (n == data.length || n == 0))
    (h₂ : ∀ n, (.write site₂ [term] n : Event cfg).whole = (n == 1)) : SeesSent evs := by
  cases h with
  | shortData n hn =>
    -- the first write alone: reported as empty, if it is whole
    intro hwhole
    have hone := hwhole _ (List.mem_singleton_self _)
    rw [h₁, Bool.or_eq_true, beq_iff_eq, beq_iff_eq] at hone
    obtain rfl := hone.resolve_left hn
    rfl
  | shortTerm n hn =>
    -- the first write is out and untraced, so the second cannot be whole
    intro hwhole
    have hone := hwhole _ (List.mem_cons_of_mem _ (List.mem_singleton_self _))
    rw [h₂, beq_iff_eq] at hone
    exact absurd hone hn
  | sent =>
    intro _
    change data ++ ([term] ++ []) = data.take data.length ++ ([term].take 1 ++ [])
    rw [List.take_length]
    rfl

theorem CmdEntry.notice_silent (e : CmdEntry cfg) (r : Response) :
    ∀ ev ∈ e.notice r, ev.Silent := by
  rw [CmdEntry.notice]
  split
  · simp
  · exact List.forall_mem_singleton.mpr ⟨rfl, rfl⟩

/-! ## What a call leaves in the log -/

/-- From `w` to `w'` the hook stays installed, and sees what is sent. -/
structure Seen (w w' : World cfg σ) : Prop where
  hook : w'.eng.traceHook = w.eng.traceHook
  log : ∃ evs, w'.log = w.log ++ evs ∧ (w.eng.traceHook.isSome = true → SeesSent evs)

theorem Seen.of_log {w w' : World cfg σ} {evs : List (Event cfg)} (hlog : w'.log = w.log ++ evs)
    (hhook : w'.eng.traceHook = w.eng.traceHook) (h : SeesSent evs) : Seen w w' :=
  ⟨hhook, evs, hlog, fun _ => h⟩

/-- What logs nothing. -/
theorem Seen.quiet {w w' : World cfg σ} (hlog : w'.log = w.log)
    (hhook : w'.eng.traceHook = w.eng.traceHook) : Seen w w' :=
  .of_log (hlog.trans (List.append_nil _).symm) hhook (.silent (by simp))

theorem Seen.trans {u v w : World cfg σ} (h : Seen u v) (h' : Seen v w) : Seen u w := by
  obtain ⟨evs, hlog, hsent⟩ := h.log
  obtain ⟨evs', hlog', hsent'⟩ := h'.log
  refine ⟨h'.hook.trans h.hook, evs ++ evs', ?_, fun hook => ?_⟩
  · rw [hlog', hlog, List.append_assoc]
  · exact (hsent hook).append (hsent' (h.hook ▸ hook))

/-- **Everything that a call does** keeps the hook, and what is sent is seen. -/
theorem seen_handling :
    Handling (fun _ _ => True) (Seen : World cfg σ → World cfg σ → Prop) fun _ => Seen where
  refl w := .quiet rfl rfl
  trans := .trans
  app w s := .quiet rfl rfl
  nested w k c _ _ := .of_log rfl rfl (.one ⟨rfl, rfl⟩)
  feed w k data _ := .of_log rfl rfl (.one ⟨rfl, rfl⟩)
  send w d g hd := by
    obtain ⟨-, -, rfl⟩ := atSend_ok hd
    exact .of_log rfl rfl (.one ⟨rfl, rfl⟩)
  tick w n _ := .quiet rfl rfl
  table w t := .quiet rfl rfl
  finalize w s c := by
    refine .of_log (World.fire_log _ _ _) ?_ (.silent (CmdEntry.notice_silent _ _))
    rw [World.fire_eng]
    rfl
  dequeue w i e := .of_log rfl rfl (.one ⟨rfl, rfl⟩)
  drainNotify w e := by
    refine .of_log (World.fire_log _ _ _) ?_ (.silent (CmdEntry.notice_silent _ _))
    rw [World.fire_eng]
  drainNext w e := .of_log rfl rfl (.one ⟨rfl, rfl⟩)
  reset _ w := .quiet rfl rfl
  line_trans := .trans
  empty w := .quiet rfl rfl
  echo w l _ := .of_log rfl rfl (.one ⟨rfl, rfl⟩)
  ignored w l _ := .of_log rfl rfl (.one ⟨rfl, rfl⟩)
  answered env w l _ := by
    obtain ⟨evs, hsent, hlog⟩ := answerPrompt_sent env (w.eng.queue w.eng.qTail)
      (w.emit (.line (.prompt true) l))
    refine ⟨?_, _, hlog.trans (List.append_assoc _ _ _), fun hook => ?_⟩
    · rw [answerPrompt_eng]
      rfl
    · rw [World.emit_eng, hook] at hsent
      exact (SeesSent.one ⟨rfl, rfl⟩).append (hsent.seesSent (fun _ => rfl) fun _ => rfl)
  final w l _ := .of_log rfl rfl (.one ⟨rfl, rfl⟩)
  urc w l i _ := by
    refine .of_log (List.append_assoc _ _ _) rfl ?_
    exact (SeesSent.one ⟨rfl, rfl⟩).append (.one ⟨rfl, rfl⟩)
  other w l _ := by
    obtain ⟨pool, response, heng⟩ := accumulate_eng l w
    refine .of_log (accumulate_log l w) ?_ (.one ⟨rfl, rfl⟩)
    rw [heng]
  transmit env w := by
    obtain ⟨evs, hsent, hlog⟩ := transmit_sent env w
    refine ⟨?_, _, hlog, fun hook => ?_⟩
    · rw [transmit_eng]
      rfl
    · rw [hook] at hsent
      exact (SeesSent.one ⟨rfl, rfl⟩).append (hsent.seesSent (fun _ => rfl) fun _ => rfl)

/-- Calls that leave a hook installed. -/
def KeepsHook (c : TopCall) : Prop := c ≠ .deinit ∧ c ≠ .setTraceHook none

instance (c : TopCall) : Decidable (KeepsHook c) := inferInstanceAs (Decidable (_ ∧ _))

/-- **A call**, with a hook installed. -/
theorem exec_seen {env : Env σ} {fuel : Nat} {c : TopCall} {r : ApiRet} {w w' : World cfg σ}
    (hc : KeepsHook c) (hook : w.eng.traceHook.isSome = true)
    (h : exec env fuel c w = some (r, w')) :
    w'.eng.traceHook.isSome = true ∧ ∃ evs, w'.log = w.log ++ evs ∧ SeesSent evs := by
  have hinv : InvokeKeeps Seen (fun inv (w : World cfg σ) => invoke env fuel inv w) :=
    seen_handling.hooks env.respects_true fuel
  have hseen (hs : Seen w w') : w'.eng.traceHook.isSome = true ∧
      ∃ evs, w'.log = w.log ++ evs ∧ SeesSent evs := by
    obtain ⟨evs, hlog, hsent⟩ := hs.log
    exact ⟨hs.hook ▸ hook, evs, hlog, hsent hook⟩
  cases c with
  | process =>
    obtain ⟨w₁, h₁, hret⟩ := Option.map_eq_some_iff.mp h
    obtain ⟨-, rfl⟩ := Prod.mk.inj hret
    exact hseen (seen_handling.atProcess hinv (fun w rx => .quiet rfl rfl)
      (fun w line lfsm => .quiet rfl rfl) h₁)
  | setTraceHook hook' =>
    obtain ⟨-, rfl⟩ := Prod.mk.inj (Option.some.inj h)
    refine ⟨?_, [], (List.append_nil _).symm, .silent (by simp)⟩
    exact Option.isSome_iff_ne_none.mpr fun hnone => hc.2 (congrArg TopCall.setTraceHook hnone)
  | deinit => exact absurd rfl hc.1
  | api c =>
    -- `at_feed` is not among the calls that the rules are about: it only fills the ring
    by_cases hfeed : ∃ data, c = .feed data
    · obtain ⟨data, rfl⟩ := hfeed
      obtain ⟨-, rfl⟩ := Prod.mk.inj (Option.some.inj h)
      exact hseen (.quiet rfl rfl)
    · exact hseen (seen_handling.apiCall hinv (fun data he => hfeed ⟨data, he⟩)
        (fun _ => ⟨.completion, trivial⟩) h)

/-! ## Runs -/

/-- A run with a hook installed throughout, and the bytes that `at_process` has taken out
of the ring. Each call may meet a different environment; `P` says what it may do. -/
inductive TraceRun (P : World cfg σ → TopCall → World cfg σ → Prop) (w₀ : World cfg σ) :
    List UInt8 → World cfg σ → Prop
  /-- no call -/
  | nil : w₀.eng.traceHook.isSome = true → TraceRun P w₀ [] w₀
  /-- one more call -/
  | call {taken} {w w' : World cfg σ} {env : Env σ} {fuel : Nat} {c : TopCall} {r : ApiRet}
      (s : σ) : TraceRun P w₀ taken w → KeepsHook c → P w c w' →
      exec env fuel c (w.putApp s) = some (r, w') →
      TraceRun P w₀ (taken ++ takenBy env fuel c (w.putApp s)) w'

/-- The hook has seen all traffic since `w₀`. -/
def TracesAll (w₀ : World cfg σ) (taken : List UInt8) (w : World cfg σ) : Prop :=
  tracedBytes .tx (w.log.drop w₀.log.length) = reportedBytes (w.log.drop w₀.log.length) ∧
    tracedBytes .rx (w.log.drop w₀.log.length) = taken

/-- All writes of a call are whole. -/
def WritesWhole (w : World cfg σ) (_ : TopCall) (w' : World cfg σ) : Prop :=
  ∀ ev ∈ w'.log.drop w.log.length, ev.whole = true

/-- No byte is there to be taken. -/
def NothingReceived (w : World cfg σ) (c : TopCall) (_ : World cfg σ) : Prop :=
  c = .process → rxringEmpty w.eng.rx = true

variable {P Q : World cfg σ → TopCall → World cfg σ → Prop} {w₀ w : World cfg σ}
  {taken : List UInt8}

theorem TraceRun.mono (hPQ : ∀ w c w', P w c w' → Q w c w') (h : TraceRun P w₀ taken w) :
    TraceRun Q w₀ taken w := by
  induction h with
  | nil hook => exact .nil hook
  | call s _ hc hP hx ih => exact .call s ih hc (hPQ _ _ _ hP) hx

/-- **Where all writes are whole**, the hook sees what is sent, whatever is received. -/
theorem traceRun_sent (h : TraceRun WritesWhole w₀ taken w) : w.eng.traceHook.isSome = true ∧
    ∃ evs, w.log = w₀.log ++ evs ∧ tracedBytes .tx evs = reportedBytes evs := by
  induction h with
  | nil hook => exact ⟨hook, [], (List.append_nil _).symm, rfl⟩
  | @call taken w w' env fuel c r s _ hc hwhole hx ih =>
    obtain ⟨hook, evs, hlog, hsent⟩ := ih
    obtain ⟨hook', evs', hlog', hsent'⟩ := exec_seen (w := w.putApp s) hc hook hx
    have hlog' : w'.log = w.log ++ evs' := hlog'
    rw [WritesWhole, hlog', List.drop_left] at hwhole
    refine ⟨hook', evs ++ evs', ?_, ?_⟩
    · rw [hlog', hlog, List.append_assoc]
    · rw [tracedBytes_append, reportedBytes_append, hsent, hsent' hwhole]

/-- An `at_process` that finds the ring empty takes nothing. -/
theorem takenBy_empty {env : Env σ} {fuel : Nat} {c : TopCall}
    (h : c = .process → rxringEmpty w.eng.rx = true) : takenBy env fuel c w = [] := by
  cases c with
  | process =>
    have hpop : rxringPop w.eng.rx = none := if_pos (h rfl)
    cases fuel with
    | zero => rfl
    | succ fuel => rw [takenBy, drainTaken, hpop]
  | api | setTraceHook | deinit => rfl

/-- Where nothing is received, nothing is taken. -/
theorem traceRun_taken (h : TraceRun NothingReceived w₀ taken w) : taken = [] := by
  induction h with
  | nil => rfl
  | @call taken w w' env fuel c r s _ _ hempty _ ih =>
    rw [ih, takenBy_empty (w := w.putApp s) hempty, List.append_nil]

/-- **When the hook sees all traffic.** -/
theorem tracesAll_of_run
    (h : TraceRun (fun w c w' => NothingReceived w c w' ∧ WritesWhole w c w') w₀ taken w) :
    TracesAll w₀ taken w := by
  obtain ⟨-, evs, hlog, hsent⟩ := traceRun_sent (h.mono fun _ _ _ hP => hP.2)
  rw [TracesAll, hlog, List.drop_left, tracedBytes_rx]
  exact ⟨hsent, (traceRun_taken (h.mono fun _ _ _ hP => hP.1)).symm⟩

/-! ## Computed runs -/

/-- Several calls in one environment, with the bytes taken, as long as each passes a test. -/
def traceCalls (ok : World cfg σ → TopCall → World cfg σ → Bool) (env : Env σ) (fuel : Nat) :
    List TopCall → World cfg σ → Option (List UInt8 × World cfg σ)
  | [], w => some ([], w)
  | c :: cs, w => (exec env fuel c w).bind fun r =>
    if ok w c r.2 then
      (traceCalls ok env fuel cs r.2).map fun q => (takenBy env fuel c w ++ q.1, q.2)
    else none

theorem TraceRun.of_calls {ok : World cfg σ → TopCall → World cfg σ → Bool}
    (hok : ∀ w c w', ok w c w' = true → P w c w') {env : Env σ} {fuel : Nat} {cs : List TopCall}
    (hcs : ∀ c ∈ cs, KeepsHook c) : ∀ {w w' : World cfg σ} {taken taken' : List UInt8},
      TraceRun P w₀ taken w → traceCalls ok env fuel cs w = some (taken', w') →
      TraceRun P w₀ (taken ++ taken') w' := by
  induction cs with
  | nil =>
    intro w w' taken taken' h hrun
    obtain ⟨rfl, rfl⟩ := Prod.mk.inj (Option.some.inj hrun)
    rwa [List.append_nil]
  | cons c cs ih =>
    intro w w' taken taken' h hrun
    obtain ⟨hc, hcs⟩ := List.forall_mem_cons.mp hcs
    obtain ⟨⟨r, u⟩, hx, hrun⟩ := Option.bind_eq_some_iff.mp hrun
    dsimp only at hrun
    split at hrun
    · next hpass =>
      obtain ⟨⟨taken₁, u'⟩, hrest, heq⟩ := Option.map_eq_some_iff.mp hrun
      obtain ⟨rfl, rfl⟩ := Prod.mk.inj heq
      rw [← List.append_assoc]
      exact ih hcs (h.call w.app hc (hok _ _ _ hpass) hx) hrest
    · cases hrun

/-- A world with a hook. -/
def hookedWorld : World Config.default Unit :=
  ⟨{ atInit Config.default with traceHook := some 1 }, (), []⟩

/-- The call meets the conditions of `tracesAll_of_run`. -/
def traceable (w : World cfg σ) (c : TopCall) (w' : World cfg σ) : Bool :=
  decide (c = .process → rxringEmpty w.eng.rx = true) &&
    (w'.log.drop w.log.length).all Event.whole

/-- A command is sent. -/
theorem tracesAll_of_run_send : ∃ w : World Config.default Unit,
    traceCalls traceable plainEnv 16
        [.api (.send (some (rawDesc (ascii "AT+CSQ") 0 none 0))), .process] hookedWorld =
          some ([], w) ∧
      reportedBytes w.log = ascii "AT+CSQ\r" ∧ TracesAll hookedWorld [] w := by
  have hrun : (traceCalls traceable plainEnv 16
      [.api (.send (some (rawDesc (ascii "AT+CSQ") 0 none 0))), .process] hookedWorld).any
      (fun q => decide (q.1 = [] ∧ reportedBytes q.2.log = ascii "AT+CSQ\r")) = true := by
    decide +kernel
  obtain ⟨⟨taken, w⟩, hw, hp⟩ := (Option.any_eq_true _ _).mp hrun
  obtain ⟨rfl, hreported⟩ := of_decide_eq_true hp
  refine ⟨w, hw, hreported, tracesAll_of_run ?_⟩
  refine TraceRun.of_calls (fun w c w' hok => ?_) (by decide) (.nil rfl) hw
  obtain ⟨hempty, hwhole⟩ := Bool.and_eq_true_iff.mp hok
  exact ⟨fun hc => of_decide_eq_true hempty hc, List.all_eq_true.mp hwhole⟩

/-- The write hook takes a byte of what it is given. -/
def oneByteEnv : Env Unit where
  write s _ := (1, s)
  completion _ _ _ s := .ret s
  handler _ _ _ s := .ret s

/-- A byte is received, or a write stops after the first byte: the hook does not see it. -/
theorem trace_incomplete :
    (∃ (taken : List UInt8) (w : World Config.default Unit),
        TraceRun (fun _ _ _ => True) hookedWorld taken w ∧ ¬TracesAll hookedWorld taken w ∧
          taken = ascii "A") ∧
      ∃ (taken : List UInt8) (w : World Config.default Unit),
        TraceRun (fun _ _ _ => True) hookedWorld taken w ∧ ¬TracesAll hookedWorld taken w ∧
          taken = [] := by
  constructor
  · have hrun : (traceCalls (fun _ _ _ => true) plainEnv 16
        [.api (.feed (ascii "A")), .process] hookedWorld).any
        (fun q => decide (q.1 = ascii "A")) = true := by
      decide +kernel
    obtain ⟨⟨taken, w⟩, hw, hp⟩ := (Option.any_eq_true _ _).mp hrun
    obtain rfl : taken = ascii "A" := of_decide_eq_true hp
    refine ⟨_, w, TraceRun.of_calls (fun _ _ _ _ => trivial) (by decide) (.nil rfl) hw, ?_, rfl⟩
    rintro ⟨-, hrx⟩
    rw [tracedBytes_rx] at hrx
    cases hrx
  · have hrun : (traceCalls (fun _ _ _ => true) oneByteEnv 16
        [.api (.send (some (rawDesc (ascii "AT") 0 none 0))), .process] hookedWorld).any
        (fun q => decide (q.1 = [] ∧ tracedBytes .tx q.2.log = [] ∧
          reportedBytes q.2.log = ascii "A")) = true := by
      decide +kernel
    obtain ⟨⟨taken, w⟩, hw, hp⟩ := (Option.any_eq_true _ _).mp hrun
    obtain ⟨rfl, htraced, hreported⟩ := of_decide_eq_true hp
    refine ⟨_, w, TraceRun.of_calls (fun _ _ _ _ => trivial) (by decide) (.nil rfl) hw, ?_, rfl⟩
    rintro ⟨htx, -⟩
    have heq : tracedBytes .tx w.log = reportedBytes w.log := htx
    rw [htraced, hreported] at heq
    exact absurd heq (by decide)

end LibAt
