import LibAt.Contract
import LibAt.Oblivious
import LibAt.Routing
import LibAt.Wire

/-!
# The engine in a loop with a modem

`Loop` runs the engine against a modem that answers every command it is asked: the
answer goes into the stream behind what is already on its way, and the stream is fed in
any pieces at any time. Meanwhile the application sends commands whenever it likes,
callbacks send more, time passes, and the modem reports news in between.

`closed_loop` says that the two understand each other. What is completed is completed with
the answer that the modem gave to it, in the order of acceptance, all news reach their
handlers, and an active command has its answer still on the way. What is not completed is
in the queue, and the loop never hangs: an `at_process` returns and takes all that has come
in, and where it leaves the engine idle it has completed what was accepted.

A callback is not told all of an answer: the echo goes, and so do the lines that have a
registered prefix (`Reply.response`).

What foreign code may do here is little (`FollowUps`), since handlers must not touch the
queue while a line is being dispatched. Time is not up for the active command (`Timely`).
-/

namespace LibAt

variable {cfg : Config} {σ : Type} {env : Env σ}

/-! ## The modem -/

/-- What a modem says to a command: some lines, and the final result. -/
structure Reply where
  init : List (List UInt8)
  last : List UInt8

/-- What comes from the modem. -/
inductive Message (cfg : Config) where
  /-- a line that nobody asked for -/
  | news (l : List UInt8)
  /-- the answer to a command -/
  | reply (e : CmdEntry cfg) (a : Reply)

/-- The lines of an answer. -/
def Reply.lines (a : Reply) : List (List UInt8) := a.init ++ [a.last]

/-- What the callback of the command `e` is to be told. -/
def Reply.response (a : Reply) (e : CmdEntry cfg)
    (table : Fin cfg.urcTableSize → UrcEntry cfg) : Response :=
  let (status, code) := (engineIsFinal a.last).getD (.pending, 0)
  let lines := kept table (unechoed e.cmd.bytes a.init)
  ⟨status, code, lines.length, lines⟩

/-- An answer to `e` that the engine can take: its only final result is the last line,
and no more lines are for the callback than there is room for. -/
structure Reply.Answers (a : Reply) (e : CmdEntry cfg)
    (table : Fin cfg.urcTableSize → UrcEntry cfg) : Prop where
  payload : Payload e table a.init
  text : LineText cfg a.last
  final : (engineIsFinal a.last).isSome
  noEcho : e.cmd.bytes <+: a.last → ∃ l ∈ a.init, e.cmd.bytes <+: l

/-- A line that is for a handler. -/
structure Unsolicited (table : Fin cfg.urcTableSize → UrcEntry cfg) (l : List UInt8) : Prop where
  text : LineText cfg l
  noFinal : engineIsFinal l = none
  noPrompt : ¬[62, 32] <+: l
  taken : (taker table l).isSome

namespace Message

/-- The command that is answered. -/
def command : Message cfg → Option (CmdEntry cfg)
  | news _ => none
  | reply e _ => some e

/-- The callback call it leads to. -/
def callback (table : Fin cfg.urcTableSize → UrcEntry cfg) :
    Message cfg → Option (Ptr × Ptr × Response)
  | news _ => none
  | reply e a => e.note.map fun (f, u) => (f, u, a.response e table)

/-- The handler calls it leads to. -/
def handlers (table : Fin cfg.urcTableSize → UrcEntry cfg) :
    Message cfg → List (Ptr × Ptr × List UInt8)
  | news l => handled table [l]
  | reply e a => handled table (unechoed e.cmd.bytes a.init)

end Message

/-! ## The loop -/

/-- The commands that were taken up. -/
def asked (log : List (Event cfg)) : List (CmdEntry cfg) :=
  log.filterMap fun | .start e => some e | _ => none

/-- The callback calls, each with its user pointer and its response. -/
def callbacks (log : List (Event cfg)) : List (Ptr × Ptr × Response) :=
  log.filterMap fun | .fired f u r => some (f, u, r) | _ => none

/-- Hooks of which only callbacks call the API, to send commands or to look at the
engine. -/
def FollowUps (k : HookKind) (c : ApiCall) : Prop := k = .completion ∧ SendsOnly k c

/-- The time of the active command is not up when `at_process` looks at it. -/
def Timely (env : Env σ) (fuel : Nat) (w : World cfg σ) : Prop :=
  ∀ v, drainRx (invoke env fuel) env fuel w = some v → v.eng.state = .waiting → v.eng.timerMs ≠ 0

/-- Runs of the engine and the modem from `w₀`, with what the modem has sent, and the
bytes of it that are not fed yet. -/
inductive Loop (table : Fin cfg.urcTableSize → UrcEntry cfg) (w₀ : World cfg σ) :
    List (Message cfg) → List UInt8 → World cfg σ → Prop
  | init : Loop table w₀ [] [] w₀
  | app {out unfed w} (s : σ) : Loop table w₀ out unfed w → Loop table w₀ out unfed (w.putApp s)
  /-- the application sends a command, which may be refused -/
  | send {out unfed w} (desc : Option CmdDesc) : Loop table w₀ out unfed w →
      Loop table w₀ out unfed (w.send desc).2
  | tick {out unfed w} (ms : Nat) : Loop table w₀ out unfed w →
      Loop table w₀ out unfed (w.putEng (atTick ms w.eng))
  /-- some bytes come in -/
  | feed {out unfed w} (data : List UInt8) : Loop table w₀ out (data ++ unfed) w →
      rxringUsed w.eng.rx + data.length ≤ cfg.rxBufSize →
      Loop table w₀ out unfed (w.putEng (atFeed data w.eng))
  /-- the modem has news -/
  | news {out unfed w} (l : List UInt8) : Loop table w₀ out unfed w → Unsolicited table l →
      Loop table w₀ (out ++ [.news l]) (unfed ++ stream [l]) w
  /-- the engine works, and the modem answers what it is asked meanwhile -/
  | process {out unfed w} (env : Env σ) (fuel : Nat) (w' : World cfg σ)
      (replies : List (CmdEntry cfg × Reply)) : Loop table w₀ out unfed w →
      env.Respects FollowUps → env.Delivers → Timely env fuel w →
      exec env fuel .process w = some (.unit, w') →
      asked w'.log = asked w.log ++ replies.map (·.1) →
      (∀ p ∈ replies, p.2.Answers p.1 table ∧ ∀ l, .news l ∈ out → ¬p.1.cmd.bytes <+: l) →
      Loop table w₀ (out ++ replies.map fun p => .reply p.1 p.2)
        (unfed ++ replies.flatMap fun p => stream p.2.lines) w'

/-- What the two have settled: the messages `settled` of those in `out`. -/
structure Account (table : Fin cfg.urcTableSize → UrcEntry cfg) (w₀ : World cfg σ)
    (out settled : List (Message cfg)) (log : List (Event cfg)) : Prop where
  callbacks : LibAt.callbacks log =
    LibAt.callbacks w₀.log ++ settled.filterMap (Message.callback table)
  completed : completions log = completions w₀.log ++ settled.filterMap Message.command
  asked : LibAt.asked log = LibAt.asked w₀.log ++ out.filterMap Message.command

/-! ## What is logged -/

/-- An entry that is no part of an account. -/
def Event.unaccounted : Event cfg → Bool
  | .start _ | .fired .. | .completed _ => false
  | _ => true

theorem handled_append (table : Fin cfg.urcTableSize → UrcEntry cfg)
    (ls ls' : List (List UInt8)) :
    handled table (ls ++ ls') = handled table ls ++ handled table ls' :=
  List.filterMap_append

theorem callbacks_append (log evs : List (Event cfg)) :
    callbacks (log ++ evs) = callbacks log ++ callbacks evs :=
  List.filterMap_append

theorem asked_append (log evs : List (Event cfg)) : asked (log ++ evs) = asked log ++ asked evs :=
  List.filterMap_append

theorem unaccounted_spec {evs : List (Event cfg)} (h : ∀ ev ∈ evs, ev.unaccounted) :
    callbacks evs = [] ∧ completions evs = [] ∧ asked evs = [] := by
  refine ⟨?_, ?_, ?_⟩ <;>
    refine List.filterMap_eq_nil_iff.mpr fun ev hev => ?_ <;>
    have := h ev hev <;> cases ev <;> first | rfl | cases this

theorem callbacks_notice (e : CmdEntry cfg) (a : Reply)
    (table : Fin cfg.urcTableSize → UrcEntry cfg) :
    callbacks (e.notice (a.response e table)) =
      [Message.reply e a].filterMap (Message.callback table) := by
  rw [CmdEntry.notice, List.filterMap_cons, Message.callback, CmdEntry.note]
  cases e.cb <;> rfl

theorem asked_notice (e : CmdEntry cfg) (r : Response) : asked (e.notice r) = [] := by
  rw [CmdEntry.notice]
  cases e.cb <;> rfl

section

variable {table : Fin cfg.urcTableSize → UrcEntry cfg} {w₀ : World cfg σ}
  {out settled : List (Message cfg)} {log log' : List (Event cfg)}

theorem Account.grow (h : Account table w₀ out settled log)
    (hlog : GrowsBy (fun ev => ev.unaccounted) log log') : Account table w₀ out settled log' := by
  obtain ⟨evs, rfl, hevs⟩ := hlog
  obtain ⟨hcb, hdone, hasked⟩ := unaccounted_spec hevs
  refine ⟨?_, ?_, ?_⟩
  · rw [callbacks_append, hcb, List.append_nil, h.callbacks]
  · rw [completions_append, hdone, List.append_nil, h.completed]
  · rw [asked_append, hasked, List.append_nil, h.asked]

/-- News are settled without callbacks. -/
theorem Account.news (h : Account table w₀ out settled log) (l : List UInt8) :
    Account table w₀ (out ++ [.news l]) settled log :=
  ⟨h.callbacks, h.completed, by
    rw [h.asked, List.filterMap_append]
    simp [Message.command]⟩

theorem Account.settle (h : Account table w₀ out settled log) (ls : List (List UInt8)) :
    Account table w₀ out (settled ++ ls.map .news) log :=
  ⟨by
    rw [h.callbacks, List.filterMap_append, List.filterMap_map]
    simp [Function.comp_def, Message.callback], by
    rw [h.completed, List.filterMap_append, List.filterMap_map]
    simp [Function.comp_def, Message.command], h.asked⟩

/-- A command is taken up. -/
theorem Account.ask {e : CmdEntry cfg} {evs : List (Event cfg)}
    (h : Account table w₀ out settled log) (a : Reply) (hevs : ∀ ev ∈ evs, ev.unaccounted) :
    Account table w₀ (out ++ [.reply e a]) settled (log ++ .start e :: evs) := by
  have hstart : Account table w₀ (out ++ [.reply e a]) settled (log ++ [.start e]) := by
    refine ⟨?_, ?_, ?_⟩
    · rw [callbacks_append, h.callbacks]
      exact List.append_nil _
    · rw [completions_append, h.completed]
      exact List.append_nil _
    · rw [asked_append, h.asked, List.filterMap_append, List.append_assoc]
      rfl
  have hgrow := hstart.grow ⟨evs, rfl, hevs⟩
  rwa [List.append_assoc] at hgrow

/-- A completion settles an answer. -/
theorem Account.conclude {e : CmdEntry cfg} {a : Reply} {D : List (Event cfg)}
    (h : Account table w₀ out settled log) (hD : Concludes e (a.response e table) D) :
    Account table w₀ out (settled ++ [.reply e a]) (log ++ D) := by
  obtain ⟨C, rfl, hC⟩ := hD
  have hun : ∀ ev ∈ C, ev.unaccounted := fun ev hev => by
    have := hC ev hev
    cases ev <;> first | rfl | cases this
  obtain ⟨hcb, hdone, hasked⟩ := unaccounted_spec hun
  refine ⟨?_, ?_, ?_⟩
  · rw [callbacks_append, callbacks_append, callbacks_append, hcb, h.callbacks, callbacks_notice,
      List.filterMap_append, List.append_assoc]
    congr 2
    exact List.append_nil _
  · rw [completions_append, completions_append, completions_append, hdone, completions_notice,
      h.completed, List.filterMap_append, List.append_assoc]
    rfl
  · rw [asked_append, asked_append, asked_append, hasked, asked_notice, h.asked]
    exact List.append_nil _

end

/-! ## The past in the log -/

/-- Replace the log. -/
def World.relog (log : List (Event cfg)) (w : World cfg σ) : World cfg σ := { w with log := log }

theorem processByte_adapt {n : Nat} {b : UInt8} {past : List (Event cfg)} (w : World cfg σ) :
    processByte (invoke env n) env b (w.adapt (fun g => g) past) =
      (processByte (invoke env n) env b w).map (World.adapt (fun g => g) past) := by
  have hu : InertApi (fun _ _ => True) fun g : Engine cfg => g := .id
  rw [processByte, processByte, World.adapt_eng]
  cases hb : lfsmByte b w.eng with
  | more g => rfl
  | line l =>
    dsimp only
    rw [engineDispatchLine_adapt hu.toInert (invoke_adapt hu env.respects_true n) rfl, Option.map_map,
      Option.map_map]
    congr 1

/-- What a byte does, and what it logs, does not depend on the log. -/
theorem processByte_relog {n : Nat} {b : UInt8} {w w' : World cfg σ}
    (h : processByte (invoke env n) env b w = some w') : ∃ evs, w'.log = w.log ++ evs ∧
      ∀ log, processByte (invoke env n) env b (w.relog log) = some (w'.relog (log ++ evs)) := by
  have hadapt (log : List (Event cfg)) :
      w.relog log = (w.relog []).adapt (fun g => g) log := by
    rw [World.adapt, World.relog, World.relog, List.append_nil]
  have hw : w = w.relog w.log := rfl
  rw [hw, hadapt, processByte_adapt] at h
  obtain ⟨v, hv, rfl⟩ := Option.map_eq_some_iff.mp h
  refine ⟨v.log, rfl, fun log => ?_⟩
  rw [hadapt, processByte_adapt, hv]
  rfl

/-! ## Where the two stand -/

/-- No command is active, the news `ls` are not yet dispatched, and the bytes `bs` of them
are still to come. -/
structure Idling (table : Fin cfg.urcTableSize → UrcEntry cfg) (w₀ : World cfg σ)
    (out : List (Message cfg)) (ls : List (List UInt8)) (bs : List UInt8) (w : World cfg σ) :
    Prop where
  state : w.eng.state = .idle
  urcs : w.eng.urcTable = table
  news : ∀ l ∈ ls, Unsolicited table l ∧ .news l ∈ out
  remaining : Remaining w.eng ls bs
  account : Account table w₀ out out w.log
  heard : handlerCalls w.log ++ handled table ls =
    handlerCalls w₀.log ++ out.flatMap (Message.handlers table)

/-- The command `e` is active, its answer `a` is on the way behind the news `early`, and
the news `late` are behind it; everything in `before` is settled. The lines are followed
in a world that has forgotten all but `mid` of the log, where the application has not
interfered. -/
structure Talking (table : Fin cfg.urcTableSize → UrcEntry cfg) (w₀ : World cfg σ)
    (before : List (Message cfg)) (e : CmdEntry cfg) (a : Reply) (early late : List (List UInt8))
    (mid : List (Event cfg)) (bs : List UInt8) (w : World cfg σ) : Prop where
  answers : a.Answers e table
  ahead : ∀ l ∈ early, Unsolicited table l ∧ ¬e.cmd.bytes <+: l
  behind : ∀ l ∈ late, Unsolicited table l
  midway : ∃ rest, rest ≠ [] ∧ bs = rest ++ stream late ∧
    Midway e table [] (early ++ a.init) a.last rest (w.relog mid)
  account : Account table w₀ (before ++ .reply e a :: late.map .news) before w.log
  heard : ∃ past, handlerCalls w.log = past ++ handlerCalls mid ∧
    past ++ handled table early =
      handlerCalls w₀.log ++ before.flatMap (Message.handlers table)

/-- The bytes `bs` are still to come. -/
def Standing (table : Fin cfg.urcTableSize → UrcEntry cfg) (w₀ : World cfg σ)
    (out : List (Message cfg)) (bs : List UInt8) (w : World cfg σ) : Prop :=
  (∃ ls, Idling table w₀ out ls bs w) ∨
  ∃ before e a early late mid, out = before ++ .reply e a :: late.map .news ∧
    Talking table w₀ before e a early late mid bs w

/-- The engine may change in what the lines do not depend on. -/
structure SameTalk (g g' : Engine cfg) : Prop where
  state : g'.state = g.state
  active : g.state ≠ .idle → g'.queue g'.qTail = g.queue g.qTail
  urcs : g'.urcTable = g.urcTable
  expect : g'.echoExpect = g.echoExpect
  expectLen : g'.echoLen = g.echoLen
  armed : g'.echoArmed = g.echoArmed
  pool : g'.pool = g.pool
  line : g'.line = g.line
  lfsm : g'.lfsm = g.lfsm

theorem Midway.same {e : CmdEntry cfg} {table : Fin cfg.urcTableSize → UrcEntry cfg}
    {log : List (Event cfg)} {init : List (List UInt8)} {last bs : List UInt8}
    {w w' : World cfg σ} (h : Midway e table log init last bs w) (hs : SameTalk w.eng w'.eng)
    (hlog : w'.log = w.log) : Midway e table log init last bs w' := by
  obtain ⟨armed, heard, done, rest, hdone, harmed, hheard, hrem, hl⟩ := h
  refine ⟨armed, heard, done, rest, hdone, harmed, hheard, hrem.congr hs.line hs.lfsm, ?_⟩
  refine ⟨hs.state.trans hl.state, ?_, hs.urcs.trans hl.urcs, ?_, hs.expectLen.trans hl.expectLen,
    hs.armed.trans hl.armed, ?_, ?_, hlog ▸ hl.log⟩
  · exact (hs.active (by simp [hl.state])).trans hl.active
  · rw [hs.expect, hl.expect]
  · rw [hs.pool, hl.pool]
  · rw [hs.pool, hl.count]

section

variable {table : Fin cfg.urcTableSize → UrcEntry cfg} {w₀ : World cfg σ}
  {out : List (Message cfg)} {bs : List UInt8} {w w' : World cfg σ}

/-- **What is not about lines** makes no difference. -/
theorem Standing.same (h : Standing table w₀ out bs w) (hs : SameTalk w.eng w'.eng)
    (hlog : GrowsBy (fun ev => ev.unaccounted ∧ handlerCalls [ev] = []) w.log w'.log) :
    Standing table w₀ out bs w' := by
  have haccount : GrowsBy (fun ev : Event cfg => ev.unaccounted) w.log w'.log := by
    obtain ⟨evs, hevs, hall⟩ := hlog
    exact ⟨evs, hevs, fun ev hev => (hall ev hev).1⟩
  have hcalls : handlerCalls w'.log = handlerCalls w.log := by
    obtain ⟨evs, hevs, hall⟩ := hlog
    rw [hevs, handlerCalls_append, handlerCalls_eq_nil fun ev hev => (hall ev hev).2,
      List.append_nil]
  rcases h with ⟨ls, hi⟩ | ⟨before, e, a, early, late, mid, rfl, ht⟩
  · exact .inl ⟨ls, hs.state.trans hi.state, hs.urcs.trans hi.urcs, hi.news,
      hi.remaining.congr hs.line hs.lfsm, hi.account.grow haccount, hcalls ▸ hi.heard⟩
  · obtain ⟨rest, hne, hbs, hmid⟩ := ht.midway
    exact .inr ⟨before, e, a, early, late, mid, rfl, ht.answers, ht.ahead, ht.behind,
      ⟨rest, hne, hbs, hmid.same hs rfl⟩, ht.account.grow haccount, hcalls ▸ ht.heard⟩

/-! ## One byte -/

/-- A byte of the news, when no command is active. -/
theorem Idling.byte (hfit : cfg.Fits) (henv : env.Respects CallbacksOnly) (hwrite : env.Delivers)
    {ls : List (List UInt8)} {b : UInt8} {n : Nat} (h : Idling table w₀ out ls (b :: bs) w)
    (hx : processByte (invoke env (n + 1)) env b w = some w') :
    w'.eng.rx = w.eng.rx ∧ ∃ ls', Idling table w₀ out ls' bs w' := by
  rcases h.remaining.byte fun l hl => (h.news l hl).1.text with
    ⟨line, lfsm, hmore, hrem⟩ | ⟨l, ls', rfl, hline, rfl⟩
  · rw [processByte, hmore] at hx
    obtain rfl := Option.some.inj hx
    exact ⟨rfl, ls, h.state, h.urcs, h.news, hrem, h.account, h.heard⟩
  · obtain ⟨hl, hls'⟩ := List.forall_mem_cons.mp h.news
    have hnot (s : AtResult) (c : Int) : ¬Completes w.eng l s c := fun hc => by
      have hs := hc.state
      rw [h.state] at hs
      cases hs
    obtain ⟨v, hv, hd⟩ : ∃ v, engineDispatchLine (quiet env) env l w = some v ∧
      Dispatches env l w v := engineDispatchLine_quiet hfit l w
    rw [processByte, hline] at hx
    dsimp only at hx
    rw [engineDispatchLine_callbacks henv hwrite hnot, hv] at hx
    obtain rfl : lineDone v = w' := Option.some.inj hx
    refine ⟨hd.rx, ls', ?_⟩
    cases hd with
    | empty hnil => exact absurd hnil hl.1.text.ne_nil
    | echo he => simp [isEcho, h.state] at he
    | ignored _ hp | answered _ _ hp | failed _ _ hp => simp [isPrompt, h.state] at hp
    | final s c _ _ hs =>
      rw [h.state] at hs
      cases hs
    | other _ _ _ hm =>
      have htaken := hl.1.taken
      rw [urcMatch_eq hfit hl.1.text.nul, h.urcs] at hm
      rw [Option.some.inj hm] at htaken
      cases htaken
    | urc i _ _ _ hm =>
      rw [urcMatch_eq hfit hl.1.text.nul, h.urcs] at hm
      have hu := Option.some.inj hm
      have hlog : GrowsBy (fun ev : Event cfg => ev.unaccounted) w.log
          (w.log ++ [.line .urc l] ++ [.urc (w.eng.urcTable i).cb (w.eng.urcTable i).user l]) := by
        refine .concat (.concat (.refl _) ?_) ?_ <;> rfl
      refine ⟨h.state, h.urcs, hls', .between _ rfl, h.account.grow hlog, ?_⟩
      rw [← h.heard]
      have hcall : handled table (l :: ls') =
          ((table i).cb, (table i).user, l) :: handled table ls' := by
        rw [handled, List.filterMap_cons, if_neg hl.1.noPrompt, hu]
        rfl
      rw [hcall]
      change handlerCalls (w.log ++ [.line .urc l] ++
        [.urc (w.eng.urcTable i).cb (w.eng.urcTable i).user l]) ++ _ = _
      rw [handlerCalls_append, handlerCalls_append, h.urcs, List.append_assoc, List.append_assoc]
      rfl

/-- A byte that completes nothing takes up nothing either. -/
theorem Passes.unaccounted {b : UInt8} (hwrite : env.Delivers) (h : Passes env b w w') :
    GrowsBy (fun ev => ev.unaccounted) w.log w'.log := by
  have hlog : GrowsBy (fun ev : Event cfg => ev.unaccounted) w.log w.log := .refl _
  cases h with
  | more => exact hlog
  | line l v _ hnot hd =>
    change GrowsBy _ w.log v.log
    cases hd with
    | empty => exact hlog
    | echo | ignored => exact hlog.concat rfl
    | urc i => exact (hlog.concat rfl).concat rfl
    | other =>
      rw [accumulate_log]
      exact hlog.concat rfl
    | answered w' _ _ _ ha =>
      have hmore := answerPrompt_growsBy (p := fun ev : Event cfg => ev.unaccounted)
        (fun _ _ _ => rfl) (fun _ => rfl) env (w.eng.queue w.eng.qTail)
        (w.emit (.line (.prompt true) l))
      rw [ha] at hmore
      exact (hlog.concat rfl).trans hmore
    | failed w₁ _ _ _ ha =>
      have hsent := answerPrompt_delivers hwrite (w.eng.queue w.eng.qTail)
        (w.emit (.line (.prompt true) l))
      rw [ha] at hsent
      cases hsent
    | final s c he hp hs hfin => exact absurd ⟨hs, hfin, he, hp⟩ (hnot s c)

end

/-! ### An answer behind news -/

section

variable {table : Fin cfg.urcTableSize → UrcEntry cfg} {e : CmdEntry cfg} {a : Reply}
  {early : List (List UInt8)}

/-- News are not the echo. -/
theorem unechoed_early (hearly : ∀ l ∈ early, Unsolicited table l ∧ ¬e.cmd.bytes <+: l)
    (init : List (List UInt8)) :
    unechoed e.cmd.bytes (early ++ init) = early ++ unechoed e.cmd.bytes init :=
  List.eraseP_append_right _ fun l hl => by simpa using (hearly l hl).2

/-- News are not for the callback. -/
theorem kept_early (hearly : ∀ l ∈ early, Unsolicited table l ∧ ¬e.cmd.bytes <+: l)
    (init : List (List UInt8)) : kept table (early ++ init) = kept table init := by
  have hnone : kept table early = [] := List.filter_eq_nil_iff.mpr fun l hl => by
    have htaken := (hearly l hl).1.taken
    simp [Option.isNone_iff_eq_none, Option.isSome_iff_ne_none.mp htaken]
  rw [kept, List.filter_append]
  exact congrArg (· ++ _) hnone

theorem Reply.Answers.behind (ha : a.Answers e table)
    (hearly : ∀ l ∈ early, Unsolicited table l ∧ ¬e.cmd.bytes <+: l) :
    Payload e table (early ++ a.init) := by
  refine ⟨fun l hl => ?_, fun l hl => ?_, ?_⟩
  · exact (List.mem_append.mp hl).elim (fun hl => (hearly l hl).1.text) (ha.payload.text l)
  · rw [unechoed_early hearly] at hl
    exact (List.mem_append.mp hl).elim (fun hl => (hearly l hl).1.noFinal) (ha.payload.noFinal l)
  · rw [unechoed_early hearly, kept_early hearly]
    exact ha.payload.room

end

theorem FollowUps.aside {k : HookKind} {c : ApiCall} (h : FollowUps k c) : CallbacksAside k c := by
  obtain ⟨rfl, hc⟩ := h
  match c, hc with
  | .send _, _ | .state, _ | .queueDepth, _ => exact ⟨⟨rfl, by simp, by simp⟩, by simp⟩

/-- Hooks that follow up cancel nothing. -/
theorem FollowUps.notCancelled (henv : env.Respects FollowUps) : env.Respects NotCancelling :=
  fun inv s => (henv inv s).mono fun _ hc => hc.aside.1.2

section

variable {table : Fin cfg.urcTableSize → UrcEntry cfg} {w₀ : World cfg σ}
  {before : List (Message cfg)} {e : CmdEntry cfg} {a : Reply} {early late : List (List UInt8)}
  {mid : List (Event cfg)} {bs rest : List UInt8} {w w' : World cfg σ} {b : UInt8} {n : Nat}

/-- A byte of an answer, not its last one. -/
theorem Talking.byte (hfit : cfg.Fits) (hecho : cfg.echoCancel = true)
    (henv : env.Respects CallbacksOnly) (hwrite : env.Delivers)
    (h : Talking table w₀ before e a early late mid (b :: bs) w) (hne : rest ≠ [])
    (hbs : bs = rest ++ stream late)
    (hmid : Midway e table [] (early ++ a.init) a.last (b :: rest) (w.relog mid))
    (hx : processByte (invoke env (n + 1)) env b w = some w') :
    w'.eng.rx = w.eng.rx ∧ ∃ mid', Talking table w₀ before e a early late mid' bs w' := by
  obtain ⟨evs, hlog, hrelog⟩ := processByte_relog hx
  obtain ⟨v, hv, hrx, hmid'⟩ := hmid.byte hfit hecho henv hwrite (h.answers.behind h.ahead)
    h.answers.text n hne
  obtain rfl := Option.some.inj ((hrelog mid).symm.trans hv)
  have hunaccounted : GrowsBy (fun ev => ev.unaccounted) w.log w'.log := by
    rcases processByte_cases hfit henv hwrite b w with ⟨l, s, c, hb, hc⟩ | ⟨v, hpass, hv'⟩
    · -- the command would be completed, but it is still waited for
      rw [hc.processByte hb] at hx
      obtain ⟨v, hfin, rfl⟩ := Option.map_eq_some_iff.mp hx
      obtain ⟨_, _, hl⟩ := hmid'.listening
      have hidle : v.eng.state = .idle := engineFinalize_idle hfin
      rw [show v.eng.state = .waiting from hl.state] at hidle
      cases hidle
    · obtain rfl := Option.some.inj ((hv' n).symm.trans hx)
      exact hpass.unaccounted hwrite
  obtain ⟨past, hcalls, hpast⟩ := h.heard
  refine ⟨hrx, mid ++ evs, h.answers, h.ahead, h.behind, ⟨rest, hne, hbs, hmid'⟩,
    h.account.grow hunaccounted, past, ?_, hpast⟩
  rw [hlog, handlerCalls_append, handlerCalls_append, hcalls, List.append_assoc]

theorem Concludes.handlerCalls {r : Response} {D : List (Event cfg)} (h : Concludes e r D) :
    handlerCalls D = [] := by
  obtain ⟨C, rfl, hC⟩ := h
  refine handlerCalls_eq_nil fun ev hev => ?_
  rcases List.mem_append.mp hev with hev | hev
  · rw [CmdEntry.notice] at hev
    split at hev <;> simp at hev
    rw [hev]
    rfl
  · rcases List.mem_append.mp hev with hev | hev
    · have := hC ev hev
      cases ev <;> first | rfl | cases this
    · rw [List.mem_singleton.mp hev]
      rfl

/-- Hooks that only send leave the URC table alone. -/
theorem engineFinalize_urcTable (hfit : cfg.Fits) (henv : env.Respects FollowUps) {s : AtResult}
    {c : Int} (h : engineFinalize (invoke env (n + 1)) s c w = some w') :
    w'.eng.urcTable = w.eng.urcTable := by
  obtain ⟨w₁, hsent, hw₁⟩ := notify_sends hfit (w.eng.queue w.eng.qTail) (finalResponse s c w.eng)
    (fun f t => (henv (.completion f _ _) t).mono fun _ => And.right)
    (w.putEng (setResponse (finalResponse s c w.eng) w.eng))
  obtain ⟨w₂, hn, hret⟩ := Option.bind_eq_some_iff.mp h
  obtain rfl := Option.some.inj ((hw₁ n).symm.trans hn)
  obtain rfl := Option.some.inj hret
  have htable := congrArg Engine.urcTable hsent.eng
  exact htable

theorem flatMap_news (ls : List (List UInt8)) :
    (ls.map Message.news).flatMap (Message.handlers table) = handled table ls := by
  induction ls with
  | nil => rfl
  | cons l ls ih =>
    rw [List.map_cons, List.flatMap_cons, ih]
    exact (handled_append table [l] ls).symm

/-- The last byte of an answer completes the command with it. -/
theorem Talking.ends (hfit : cfg.Fits) (hecho : cfg.echoCancel = true)
    (henv : env.Respects FollowUps)
    (h : Talking table w₀ before e a early late mid (b :: stream late) w)
    (hmid : Midway e table [] (early ++ a.init) a.last [b] (w.relog mid))
    (hx : processByte (invoke env (n + 1)) env b w = some w') : w'.eng.rx = w.eng.rx ∧
      Idling table w₀ (before ++ .reply e a :: late.map .news) late (stream late) w' := by
  have haside : env.Respects CallbacksAside := fun inv s =>
    (henv inv s).mono fun _ => FollowUps.aside
  obtain ⟨hbyte, ⟨s, c, hfin, hc⟩, armed, hl⟩ := hmid.atLast hecho (h.answers.behind h.ahead)
    h.answers.text h.answers.final fun hpre => by
      obtain ⟨l, hl, hpre'⟩ := h.answers.noEcho hpre
      exact ⟨l, List.mem_append_right _ hl, hpre'⟩
  have hc : Completes w.eng a.last s c := hc
  rw [hc.processByte hbyte] at hx
  obtain ⟨v, hv, rfl⟩ := Option.map_eq_some_iff.mp hx
  obtain ⟨D, hlog, hD⟩ := engineFinalize_callback
    (fun inv s => (haside inv s).mono fun _ hc => hc.1.2) hv
  have hlog : v.log = w.log ++ [.line .final a.last] ++ D := hlog
  have hresponse : finalResponse s c w.eng = a.response e table := by
    have hpool : w.eng.pool.lines = kept table (unechoed e.cmd.bytes (early ++ a.init)) := hl.pool
    have hcount : w.eng.pool.count = w.eng.pool.lines.length := by
      rw [hpool]
      exact hl.count
    rw [unechoed_early h.ahead, kept_early h.ahead] at hpool
    rw [finalResponse, hcount, hpool, Reply.response, hfin]
    rfl
  have hD : Concludes e (a.response e table) D := by
    have hactive : w.eng.queue w.eng.qTail = e := hl.active
    have hsame : Concludes (w.eng.queue w.eng.qTail) (finalResponse s c w.eng) D := hD
    rwa [hactive, hresponse] at hsame
  have hidle : v.eng.state = .idle := engineFinalize_idle hv
  have hrx : v.eng.rx = w.eng.rx := engineFinalize_rx (w := w.emit _) haside hv
  have hurcs : v.eng.urcTable = w.eng.urcTable :=
    engineFinalize_urcTable (w := w.emit _) hfit henv hv
  refine ⟨hrx, hidle, hurcs.trans hl.urcs, fun l hl => ⟨h.behind l hl, ?_⟩, .between _ rfl, ?_, ?_⟩
  · simp [hl]
  · have hline : GrowsBy (fun ev : Event cfg => ev.unaccounted) w.log
        (w.log ++ [.line .final a.last]) := by
      refine .concat (.refl _) ?_
      rfl
    have haccount := ((h.account.grow hline).conclude hD).settle late
    change Account table w₀ _ _ v.log
    rw [hlog]
    simpa using haccount
  · obtain ⟨past, hcalls, hpast⟩ := h.heard
    obtain ⟨evs, hmid, -, hevs⟩ := hl.log
    have hmid : mid = evs := hmid
    change handlerCalls v.log ++ _ = _
    rw [hlog, handlerCalls_append, handlerCalls_append, hD.handlerCalls, hcalls, hmid, hevs,
      unechoed_early h.ahead, List.flatMap_append, List.flatMap_cons, flatMap_news,
      ← List.append_assoc _ _ (_ ++ _), ← hpast]
    rw [handled_append]
    simp [handlerCalls, Message.handlers]

end

/-! ## Calls -/

section

variable {table : Fin cfg.urcTableSize → UrcEntry cfg} {w₀ : World cfg σ}
  {out : List (Message cfg)} {bs unfed : List UInt8} {w w' : World cfg σ} {n : Nat}

/-- **One byte.** -/
theorem Standing.byte (hfit : cfg.Fits) (hecho : cfg.echoCancel = true)
    (henv : env.Respects FollowUps) (hwrite : env.Delivers) {b : UInt8}
    (h : Standing table w₀ out (b :: bs) w)
    (hx : processByte (invoke env (n + 1)) env b w = some w') :
    w'.eng.rx = w.eng.rx ∧ Standing table w₀ out bs w' := by
  have hcallbacks : env.Respects CallbacksOnly := fun inv s =>
    (henv inv s).mono fun _ hc => hc.aside.1
  rcases h with ⟨ls, hi⟩ | ⟨before, e, a, early, late, mid, rfl, ht⟩
  · obtain ⟨hrx, ls', hi'⟩ := hi.byte hfit hcallbacks hwrite hx
    exact ⟨hrx, .inl ⟨ls', hi'⟩⟩
  · obtain ⟨rest, hne, hbs, hmid⟩ := ht.midway
    cases rest with
    | nil => exact absurd rfl hne
    | cons b' rest =>
      obtain ⟨rfl, rfl⟩ := List.cons.inj hbs
      by_cases hrest : rest = []
      · subst hrest
        obtain ⟨hrx, hi⟩ := ht.ends hfit hecho henv hmid hx
        exact ⟨hrx, .inl ⟨late, hi⟩⟩
      · obtain ⟨hrx, mid', ht'⟩ := ht.byte hfit hecho hcallbacks hwrite hrest rfl hmid hx
        exact ⟨hrx, .inr ⟨before, e, a, early, late, mid', rfl, ht'⟩⟩

/-- **The drain loop.** -/
theorem Standing.drains (hfit : cfg.Fits) (hecho : cfg.echoCancel = true)
    (henv : env.Respects FollowUps) (hwrite : env.Delivers) {fuel : Nat}
    (h : Standing table w₀ out (rxringBytes w.eng.rx ++ unfed) w)
    (hx : drainRx (invoke env (n + 1)) env fuel w = some w') :
    Standing table w₀ out unfed w' ∧ rxringBytes w'.eng.rx = [] := by
  obtain ⟨hstand, hempty⟩ := drainRx_run
    (I := fun v => Standing table w₀ out (rxringBytes v.eng.rx ++ unfed) v)
    (fun v v' b rx hv hp hb => by
      rw [rxringPop_bytes hp, List.cons_append] at hv
      have hpop : Standing table w₀ out (b :: (rxringBytes rx ++ unfed))
          (v.putEng { v.eng with rx := rx }) :=
        hv.same ⟨rfl, fun _ => rfl, rfl, rfl, rfl, rfl, rfl, rfl, rfl⟩ (.refl _)
      obtain ⟨hrx, hstand⟩ := hpop.byte hfit hecho henv hwrite hb
      rw [hrx]
      exact hstand) hx h
  rw [hempty, List.nil_append] at hstand
  exact ⟨hstand, hempty⟩

/-- More lines behind those on the way. -/
theorem Remaining.append {g : Engine cfg} {ls : List (List UInt8)} (h : Remaining g ls bs)
    (more : List (List UInt8)) : Remaining g (ls ++ more) (bs ++ stream more) := by
  have hstream (ls : List (List UInt8)) : stream ls ++ stream more = stream (ls ++ more) :=
    List.flatMap_append.symm
  cases h with
  | between ls hs =>
    rw [hstream]
    exact .between _ hs
  | inside q ls hs =>
    rw [List.append_assoc, List.cons_append, List.cons_append, List.cons_append, hstream]
    exact .inside q _ hs
  | ended ls hs =>
    rw [List.cons_append, List.cons_append, hstream]
    exact .ended _ hs

/-- The next command is taken up, and the modem answers it. -/
theorem Idling.starts (hecho : cfg.echoCancel = true) (htx : cfg.txBufSize ≤ 2 ^ 16)
    (hwrite : env.Delivers) {ls : List (List UInt8)} (h : Idling table w₀ out ls unfed w)
    {e : CmdEntry cfg} (he : w.eng.queue w.eng.qTail = e) {a : Reply} (ha : a.Answers e table)
    (hnews : ∀ l, .news l ∈ out → ¬e.cmd.bytes <+: l) :
    Talking table w₀ out e a ls [] [] (unfed ++ stream a.lines) (transmit env w).2 := by
  obtain ⟨evs, hsent, hlog⟩ := transmit_sent env w
  have hevs : ∀ ev ∈ evs, ev.unaccounted ∧ handlerCalls [ev] = [] :=
    hsent.forall (fun _ _ => ⟨rfl, rfl⟩) (fun _ _ => ⟨rfl, rfl⟩) fun _ => ⟨rfl, rfl⟩
  rw [he] at hlog
  have hl := transmitted_listening hecho htx hwrite w he
  rw [h.urcs] at hl
  refine ⟨ha, fun l hl => ⟨(h.news l hl).1, hnews l (h.news l hl).2⟩,
    fun l hl => absurd hl List.not_mem_nil,
    ⟨unfed ++ stream a.lines, ?_, (List.append_nil _).symm, ?_⟩, ?_, ?_⟩
  · exact List.append_ne_nil_of_right_ne_nil _ fun hnil => by
      simpa [Reply.lines] using stream_eq_nil hnil
  · refine ⟨true, [], [], ls ++ a.init, rfl, fun _ l hl => absurd hl List.not_mem_nil, rfl, ?_,
      hl.state, hl.active, hl.urcs, hl.expect, hl.expectLen, hl.armed, hl.pool, hl.count,
      [], rfl, rfl, rfl⟩
    rw [List.append_assoc]
    have heng : ((transmit env w).2.relog []).eng = _ := transmit_eng env w
    refine (h.remaining.append (a.init ++ [a.last])).congr ?_ ?_ <;> rw [heng] <;> rfl
  · rw [hlog]
    exact h.account.ask a fun ev hev => (hevs ev hev).1
  · refine ⟨_, (List.append_nil _).symm, ?_⟩
    rw [← h.heard, hlog, handlerCalls_append,
      handlerCalls_eq_nil (List.forall_mem_cons.mpr ⟨rfl, fun ev hev => (hevs ev hev).2⟩),
      List.append_nil]

/-- What the commands on either side have been is in the account. -/
theorem Standing.asked (h : Standing table w₀ out bs w) :
    LibAt.asked w.log = LibAt.asked w₀.log ++ out.filterMap Message.command := by
  rcases h with ⟨_, hi⟩ | ⟨_, _, _, _, _, _, rfl, ht⟩
  · exact hi.account.asked
  · exact ht.account.asked

/-- **An `at_process`**, and what the modem answers meanwhile. -/
theorem Standing.process (hfit : cfg.Fits) (hecho : cfg.echoCancel = true)
    (htx : cfg.txBufSize ≤ 2 ^ 16) (henv : env.Respects FollowUps) (hwrite : env.Delivers)
    {fuel : Nat} (htime : Timely env fuel w) {replies : List (CmdEntry cfg × Reply)}
    (h : Standing table w₀ out (rxringBytes w.eng.rx ++ unfed) w)
    (hx : exec env fuel .process w = some (.unit, w'))
    (hasked : LibAt.asked w'.log = LibAt.asked w.log ++ replies.map (·.1))
    (hreplies : ∀ p ∈ replies, p.2.Answers p.1 table ∧ ∀ l, .news l ∈ out → ¬p.1.cmd.bytes <+: l) :
    Standing table w₀ (out ++ replies.map fun p => .reply p.1 p.2)
      (rxringBytes w'.eng.rx ++ (unfed ++ replies.flatMap fun p => stream p.2.lines)) w' := by
  obtain ⟨n, u, v, rfl, hu, hcheck, rfl⟩ := exec_process_steps hwrite hx
  obtain ⟨hstand, hempty⟩ := h.drains hfit hecho henv hwrite hu
  obtain rfl : u = v := by
    have hnot : ¬((u.eng.state = .waiting ∨ u.eng.state = .prompt) ∧ u.eng.timerMs = 0) := by
      rintro ⟨hs, ht⟩
      have hwait : u.eng.state = .waiting := by
        refine hs.resolve_right fun hs => ?_
        rcases hstand with ⟨_, hi⟩ | ⟨_, _, _, _, _, _, -, htalk⟩
        · rw [hi.state] at hs
          cases hs
        · obtain ⟨_, -, -, hmid⟩ := htalk.midway
          obtain ⟨_, _, hl⟩ := hmid.listening
          rw [show u.eng.state = .waiting from hl.state] at hs
          cases hs
      exact htime u hu hwait ht
    rw [checkTimeout, if_neg hnot] at hcheck
    exact Option.some.inj hcheck
  rw [started_rx, hempty, List.nil_append]
  have hsame := h.asked.trans hstand.asked.symm
  -- nothing is taken up, so nothing is answered
  have hstay (hu : started env u = u) : Standing table w₀
      (out ++ replies.map fun p => .reply p.1 p.2)
      (unfed ++ replies.flatMap fun p => stream p.2.lines) (started env u) := by
    rw [hu, hsame] at hasked
    have hnil := List.self_eq_append_right.mp hasked
    rw [List.map_eq_nil_iff.mp hnil, hu]
    simpa using hstand
  rcases hstand with ⟨ls, hi⟩ | ⟨_, _, _, _, _, _, -, ht⟩
  · by_cases hcount : u.eng.qCount > 0
    · rw [started, if_pos ⟨hi.state, hcount⟩] at hasked ⊢
      obtain ⟨evs, hsent, hlog⟩ := transmit_sent env u
      obtain ⟨-, -, hevs⟩ := unaccounted_spec (hsent.forall (p := fun ev => ev.unaccounted)
        (fun _ _ => rfl) (fun _ _ => rfl) fun _ => rfl)
      have hone : replies.map (·.1) = [u.eng.queue u.eng.qTail] := by
        rw [hlog, asked_append, hsame] at hasked
        have hstart := List.append_cancel_left hasked
        rw [← List.singleton_append, asked_append, hevs, List.append_nil] at hstart
        exact hstart.symm
      obtain ⟨⟨e, a⟩, rfl, he⟩ := List.map_eq_singleton_iff.mp hone
      obtain ⟨ha, hnews⟩ := hreplies (e, a) List.mem_cons_self
      have htalk := hi.starts hecho htx hwrite (e := e) he.symm ha hnews
      refine .inr ⟨out, e, a, ls, [], [], rfl, ?_⟩
      simpa using htalk
    · exact hstay (if_neg fun h => hcount h.2)
  · refine hstay (if_neg fun h => ?_)
    obtain ⟨_, -, -, hmid⟩ := ht.midway
    obtain ⟨_, _, hl⟩ := hmid.listening
    rw [show u.eng.state = .waiting from hl.state] at h
    cases h.1

/-- **News** go behind what is on the way. -/
theorem Standing.news (h : Standing table w₀ out bs w) {l : List UInt8}
    (hl : Unsolicited table l) : Standing table w₀ (out ++ [.news l]) (bs ++ stream [l]) w := by
  rcases h with ⟨ls, hi⟩ | ⟨before, e, a, early, late, mid, rfl, ht⟩
  · refine .inl ⟨ls ++ [l], hi.state, hi.urcs, fun l' hl' => ?_, hi.remaining.append [l],
      (hi.account.news l).settle [l], ?_⟩
    · rcases List.mem_append.mp hl' with hl' | hl'
      · exact ⟨(hi.news l' hl').1, List.mem_append_left _ (hi.news l' hl').2⟩
      · rw [List.mem_singleton.mp hl']
        exact ⟨hl, by simp⟩
    · rw [handled_append, ← List.append_assoc, hi.heard, List.flatMap_append, List.append_assoc,
        List.flatMap_singleton]
      rfl
  · obtain ⟨rest, hne, hbs, hmid⟩ := ht.midway
    refine .inr ⟨before, e, a, early, late ++ [l], mid, by simp, ht.answers, ht.ahead,
      fun l' hl' => ?_, ⟨rest, hne, ?_, hmid⟩, ?_, ht.heard⟩
    · rcases List.mem_append.mp hl' with hl' | hl'
      · exact ht.behind l' hl'
      · rw [List.mem_singleton.mp hl']
        exact hl
    · rw [hbs, List.append_assoc, stream, stream, ← List.flatMap_append]
      rfl
    · simpa using ht.account.news l

end

/-! ## A short run -/

/-- One command, with news on the way when it is taken up; the answer to it is the line
`l`, behind its echo. -/
def probeRun (l : List UInt8) (w₀ : World Config.default Unit) : Bool :=
  let w := (w₀.send (some probe)).2
  decide (w₀.eng.state = .idle ∧ rxringBytes w₀.eng.rx = [] ∧ w₀.eng.lfsm = .start ∧
    kept w₀.eng.urcTable [l] = [l] ∧ (taker w₀.eng.urcTable (ascii "+X: 1")).isSome ∧
    callbacks w₀.log = []) &&
  (drainRx (invoke plainEnv 64) plainEnv 64 w).all (fun v => v.eng.state != .waiting) &&
  (exec plainEnv 64 .process w).any fun (_, w₁) =>
    let w₂ := w₁.putEng
      (atFeed (stream [ascii "+X: 1"] ++ stream [ascii "AT", l, ascii "OK"]) w₁.eng)
    decide (asked w₁.log = asked w.log ++ [cmdEntryOf _ probe] ∧ rxringUsed w₁.eng.rx = 0) &&
    (drainRx (invoke plainEnv 64) plainEnv 64 w₂).all (fun v => v.eng.state != .waiting) &&
    (exec plainEnv 64 .process w₂).any fun (_, w₃) =>
      decide (asked w₃.log = asked w₁.log ∧ callbacks w₃.log = [(1, 7, ⟨.ok, 0, 1, [l]⟩)] ∧
        handlerCalls w₃.log = [(5, 3, ascii "+X: 1")])

theorem timely_of_all {env : Env σ} {fuel : Nat} {w : World cfg σ}
    (h : (drainRx (invoke env fuel) env fuel w).all (fun v => v.eng.state != .waiting) = true) :
    Timely env fuel w := by
  intro v hv hs
  rw [hv] at h
  simp [hs] at h

theorem exec_process_unit {env : Env σ} {fuel : Nat} {w w' : World cfg σ} {r : ApiRet}
    (h : exec env fuel .process w = some (r, w')) :
    exec env fuel .process w = some (.unit, w') := by
  obtain ⟨v, hv, hret⟩ := Option.map_eq_some_iff.mp h
  obtain ⟨rfl, rfl⟩ := Prod.mk.inj hret
  exact h

/-- Such a run is one of the loop. -/
theorem Loop.of_probeRun {l : List UInt8} (htext : LineText Config.default l)
    (hfinal : engineIsFinal l = none) (hroom : (stream [l]).length ≤ 64)
    (hrun : (execAll plainEnv 64 [.api (.registerUrc (some (ascii "+X")) (some 5) 3)]
      ⟨atInit Config.default, (), []⟩).any (probeRun l) = true) :
    ∃ w₀ w : World Config.default Unit,
      Reachable (fun env _ => env.Respects NotCancelling) w₀ ∧ w₀.eng.state = .idle ∧
      rxringBytes w₀.eng.rx = [] ∧ w₀.eng.lfsm = .start ∧ kept w₀.eng.urcTable [l] = [l] ∧
      callbacks w₀.log = [] ∧ Loop w₀.eng.urcTable w₀ [.news (ascii "+X: 1"),
        .reply (cmdEntryOf _ probe) ⟨[ascii "AT", l], ascii "OK"⟩] [] w ∧
      callbacks w.log = [(1, 7, ⟨.ok, 0, 1, [l]⟩)] ∧
      handlerCalls w.log = [(5, 3, ascii "+X: 1")] := by
  obtain ⟨w₀, h₀, hp⟩ := Reachable.of_execAll (P := fun env _ => env.Respects NotCancelling)
    plainEnv 64 _ () (fun _ => plainEnv_respects _) (probeRun l) hrun
  obtain ⟨hp, hrun⟩ := (Bool.and_eq_true _ _).mp hp
  obtain ⟨hp, ht₁⟩ := (Bool.and_eq_true _ _).mp hp
  obtain ⟨hidle, hring, hfsm, hkept, htaken, hno⟩ := of_decide_eq_true hp
  obtain ⟨⟨_, w₁⟩, hx₁, hrun⟩ := (Option.any_eq_true _ _).mp hrun
  obtain ⟨hp, hrun⟩ := (Bool.and_eq_true _ _).mp hrun
  obtain ⟨hp, ht₂⟩ := (Bool.and_eq_true _ _).mp hp
  obtain ⟨hasked₁, hused⟩ := of_decide_eq_true hp
  obtain ⟨⟨_, w₂⟩, hx₂, hp⟩ := (Option.any_eq_true _ _).mp hrun
  obtain ⟨hasked₂, hcallbacks, hhandlers⟩ := of_decide_eq_true hp
  have hfixed : ∀ m ∈ [ascii "+X: 1", ascii "AT", ascii "OK"], LineText Config.default m := by
    intro m hm
    obtain ⟨h0, h13, h10, h00, hlen⟩ : m ≠ [] ∧ (13 : UInt8) ∉ m ∧ (10 : UInt8) ∉ m ∧
        (0 : UInt8) ∉ m ∧ m.length ≤ Config.default.lineMax - 1 := by
      revert m
      decide
    exact ⟨h0, h13, h10, h00, hlen⟩
  have hunechoed : unechoed (cmdEntryOf Config.default probe).cmd.bytes [ascii "AT", l] = [l] :=
    List.eraseP_cons_of_pos (by decide)
  have hanswers : Reply.Answers ⟨[ascii "AT", l], ascii "OK"⟩
      (cmdEntryOf Config.default probe) w₀.eng.urcTable := by
    have hok : (engineIsFinal (ascii "OK")).isSome := by decide
    have hecho : (cmdEntryOf Config.default probe).cmd.bytes <+: ascii "AT" := by decide
    refine ⟨⟨fun m hm => ?_, ?_, ?_⟩, hfixed _ (by simp), hok,
      fun _ => ⟨_, List.mem_cons_self, hecho⟩⟩
    · rcases List.mem_cons.mp hm with rfl | hm
      · exact hfixed _ (by simp)
      · rw [List.mem_singleton.mp hm]
        exact htext
    · rw [hunechoed]
      simpa using hfinal
    · rw [hunechoed, hkept]
      exact Nat.le_of_ble_eq_true rfl
  have hnews : ¬(cmdEntryOf Config.default probe).cmd.bytes <+: ascii "+X: 1" := by decide
  have hinit : Loop w₀.eng.urcTable w₀ [] [] w₀ := .init
  have hloop := (hinit.send (some probe)).news (ascii "+X: 1")
    ⟨hfixed _ (by simp), by decide, by decide, htaken⟩
  have hloop := hloop.process plainEnv 64 w₁
    [(cmdEntryOf _ probe, ⟨[ascii "AT", l], ascii "OK"⟩)] (plainEnv_respects _)
    plainEnv_delivers (timely_of_all ht₁) (exec_process_unit hx₁) hasked₁ fun p hp => by
      obtain rfl := List.mem_singleton.mp hp
      refine ⟨hanswers, fun l hl => ?_⟩
      obtain rfl := Message.news.inj (List.mem_singleton.mp hl)
      exact hnews
  have hfits : rxringUsed w₁.eng.rx +
      (stream [ascii "+X: 1"] ++ stream [ascii "AT", l, ascii "OK"]).length ≤
        Config.default.rxBufSize := by
    have hcons : stream [ascii "AT", l, ascii "OK"] =
        stream [ascii "AT"] ++ (stream [l] ++ stream [ascii "OK"]) := by simp [stream]
    have hX : (stream [ascii "+X: 1"]).length ≤ 16 := Nat.le_of_ble_eq_true rfl
    have hA : (stream [ascii "AT"]).length ≤ 16 := Nat.le_of_ble_eq_true rfl
    have hO : (stream [ascii "OK"]).length ≤ 16 := Nat.le_of_ble_eq_true rfl
    have hbuf : 128 ≤ Config.default.rxBufSize := Nat.le_of_ble_eq_true rfl
    rw [hcons, hused, List.length_append, List.length_append, List.length_append]
    omega
  have hloop := (hloop.feed (w := w₁) (stream [ascii "+X: 1"] ++
      stream [ascii "AT", l, ascii "OK"]) hfits).process
    plainEnv 64 w₂ [] (plainEnv_respects _) plainEnv_delivers (timely_of_all ht₂)
    (exec_process_unit hx₂) (by simpa using hasked₂) (by simp)
  exact ⟨w₀, w₂, h₀, hidle, hring, hfsm, hkept, hno, hloop, hcallbacks, hhandlers⟩

/-! ## Runs -/

/-- Code around the library that only writes. -/
def Env.passive : Env σ where
  write s data := (data.length, s)
  completion _ _ _ s := .ret s
  handler _ _ _ s := .ret s

theorem Env.passive_respects (allowed : HookKind → ApiCall → Prop) :
    (Env.passive : Env σ).Respects allowed := by
  rintro (⟨f, r, u⟩ | ⟨f, l, u⟩) s <;> trivial

section

variable {table : Fin cfg.urcTableSize → UrcEntry cfg} {w₀ : World cfg σ}
  {out : List (Message cfg)} {unfed : List UInt8} {w : World cfg σ}

/-- The runs of the loop are runs. -/
theorem Loop.reachable (h₀ : Reachable (fun env _ => env.Respects NotCancelling) w₀)
    (h : Loop table w₀ out unfed w) : Reachable (fun env _ => env.Respects NotCancelling) w := by
  have hcall {v : World cfg σ} {r : ApiRet} {v' : World cfg σ} (c : ApiCall) (s : σ)
      (hv : Reachable (fun env _ => env.Respects NotCancelling) v)
      (hx : apiCall (invoke Env.passive 0) 0 c (v.putApp s) = some (r, v')) :
      Reachable (fun env _ => env.Respects NotCancelling) v' :=
    have hrun : exec Env.passive 0 (.api c) (v.putApp s) = some (r, v') := hx
    .step s hv (Env.passive_respects _) hrun
  induction h with
  | init => exact h₀
  | app s _ ih => exact hcall .state s ih rfl
  | @send _ _ w desc _ ih => exact hcall (.send desc) w.app ih rfl
  | @tick _ _ w ms _ ih => exact hcall (.tick ms) w.app ih rfl
  | @feed _ _ w data _ _ ih => exact hcall (.feed data) w.app ih rfl
  | news _ _ _ ih => exact ih
  | @process _ _ w env fuel w' _ _ henv _ _ hx _ _ ih =>
    exact .step w.app ih (FollowUps.notCancelled henv) hx

/-- **The invariant of the loop.** -/
theorem Loop.standing (hfit : cfg.Fits) (hsize : cfg.rxBufSize ≤ 2 ^ 15)
    (htx : cfg.txBufSize ≤ 2 ^ 16) (hecho : cfg.echoCancel = true)
    (h₀ : Reachable (fun env _ => env.Respects NotCancelling) w₀) (hidle : w₀.eng.state = .idle)
    (hring : rxringBytes w₀.eng.rx = []) (hfsm : w₀.eng.lfsm = .start)
    (h : Loop w₀.eng.urcTable w₀ out unfed w) :
    Standing w₀.eng.urcTable w₀ out (rxringBytes w.eng.rx ++ unfed) w := by
  induction h with
  | init =>
    refine .inl ⟨[], hidle, rfl, fun l hl => absurd hl List.not_mem_nil, ?_, ⟨?_, ?_, ?_⟩, ?_⟩
    · rw [hring]
      exact .between [] hfsm
    · exact (List.append_nil _).symm
    · exact (List.append_nil _).symm
    · exact (List.append_nil _).symm
    · rfl
  | app s _ ih => exact ih.same ⟨rfl, fun _ => rfl, rfl, rfl, rfl, rfl, rfl, rfl, rfl⟩ (.refl _)
  | @send out unfed w desc hw ih =>
    rcases w.send_cases desc with hsend | ⟨d, g, hd, hsend⟩ <;> rw [hsend]
    · exact ih
    · -- a command behind the active one
      have hreach := hw.reachable h₀
      have hlife := hreach.lifecycle hfit (hreach.notCancelled fun _ _ henv => henv)
      obtain ⟨-, hu⟩ := (Edit.send w d g hd).queue hfit hlife.queue
      obtain ⟨-, -, rfl⟩ := atSend_ok hd
      refine ih.same ⟨rfl, fun hne => ?_, rfl, rfl, rfl, rfl, rfl, rfl, rfl⟩
        ((GrowsBy.refl _).concat ⟨rfl, rfl⟩)
      exact hu.oldest (hlife.queue.active hne)
  | @tick out unfed w ms _ ih =>
    obtain ⟨t, ht⟩ := atTick_eq ms w.eng
    rw [ht]
    exact ih.same ⟨rfl, fun _ => rfl, rfl, rfl, rfl, rfl, rfl, rfl, rfl⟩ (.refl _)
  | @feed out unfed w data _ hroom ih =>
    obtain ⟨hrx, hbytes⟩ := atFeed_fits data (g := w.eng) hroom (by omega)
    rw [World.putEng_eng, hrx, hbytes, List.append_assoc]
    exact ih.same ⟨rfl, fun _ => rfl, rfl, rfl, rfl, rfl, rfl, rfl, rfl⟩ (.refl _)
  | news l _ hl ih =>
    rw [← List.append_assoc]
    exact ih.news hl
  | process env fuel w' replies _ henv hwrite htime hx hasked hreplies ih =>
    exact ih.process hfit hecho htx henv hwrite htime hx hasked hreplies

/-- What a call of `at_process` does for the commands: it returns, it takes every byte out
of the ring, and where it leaves the engine idle nothing is in the queue, and what was
accepted has been completed. -/
def Serves (env : Env σ) (w : World cfg σ) : Prop :=
  ∃ k w', (∀ fuel, k < fuel → exec env fuel .process w = some (.unit, w')) ∧
    rxringBytes w'.eng.rx = [] ∧ (w'.eng.state = .idle → w'.eng.qCount = 0 ∧
      completions w'.log = (acceptances w'.log).map (cmdEntryOf cfg))

/-- What the engine and the modem agree on: the messages `settled` are settled, and of the
others at most the answer to the active command is not news. -/
structure Understood (table : Fin cfg.urcTableSize → UrcEntry cfg) (w₀ : World cfg σ)
    (out settled : List (Message cfg)) (unfed : List UInt8) (w : World cfg σ) : Prop where
  agreed : settled <+: out
  callbacks : LibAt.callbacks w.log =
    LibAt.callbacks w₀.log ++ settled.filterMap (Message.callback table)
  completed : completions w.log = completions w₀.log ++ settled.filterMap Message.command
  /-- an accepted command is completed or still in the queue -/
  accepted : (acceptances w.log).map (cmdEntryOf cfg) = completions w.log ++ w.eng.pending
  /-- of those taken up only the active command is still to be completed -/
  owed : out.filterMap Message.command = settled.filterMap Message.command ++
    if w.eng.state = .idle then [] else [w.eng.queue w.eng.qTail]
  /-- the modem is asked in the order of acceptance -/
  order : completions w₀.log ++ out.filterMap Message.command <+:
    (acceptances w.log).map (cmdEntryOf cfg)
  handlers : handlerCalls w.log <+:
    handlerCalls w₀.log ++ out.flatMap (Message.handlers table)
  /-- when all has come in, nothing is open -/
  quiet : rxringBytes w.eng.rx = [] → unfed = [] → w.eng.state = .idle ∧
    handlerCalls w.log = handlerCalls w₀.log ++ out.flatMap (Message.handlers table)
  /-- and the engine goes on -/
  serves : ∀ env : Env σ, env.Respects FollowUps → env.Delivers → Serves env w

/-- **The engine serves.** -/
theorem Reachable.serves (hfit : cfg.Fits)
    (h : Reachable (fun env _ => env.Respects NotCancelling) w) (henv : env.Respects FollowUps)
    (hwrite : env.Delivers) : Serves env w := by
  have haside : env.Respects CallbacksAside := fun inv s =>
    (henv inv s).mono fun _ => FollowUps.aside
  obtain ⟨k, w', hx⟩ := exec_process_returns hfit
    (fun inv s => (haside inv s).mono fun _ => And.left) hwrite w
  have hrun := hx (k + 1) (Nat.lt_succ_self k)
  have hreach := h.step w.app (FollowUps.notCancelled henv) hrun
  have hlife := hreach.lifecycle hfit (hreach.notCancelled fun _ _ henv => henv)
  obtain ⟨n, u, v, -, hu, hcheck, rfl⟩ := exec_process_steps hwrite hrun
  refine ⟨k, _, hx, ?_, fun hidle => ?_⟩
  · have hempty := (drainRx_run (I := fun _ => True) (fun _ _ _ _ _ _ _ => trivial) hu trivial).2
    have hrx : v.eng.rx = u.eng.rx := by
      rw [checkTimeout] at hcheck
      split at hcheck
      · exact engineFinalize_rx haside hcheck
      · rw [Option.some.inj hcheck]
    rw [started_rx, hrx, hempty]
  · have hcount := started_idle hidle
    have horder := hlife.accepted_eq
    rw [Engine.pending, hcount, Circular.window_zero, List.append_nil] at horder
    exact ⟨hcount, horder.symm⟩

theorem Remaining.nil {g : Engine cfg} {ls : List (List UInt8)} {bs : List UInt8}
    (h : Remaining g ls bs) (hbs : bs = []) : ls = [] := by
  cases h with
  | between ls _ => exact stream_eq_nil hbs
  | inside q ls _ => simp at hbs
  | ended ls _ => cases hbs

/-- Where the two stand, they understand each other. -/
theorem Standing.understood {table : Fin cfg.urcTableSize → UrcEntry cfg}
    (hfit : cfg.Fits) (h : Standing table w₀ out (rxringBytes w.eng.rx ++ unfed) w)
    (hreach : Reachable (fun env _ => env.Respects NotCancelling) w) :
    ∃ settled, Understood table w₀ out settled unfed w := by
  have hlife := hreach.lifecycle hfit (hreach.notCancelled fun _ _ henv => henv)
  have horder := hlife.accepted_eq
  have hserves (env : Env σ) (henv : env.Respects FollowUps) (hwrite : env.Delivers) :
      Serves env w := hreach.serves hfit henv hwrite
  rcases h with ⟨ls, hi⟩ | ⟨before, e, a, early, late, mid, rfl, ht⟩
  · refine ⟨out, List.prefix_rfl, hi.account.callbacks, hi.account.completed, horder, ?_, ?_, ?_,
      ?_, hserves⟩
    · rw [if_pos hi.state, List.append_nil]
    · rw [← hi.account.completed, horder]
      exact List.prefix_append _ _
    · rw [← hi.heard]
      exact List.prefix_append _ _
    · intro hrx hunfed
      have hls := hi.remaining.nil (by rw [hrx, hunfed, List.append_nil])
      refine ⟨hi.state, ?_⟩
      rw [← hi.heard, hls]
      exact (List.append_nil _).symm
  · obtain ⟨rest, hne, hbs, armed, heard, done, todo, -, -, hheard, -, hl⟩ := ht.midway
    have hwait : w.eng.state = .waiting := hl.state
    have hactive : w.eng.queue w.eng.qTail = e := hl.active
    have hcommands : (before ++ Message.reply e a :: late.map .news).filterMap Message.command =
        before.filterMap Message.command ++ [e] := by
      rw [List.filterMap_append, List.filterMap_cons, List.filterMap_map]
      simp [Function.comp_def, Message.command]
    refine ⟨before, List.prefix_append _ _, ht.account.callbacks, ht.account.completed, horder, ?_,
      ?_, ?_, fun hrx hunfed => ?_, hserves⟩
    · rw [if_neg (by simp [hwait]), hactive, hcommands]
    · rw [hcommands, ← List.append_assoc, ← ht.account.completed, ← hactive]
      exact hlife.oldest (hlife.queue.active (by simp [hwait]))
    · obtain ⟨past, hcalls, hpast⟩ := ht.heard
      obtain ⟨evs, hmid, -, hevs⟩ := hl.log
      have hmid : mid = evs := hmid
      obtain ⟨more, hmore⟩ : ∃ more, handled table heard ++ more =
          handled table early ++ handled table (unechoed e.cmd.bytes a.init) := by
        rw [unechoed_early ht.ahead] at hheard
        exact ⟨_, by rw [← handled_append, ← handled_append, ← hheard]⟩
      refine ⟨more ++ handled table late, ?_⟩
      rw [hcalls, hmid, hevs, List.flatMap_append, List.flatMap_cons, flatMap_news,
        ← List.append_assoc (handlerCalls w₀.log), ← hpast, List.append_assoc, List.append_assoc,
        ← List.append_assoc _ more, hmore, List.append_assoc]
      rfl
    · rw [hrx, hunfed] at hbs
      exact absurd (List.append_eq_nil_iff.mp hbs.symm).1 hne

/-- From a state in which no command is active and nothing has come in, the engine and a
modem that answers what it is asked understand each other. -/
theorem Loop.understood (hfit : cfg.Fits) (hsize : cfg.rxBufSize ≤ 2 ^ 15)
    (htx : cfg.txBufSize ≤ 2 ^ 16) (hecho : cfg.echoCancel = true)
    (h₀ : Reachable (fun env _ => env.Respects NotCancelling) w₀) (hidle : w₀.eng.state = .idle)
    (hring : rxringBytes w₀.eng.rx = []) (hfsm : w₀.eng.lfsm = .start)
    (h : Loop w₀.eng.urcTable w₀ out unfed w) :
    ∃ settled, Understood w₀.eng.urcTable w₀ out settled unfed w := by
  exact (h.standing hfit hsize htx hecho h₀ hidle hring hfsm).understood hfit (h.reachable h₀)

end

end LibAt
