import LibAt.Acceptance
import LibAt.Callback
import LibAt.Lines

/-!
# Which configurations are sound

The static assertions of `at_config.h` are there to catch bad settings. They ask
for powers of two and for sizes that are not zero, but not that a size fits the
variable that counts up to it. `Sound` is what every state of a run should
satisfy whatever the setting: the counters say what is there, the searches of the
URC table end, the ring keeps what it accepts, and a zero timeout stands for the
default. A setting that is `Sized` as well has this, in the middle of calls too;
for any other setting there is a run, with hooks that call nothing, that reaches a
state without it (`sound_iff`).
-/

namespace LibAt

variable {cfg : Config} {σ : Type}

/-- The sizes fit the variables the engine keeps them in. -/
structure Config.Sized (cfg : Config) : Prop extends cfg.Fits where
  rx : cfg.rxBufSize ≤ 2 ^ 15
  timeout : cfg.defaultTimeoutMs < 2 ^ 16

/-- What a setting should guarantee of a state. -/
structure Sound (w : World cfg σ) : Prop where
  /-- `q_count` is the number of commands accepted and not completed -/
  queue : (acceptances w.log).length = (completions w.log).length + w.eng.qCount
  depth : w.eng.qCount ≤ cfg.cmdQueueDepth
  /-- the loops over the URC table end -/
  register : ∀ pre cb user, ∃ r, atRegisterUrc pre cb user w.eng = some r
  deregister : ∀ pre, ∃ r, atDeregisterUrc pre w.eng = some r
  dispatch : ∀ l, ∃ r, urcMatch l w.eng = some r
  /-- a response reports as many lines as were kept, the first ones received -/
  lines : w.eng.state ≠ .idle → ∀ s c,
    (finalResponse s c w.eng).numLines = min cfg.respLinesMax (received w.log).length
  lines_le : ∀ s c, (finalResponse s c w.eng).numLines ≤ cfg.respLinesMax
  /-- a byte the ring accepts comes out behind the others -/
  push : ∀ b r, rxringPush w.eng.rx b = some r → rxringBytes r = rxringBytes w.eng.rx ++ [b]
  pop : ∀ b r, rxringPop w.eng.rx = some (b, r) → rxringBytes w.eng.rx = b :: rxringBytes r
  drained : rxringPop w.eng.rx = none → rxringBytes w.eng.rx = []
  /-- a command with a zero timeout gets the default -/
  timeout : ∀ d g, atSend (some d) w.eng = (.ok, g) → d.timeoutMs = 0 →
    (g.queue w.eng.qHead).timeoutMs = cfg.defaultTimeoutMs

/-- The setting is sound between the calls of every run in which no completion
callback cancels a command. -/
def SoundConfig (cfg : Config) : Prop :=
  ∀ {σ : Type} (P : Env σ → TopCall → Prop) (w : World cfg σ),
    Reachable P w → ¬Cancelled w.log → Sound w

/-- It is sound in the middle of calls too. -/
def SoundThroughout (cfg : Config) : Prop :=
  ∀ {σ : Type} (s : σ) (st : List (Frame cfg)) (w : World cfg σ),
    Steps (fun _ _ => True) ([], ⟨atInit cfg, s, []⟩) (st, w) → ¬Cancelled w.log → Sound w

/-! ## Sized settings -/

/-- What the pool counter counts. -/
theorem Collecting.count {w : World cfg σ} (h : Collecting w) (hs : w.eng.state ≠ .idle) :
    w.eng.pool.count = min cfg.respLinesMax (received w.log).length := by
  have hlen := congrArg List.length (h.pool hs)
  have hle := h.count_le
  rw [RespPool.lines, List.length_take, List.length_ofFn, List.length_take] at hlen
  omega

/-- **A sized setting is sound**, wherever a run has got to. -/
theorem Config.Sized.soundThroughout (hsized : cfg.Sized) : SoundThroughout cfg := by
  intro σ s st w hsteps hc
  have hfit : cfg.Fits := hsized.toFits
  have hlife : Lifecycle (st, w) := by
    refine hsteps.invariant (I := fun t => ¬Cancelled t.2.log → Lifecycle t)
      (fun t u hstep ih hcu => ?_) (fun _ => Lifecycle.init s) hc
    exact Lifecycle.step hfit hstep hcu (ih fun hct => hcu (hct.mono hstep.log_mono))
  have hpool : Collecting w := by
    refine hsteps.invariant (I := fun t => Collecting t.2) (fun _ _ ht ih => ih.step hfit ht) ?_
    exact ⟨Nat.zero_le _, Nat.zero_le _, fun hne => absurd rfl hne, by simp [SeesFirstLines]⟩
  refine ⟨hlife.count, hlife.queue.count_le, ?_, ?_, ?_, ?_, ?_, ?_, ?_, ?_, ?_⟩
  · exact fun pre cb user => atRegisterUrc_isSome hfit pre cb user w.eng
  · exact fun pre => atDeregisterUrc_isSome hfit pre w.eng
  · exact fun l => urcSearch_isSome hfit _
  · exact fun hs _ _ => hpool.count hs
  · exact fun _ _ => hpool.count_le
  · intro b r hp
    refine rxringPush_bytes hp ?_
    have hroom : ¬rxringUsed w.eng.rx ≥ cfg.rxBufSize := fun hge => by
      rw [rxringPush, if_pos hge] at hp
      cases hp
    have hrx := hsized.rx
    omega
  · exact fun b r hp => rxringPop_bytes hp
  · exact fun hp => (rxringPop_none hp).1
  · intro d g hd h0
    rw [atSend_stored hd]
    change (if d.timeoutMs ≠ 0 then d.timeoutMs else cfg.defaultTimeoutMs % 2 ^ 16) = _
    rw [if_neg (not_not.mpr h0), Nat.mod_eq_of_lt hsized.timeout]

theorem SoundThroughout.soundConfig (h : SoundThroughout cfg) : SoundConfig cfg := by
  intro σ P w hreach hc
  obtain ⟨s, hsteps⟩ := hreach.steps_any
  exact h s [] w hsteps hc

/-! ## Settings that are not

Each bound that is missed has its run. The hooks of these runs call nothing. -/

/-- Runs with silent hooks. -/
abbrev SilentRun (w : World cfg Unit) : Prop := Reachable (fun env _ => env.Silent) w

theorem SoundConfig.of_silent (h : SoundConfig cfg) {w : World cfg Unit} (hw : SilentRun w) :
    Sound w :=
  h _ w hw (hw.notCancelled fun _ _ henv => Env.Silent.respects henv)

/-- The run that has made no call. -/
theorem SilentRun.init : SilentRun (⟨atInit cfg, (), []⟩ : World cfg Unit) :=
  Reachable.init ()

/-- A run goes on with a call in the environment whose writes succeed. -/
theorem SilentRun.call {w w' : World cfg Unit} (hw : SilentRun w) {fuel : Nat} {c : TopCall}
    {r : ApiRet} (h : exec plainEnv fuel c w = some (r, w')) : SilentRun w' :=
  Reachable.step w.app hw plainEnv_silent h

theorem SilentRun.feed {w : World cfg Unit} (hw : SilentRun w) (data : List UInt8) :
    SilentRun (w.putEng (atFeed data w.eng)) :=
  hw.call (show exec plainEnv 0 (.api (.feed data)) w = some (.unit, _) from rfl)

theorem SilentRun.send {w : World cfg Unit} (hw : SilentRun w) {d : CmdDesc} {g : Engine cfg}
    (hd : atSend (some d) w.eng = (.ok, g)) : SilentRun ((w.putEng g).emit (.accepted d)) := by
  have hx : exec plainEnv 0 (.api (.send (some d))) w =
      some (.result (w.send (some d)).1, (w.send (some d)).2) := rfl
  have hsend : w.send (some d) = (.ok, (w.putEng g).emit (.accepted d)) := by
    rw [World.send, hd]
  rw [hsend] at hx
  exact hw.call hx

/-! ### The default timeout -/

theorem SoundConfig.timeout_lt (h : SoundConfig cfg) : cfg.defaultTimeoutMs < 2 ^ 16 := by
  obtain ⟨g, hd, hstored⟩ := atSend_accepted (d := probe) (g := atInit cfg) (by decide) cfg.depth_ge
  have heq := (h.of_silent .init).timeout probe g hd rfl
  rw [show g.queue _ = _ from hstored] at heq
  have hmod : cfg.defaultTimeoutMs % 2 ^ 16 = cfg.defaultTimeoutMs := heq
  have hlt := Nat.mod_lt cfg.defaultTimeoutMs (Nat.two_pow_pos 16)
  omega

/-! ### The URC table -/

/-- An 8-bit index never gets to the end of a table of 256 entries. -/
theorem uint8Search_endless {n : Nat} (hn : 256 ≤ n) (rounds : Nat) :
    ∀ i, i < 256 → uint8Search (fun _ : Fin n => false) rounds i = none := by
  induction rounds with
  | zero => exact fun _ _ => rfl
  | succ rounds ih =>
    intro i hi
    rw [uint8Search, dif_pos (by omega), if_neg (by simp)]
    exact ih _ (Nat.mod_lt _ (by decide))

/-- The first registration never returns. -/
theorem SoundConfig.urc_le (h : SoundConfig cfg) : cfg.urcTableSize ≤ 255 := by
  by_contra hlarge
  obtain ⟨r, hr⟩ := (h.of_silent .init).register (some []) (some 0) 0
  obtain ⟨m, hm, -⟩ := Option.bind_eq_some_iff.mp hr
  have hnone := uint8Search_endless (Nat.lt_of_not_le hlarge) 256 0 (by decide)
  rw [urcSearch] at hm
  rw [show (fun i => ((atInit cfg).urcTable i).registered []) = fun _ => false from rfl] at hm
  rw [hnone] at hm
  cases hm

/-! ### The ring -/

/-- A ring of 2^16 bytes reads as empty when it is full. -/
theorem SoundConfig.rx_le (h : SoundConfig cfg) : cfg.rxBufSize ≤ 2 ^ 15 := by
  by_contra hlarge
  obtain ⟨k, hk⟩ := cfg.rx_pow2.exists_eq
  have hsize : 2 ^ 16 ≤ cfg.rxBufSize := by
    rw [hk] at hlarge ⊢
    have hlt : 15 < k := (Nat.pow_lt_pow_iff_right (by decide)).mp (Nat.lt_of_not_le hlarge)
    exact Nat.pow_le_pow_right (by decide) hlt
  -- one byte less than the ring holds
  obtain ⟨data, hdata⟩ : ∃ data : List UInt8, data.length = 65535 :=
    ⟨List.replicate 65535 0, List.length_replicate⟩
  have hempty : rxringUsed (atInit cfg).rx = 0 := by simp [rxringUsed, atInit]
  obtain ⟨hrx, hbytes⟩ := atFeed_fits data (g := atInit cfg) (by omega) (by omega)
  have hused : rxringUsed (atFeed data (atInit cfg)).rx = 65535 := by
    rw [hrx, ← length_rxringBytes, hbytes, List.length_append, length_rxringBytes, hempty, hdata]
  obtain ⟨r, hr⟩ : ∃ r, rxringPush (atFeed data (atInit cfg)).rx 0 = some r :=
    ⟨_, if_neg (by omega)⟩
  have hlen := congrArg List.length ((h.of_silent (SilentRun.init.feed data)).push 0 r hr)
  rw [List.length_append, length_rxringBytes, length_rxringBytes, World.putEng_eng, hused,
    List.length_singleton] at hlen
  have hlt : rxringUsed r < 2 ^ 16 := (r.head - r.tail).toNat_lt
  omega

/-! ### The queue -/

/-- The queue counter is back at zero when 256 commands have been accepted. -/
theorem accept_many (hdepth : 256 ≤ cfg.cmdQueueDepth) (n : Nat) (hn : n ≤ 256) :
    ∃ w : World cfg Unit, SilentRun w ∧ w.eng.qCount = n % 256 ∧
      (acceptances w.log).length = n ∧ completions w.log = [] := by
  induction n with
  | zero => exact ⟨_, .init, rfl, rfl, rfl⟩
  | succ n ih =>
    obtain ⟨w, hw, hcount, hacc, hcomp⟩ := ih (by omega)
    have hroom : w.eng.qCount < cfg.cmdQueueDepth := by
      have hlt := Nat.mod_lt n (show 0 < 256 by decide)
      omega
    obtain ⟨g, hd, -⟩ := atSend_accepted (d := probe) (by decide) hroom
    refine ⟨(w.putEng g).emit (.accepted probe), hw.send hd, ?_, ?_, ?_⟩
    · obtain ⟨-, -, rfl⟩ := atSend_ok hd
      change (w.eng.qCount + 1) % 256 = _
      omega
    · rw [World.emit_log, acceptances, List.filterMap_append, List.length_append]
      exact congrArg (· + 1) hacc
    · rw [World.emit_log, completions_append]
      exact congrArg (· ++ []) hcomp

theorem SoundConfig.depth_le (h : SoundConfig cfg) : cfg.cmdQueueDepth ≤ 255 := by
  by_contra hlarge
  obtain ⟨w, hw, hcount, hacc, hcomp⟩ :=
    accept_many (Nat.lt_of_not_le hlarge) 256 (Nat.le_refl _)
  have hqueue := (h.of_silent hw).queue
  rw [hacc, hcomp, hcount] at hqueue
  cases hqueue

/-! ### The response pool -/

/-- A command is waited for, with nothing in the ring and no handler registered;
`n` lines have been received, and perhaps the first byte of another. -/
structure Hearing (n : Nat) (inside : Bool) (w : World cfg Unit) : Prop where
  run : SilentRun w
  state : w.eng.state = .waiting
  timer : 0 < w.eng.timerMs
  fsm : if inside then w.eng.lfsm = .data ∧ w.eng.line = [66] else w.eng.lfsm = .start
  ring : rxringBytes w.eng.rx = []
  table : ∀ i, (w.eng.urcTable i).active = false
  heard : (received w.log).length = n
  count : w.eng.pool.count = n % 256

/-- A byte is fed and taken. -/
theorem SilentRun.hear {w u : World cfg Unit} (hw : SilentRun w)
    (hring : rxringBytes w.eng.rx = []) {b : UInt8}
    (hb : processByte (quiet plainEnv) plainEnv b w = some u) (hs : u.eng.state = .waiting)
    (htime : 0 < u.eng.timerMs) :
    ∃ rx : RxRing cfg, rxringBytes rx = [] ∧ SilentRun (u.mapEng (setRx rx)) := by
  have hrx := cfg.rx_pos
  have hused : rxringUsed w.eng.rx = 0 := by rw [← length_rxringBytes, hring, List.length_nil]
  obtain ⟨hstored, hbytes⟩ := atFeed_fits [b] (g := w.eng) (by simp [hused]; omega) (by simp [hused])
  rw [hring, List.nil_append] at hbytes
  have hfed : w.putEng (atFeed [b] w.eng) = w.mapEng (setRx (w.eng.rx.stored [b])) := by
    rw [World.mapEng, setRx, ← hstored]
    rfl
  have hone : rxringUsed (w.mapEng (setRx (w.eng.rx.stored [b]))).eng.rx < 2 := by
    change rxringUsed (w.eng.rx.stored [b]) < 2
    rw [← length_rxringBytes, hbytes]
    exact Nat.lt_succ_self 1
  have hprocess := exec_process plainEnv_silent hone
  have hconsume : consume (quiet plainEnv) plainEnv [b] (w.mapEng (setRx (w.eng.rx.stored [b]))) =
      some (u.mapEng (setRx (w.eng.rx.stored [b]))) := by
    rw [consume_mapEng (setRx_inert _) (quiet_unnoticed _) fun _ _ => rfl, consume, hb]
    rfl
  have hidle : afterDrain plainEnv (u.mapEng (setRx (w.eng.rx.stored [b]).drained)) =
      some (u.mapEng (setRx (w.eng.rx.stored [b]).drained)) := by
    have hs' : (u.mapEng (setRx (w.eng.rx.stored [b]).drained)).eng.state = .waiting := hs
    have htime' : 0 < (u.mapEng (setRx (w.eng.rx.stored [b]).drained)).eng.timerMs := htime
    rw [afterDrain, checkTimeout, if_neg (by omega), Option.bind_some, startIfIdle,
      if_neg fun hi => absurd (hs'.symm.trans hi.1) (by decide)]
  refine ⟨(w.eng.rx.stored [b]).drained, rxringEmpty_iff.mp (beq_self_eq_true _), ?_⟩
  have hrun := hw.feed [b]
  rw [hfed] at hrun
  refine hrun.call (r := .unit) (hprocess.trans ?_)
  change (((consume _ _ (rxringBytes (w.eng.rx.stored [b])) _).map _).bind _).map _ = _
  rw [hbytes, hconsume]
  exact congrArg (Option.map _) hidle

/-- The first byte of a line. -/
theorem Hearing.begin {n : Nat} {w : World cfg Unit} (h : Hearing n false w) :
    ∃ w' : World cfg Unit, Hearing n true w' ∧ w'.eng.echoArmed = w.eng.echoArmed := by
  have hs : w.eng.lfsm = .start := h.fsm
  have hb : processByte (quiet plainEnv) plainEnv 66 w =
      some (w.putEng { w.eng with line := [66], lfsm := .data }) := by
    simp [processByte, lfsmByte, hs]
  obtain ⟨rx, hrx, hrun⟩ := h.run.hear h.ring hb h.state h.timer
  exact ⟨_, ⟨hrun, h.state, h.timer, ⟨rfl, rfl⟩, hrx, h.table, h.heard, h.count⟩, rfl⟩

/-- The line is dispatched behind its last byte. -/
theorem Hearing.end {n : Nat} {w u : World cfg Unit} (h : Hearing n true w)
    (hd : engineDispatchLine (quiet plainEnv) plainEnv [66] w = some u)
    (hs : u.eng.state = .waiting) (htime : 0 < u.eng.timerMs) :
    ∃ rx : RxRing cfg, rxringBytes rx = [] ∧ SilentRun ((lineDone u).mapEng (setRx rx)) := by
  obtain ⟨hfsm, hline⟩ := h.fsm
  have hbyte : lfsmByte 10 w.eng = .line [66] := by simp [lfsmByte, hfsm, hline]
  refine h.run.hear h.ring (b := 10) ?_ hs htime
  rw [processByte, hbyte]
  dsimp only
  rw [hd]
  rfl

/-- The line is taken for the echo, and the next one will not be. -/
theorem Hearing.echoed {n : Nat} {w : World cfg Unit} (h : Hearing n true w)
    (hecho : isEcho w.eng [66] = true) :
    ∃ w' : World cfg Unit, Hearing n false w' ∧ w'.eng.echoArmed = false := by
  have hd : engineDispatchLine (quiet plainEnv) plainEnv [66] w =
      some ((w.putEng { w.eng with echoArmed := false }).emit (.line .echo [66])) := by
    rw [engineDispatchLine, if_neg (by simp), if_pos hecho]
  obtain ⟨rx, hrx, hrun⟩ := h.end hd h.state h.timer
  refine ⟨_, ⟨hrun, h.state, h.timer, rfl, hrx, h.table, ?_, h.count⟩, rfl⟩
  have hsame : received (w.log ++ [.line .echo [66]]) = received w.log := by
    rw [received_append]
    rfl
  exact (congrArg List.length hsame).trans h.heard

/-- The line is kept. -/
theorem Hearing.kept (hurc : cfg.urcTableSize ≤ 255) (hlines : 256 ≤ cfg.respLinesMax) {n : Nat}
    {w : World cfg Unit} (h : Hearing n true w) (hecho : isEcho w.eng [66] = false) :
    ∃ w' : World cfg Unit, Hearing (n + 1) false w' := by
  have hmatch : urcMatch [66] w.eng = some none := by
    rw [urcMatch, urcSearch, uint8Search_find hurc _ 256 0 (Nat.zero_le _) (by omega)]
    congr 1
    rw [List.find?_eq_none]
    intro i _
    simp [h.table i]
  have hroom : w.eng.pool.count < cfg.respLinesMax := by
    have hlt := Nat.mod_lt n (show 0 < 256 by decide)
    have hcount := h.count
    omega
  obtain ⟨p, happend, hp⟩ : ∃ p, respPoolAppend w.eng.pool [66] = some p ∧
      p.count = (w.eng.pool.count + 1) % 256 := ⟨_, dif_pos hroom, rfl⟩
  have hd : engineDispatchLine (quiet plainEnv) plainEnv [66] w =
      some ((w.emit (.line .payload [66])).putEng { w.eng with pool := p }) := by
    rw [engineDispatchLine, if_neg (by simp), if_neg (by simp [hecho]),
      if_neg (by simp [isPrompt]), if_pos h.state, show engineIsFinal [66] = none by decide]
    dsimp only
    rw [urcDispatch, hmatch]
    exact congrArg some (accumulate_some h.state happend)
  obtain ⟨rx, hrx, hrun⟩ := h.end hd h.state h.timer
  refine ⟨_, hrun, h.state, h.timer, rfl, hrx, h.table, ?_, ?_⟩
  · have hmore : received (w.log ++ [.line .payload [66]]) = received w.log ++ [[66]] := by
      rw [received_append]
      rfl
    refine (congrArg List.length hmore).trans ?_
    rw [List.length_append, h.heard, List.length_singleton]
  · change p.count = _
    rw [hp, h.count]
    omega

/-- **One more line** is received. -/
theorem Hearing.next (hurc : cfg.urcTableSize ≤ 255) (hlines : 256 ≤ cfg.respLinesMax) {n : Nat}
    {w : World cfg Unit} (h : Hearing n false w) :
    ∃ w' : World cfg Unit, Hearing (n + 1) false w' := by
  obtain ⟨w₁, h₁, -⟩ := h.begin
  cases hecho : isEcho w₁.eng [66] with
  | false => exact h₁.kept hurc hlines hecho
  | true =>
    obtain ⟨w₂, h₂, harmed₂⟩ := h₁.echoed hecho
    obtain ⟨w₃, h₃, harmed₃⟩ := h₂.begin
    exact h₃.kept hurc hlines (by simp [isEcho, harmed₃, harmed₂])

/-- A command is in the queue, and nothing else has happened. -/
theorem exists_queued (cfg : Config) : ∃ w : World cfg Unit, SilentRun w ∧ w.eng.state = .idle ∧
    0 < w.eng.qCount ∧ (w.eng.queue w.eng.qTail).timeoutMs = 1 ∧ w.eng.lfsm = .start ∧
      rxringUsed w.eng.rx = 0 ∧ ∀ i, (w.eng.urcTable i).active = false := by
  obtain ⟨g, hd, hstored⟩ :=
    atSend_accepted (d := { probe with timeoutMs := 1 }) (g := atInit cfg) (by decide) cfg.depth_ge
  have hsent := SilentRun.init.send hd
  obtain ⟨-, -, rfl⟩ := atSend_ok hd
  refine ⟨_, hsent, rfl, Nat.zero_lt_one, ?_, rfl, ?_, fun _ => rfl⟩
  · exact congrArg CmdEntry.timeoutMs hstored
  · simp [rxringUsed, atInit]

/-- It is started. -/
theorem exists_hearing (cfg : Config) : ∃ w : World cfg Unit, Hearing 0 false w := by
  obtain ⟨w, hw, hidle, hcount, htime, hfsm, hused, htable⟩ := exists_queued cfg
  have hempty : rxringBytes w.eng.rx = [] :=
    List.length_eq_zero_iff.mp ((length_rxringBytes _).trans hused)
  have hdelivers : plainEnv.Delivers := fun _ _ => rfl
  have hstarted : started plainEnv (w.mapEng (setRx w.eng.rx.drained)) =
      (transmit plainEnv (w.mapEng (setRx w.eng.rx.drained))).2 := if_pos ⟨hidle, hcount⟩
  have hstart : exec plainEnv 1 .process w =
      some (.unit, (transmit plainEnv (w.mapEng (setRx w.eng.rx.drained))).2) := by
    have hnone : ¬(((w.mapEng (setRx w.eng.rx.drained)).eng.state = .waiting ∨
        (w.mapEng (setRx w.eng.rx.drained)).eng.state = .prompt) ∧
          (w.mapEng (setRx w.eng.rx.drained)).eng.timerMs = 0) := by
      rintro ⟨hs | hs, -⟩
      · exact absurd (hidle.symm.trans hs) (by decide)
      · exact absurd (hidle.symm.trans hs) (by decide)
    rw [exec_process plainEnv_silent (by omega), hempty, consume, Option.map_some, Option.bind_some,
      afterDrain, checkTimeout, if_neg hnone, Option.bind_some, startIfIdle_delivers hdelivers,
      hstarted]
    rfl
  have heng := transmit_eng plainEnv (w.mapEng (setRx w.eng.rx.drained))
  rw [transmit_delivers hdelivers] at heng
  obtain ⟨evs, hpair, hlog⟩ := transmit_sent plainEnv (w.mapEng (setRx w.eng.rx.drained))
  rw [transmit_delivers hdelivers] at hpair
  have hnostart : ∀ e, .start e ∉ evs := fun e he =>
    hpair.forall (p := fun ev => ev ≠ .start e) (by simp) (by simp) (by simp) _ he rfl
  refine ⟨_, hw.call hstart, ?_, ?_, ?_, ?_, ?_, ?_, ?_⟩
  · rw [heng]
    rfl
  · rw [heng]
    exact Nat.lt_of_lt_of_eq Nat.zero_lt_one htime.symm
  · rw [heng]
    exact hfsm
  · rw [heng]
    exact rxringEmpty_iff.mp (beq_self_eq_true _)
  · rw [heng]
    exact htable
  · rw [hlog, received_exchange _ _ hnostart]
    cases hpair with
    | sent => cases (w.mapEng (setRx w.eng.rx.drained)).eng.traceHook <;> rfl
  · rw [heng]
    rfl

theorem SoundConfig.lines_le (h : SoundConfig cfg) : cfg.respLinesMax ≤ 255 := by
  by_contra hlarge
  have hurc := h.urc_le
  have hall (n : Nat) : ∃ w : World cfg Unit, Hearing n false w := by
    induction n with
    | zero => exact exists_hearing cfg
    | succ n ih =>
      obtain ⟨w, hw⟩ := ih
      exact hw.next hurc (Nat.lt_of_not_le hlarge)
  obtain ⟨w, hw⟩ := hall 256
  have hlines := (h.of_silent hw.run).lines (by simp [hw.state]) .ok 0
  have hcount : w.eng.pool.count = min cfg.respLinesMax (received w.log).length := hlines
  rw [hw.count, hw.heard] at hcount
  omega

/-! ## Both ways -/

theorem SoundConfig.sized (h : SoundConfig cfg) : cfg.Sized :=
  ⟨⟨h.depth_le, h.urc_le, h.lines_le⟩, h.rx_le, h.timeout_lt⟩

/-- **A configuration is sound** if and only if its sizes fit the variables they
are kept in: between calls, and in the middle of calls. -/
theorem sound_iff (cfg : Config) :
    (SoundConfig cfg ↔ cfg.Sized) ∧ (SoundThroughout cfg ↔ cfg.Sized) := by
  have hsound (h : cfg.Sized) : SoundThroughout cfg := h.soundThroughout
  have hsized (h : SoundConfig cfg) : cfg.Sized := h.sized
  have hbetween (h : SoundThroughout cfg) : SoundConfig cfg := h.soundConfig
  exact ⟨⟨hsized, fun h => hbetween (hsound h)⟩, ⟨fun h => hsized (hbetween h), hsound⟩⟩

/-- A queue for 256 commands. -/
def deepConfig : Config := { Config.default with cmdQueueDepth := 256, depth_ge := by decide }

/-- It passes the static assertions, and forgets all commands when it is full:
`at_queue_depth` is 0, and nothing is started. -/
theorem deepConfig_unsound : ∃ w : World deepConfig Unit, SilentRun w ∧
    (acceptances w.log).length = 256 ∧ completions w.log = [] ∧ w.eng.qCount = 0 ∧
      ¬SoundConfig deepConfig := by
  have hfull : 256 ≤ deepConfig.cmdQueueDepth := by decide
  obtain ⟨w, hw, hcount, hacc, hcomp⟩ := accept_many hfull 256 (Nat.le_refl _)
  refine ⟨w, hw, hacc, hcomp, hcount, fun h => ?_⟩
  exact absurd h.depth_le (by decide)

end LibAt
