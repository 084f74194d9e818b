import LibAt.Sending
import LibAt.RxRing

/-!
# Engines that behave alike

Much of what is in the engine is left over: slots outside the queue, the place of
the queue in its array, bytes of the ring that have been read, the copy of an
echo nobody waits for, the time of a command that is done. Two engines that
differ in nothing else (`Alike`) do the same in every call, as long as hooks only
send (`exec_twin`): the calls that fail to return are the same, and where they
return, the answers are, the new log entries are, and the engines are alike
again.
-/

namespace LibAt

open Circular

variable {cfg : Config} {σ : Type}

/-! ## Alike -/

/-- The same bytes stand between the same indices. -/
structure RxRing.Alike (r r' : RxRing cfg) : Prop where
  head : r'.head = r.head
  tail : r'.tail = r.tail
  buf : ∀ i : UInt16, (i - r.tail).toNat < rxringUsed r →
    r'.buf (rxIndex cfg i) = r.buf (rxIndex cfg i)

/-- Two engines that differ in what is left over only. -/
structure Alike (g g' : Engine cfg) : Prop where
  ok : QueueOk g
  ok' : QueueOk g'
  pending : g'.pending = g.pending
  rx : RxRing.Alike g.rx g'.rx
  state : g'.state = g.state
  timer : g.state ≠ .idle → g'.timerMs = g.timerMs
  pool : g'.pool = g.pool
  lfsm : g'.lfsm = g.lfsm
  line : g'.line = g.line
  urcTable : g'.urcTable = g.urcTable
  echoArmed : g'.echoArmed = g.echoArmed
  echo : g.echoArmed = true → g'.echoExpect = g.echoExpect ∧ g'.echoLen = g.echoLen
  traceHook : g'.traceHook = g.traceHook

section

variable {g g' : Engine cfg}

theorem Alike.qCount (h : Alike g g') : g'.qCount = g.qCount := by
  have hlen := congrArg List.length h.pending
  rwa [Engine.pending, Engine.pending, length_window, length_window] at hlen

/-- The active command is the same. -/
theorem Alike.active (h : Alike g g') (h0 : 0 < g.qCount) :
    g'.queue g'.qTail = g.queue g.qTail := by
  obtain ⟨rest, hrest⟩ := Engine.pending_eq_cons h0
  obtain ⟨rest', hrest'⟩ := Engine.pending_eq_cons (g := g') (by rw [h.qCount]; exact h0)
  have hpending := h.pending
  rw [hrest, hrest'] at hpending
  exact (List.cons.inj hpending).1

/-- A change of what is not left over, and of some things that are. -/
theorem Alike.change (h : Alike g g') {s s' : AtState} {t t' : Nat} {p p' : RespPool cfg}
    {r r' : Response} {f f' : LineFsm} {l l' : List UInt8} {a a' : Bool}
    (hs : s' = s) (hactive : s ≠ .idle → 0 < g.qCount) (ht : s ≠ .idle → t' = t) (hp : p' = p)
    (hf : f' = f) (hl : l' = l) (ha : a' = a) (harmed : a = true → g.echoArmed = true) :
    Alike
      { g with
        state := s
        timerMs := t
        pool := p
        response := r
        lfsm := f
        line := l
        echoArmed := a }
      { g' with
        state := s'
        timerMs := t'
        pool := p'
        response := r'
        lfsm := f'
        line := l'
        echoArmed := a' } where
  ok := h.ok.congr ⟨rfl, rfl, rfl, rfl⟩ hactive
  ok' := h.ok'.congr ⟨rfl, rfl, rfl, rfl⟩ fun hne => h.qCount ▸ hactive (hs ▸ hne)
  pending := h.pending
  rx := h.rx
  state := hs
  timer := ht
  pool := hp
  lfsm := hf
  line := hl
  urcTable := h.urcTable
  echoArmed := ha
  echo hn := h.echo (harmed hn)
  traceHook := h.traceHook

/-! ## The ring -/

/-- A place in front of the next one is in front of this one, or is this one. -/
theorem rx_lt {i h t : UInt16} (hlt : (i - t).toNat < (h + 1 - t).toNat) (hne : i ≠ h) :
    (i - t).toNat < (h - t).toNat := by
  have hne' : i.toNat ≠ h.toNat := fun heq => hne (UInt16.toNat_inj.mp heq)
  have hi := i.toNat_lt
  have hh := h.toNat_lt
  have ht := t.toNat_lt
  simp only [UInt16.toNat_sub, UInt16.toNat_add, UInt16.toNat_one] at hlt ⊢
  omega

theorem RxRing.Alike.push {r r' : RxRing cfg} (h : r.Alike r') (b : UInt8) :
    ((rxringPush r b).getD r).Alike ((rxringPush r' b).getD r') := by
  have hused : rxringUsed r' = rxringUsed r := by rw [rxringUsed, rxringUsed, h.head, h.tail]
  rw [rxringPush, rxringPush, hused, h.head]
  split
  · exact h
  · refine ⟨rfl, h.tail, fun i hi => ?_⟩
    by_cases hhead : rxIndex cfg i = rxIndex cfg r.head
    · simp [hhead]
    · simp only [Option.getD_some, Function.update_of_ne hhead]
      exact h.buf i (rx_lt hi fun heq => hhead (by rw [heq]))

theorem RxRing.Alike.pop {r r' : RxRing cfg} (h : r.Alike r') :
    Option.Rel (fun p p' => p'.1 = p.1 ∧ RxRing.Alike p.2 p'.2) (rxringPop r) (rxringPop r') := by
  rw [rxringPop, rxringPop, rxringEmpty, rxringEmpty, h.head, h.tail]
  split
  · exact .none
  · rename_i hne
    have hpop : rxringPop r = some (r.buf (rxIndex cfg r.tail), { r with tail := r.tail + 1 }) := by
      rw [rxringPop, rxringEmpty, if_neg hne]
    have hused := rxringUsed_pop hpop
    refine .some ⟨h.buf r.tail ?_, ⟨rfl, rfl, fun i hi => h.buf i ?_⟩⟩
    · rw [UInt16.sub_self, UInt16.toNat_zero]
      omega
    · have hlt : (i - (r.tail + 1)).toNat < (r.head - (r.tail + 1)).toNat := hi
      have hused' : (r.head - (r.tail + 1)).toNat + 1 = (r.head - r.tail).toNat := hused
      have hi := i.toNat_lt
      have hh := r.head.toNat_lt
      have ht := r.tail.toNat_lt
      simp only [rxringUsed, UInt16.toNat_sub, UInt16.toNat_add, UInt16.toNat_one] at hlt hused' ⊢
      omega

theorem Alike.feed (h : Alike g g') (data : List UInt8) : Alike (atFeed data g) (atFeed data g') := by
  have hrx : ∀ {r r' : RxRing cfg}, r.Alike r' →
      RxRing.Alike (data.foldl (fun r b => (rxringPush r b).getD r) r)
        (data.foldl (fun r b => (rxringPush r b).getD r) r') := by
    induction data with
    | nil => exact fun hr => hr
    | cons b data ih => exact fun hr => ih (hr.push b)
  exact { h with
    ok := h.ok.congr ⟨rfl, rfl, rfl, rfl⟩ h.ok.active
    ok' := h.ok'.congr ⟨rfl, rfl, rfl, rfl⟩ h.ok'.active
    rx := hrx h.rx }

/-! ## The queue -/

/-- A command is put behind the others. -/
theorem Alike.send (hfit : cfg.Fits) (h : Alike g g') (desc : Option CmdDesc) :
    (atSend desc g').1 = (atSend desc g).1 ∧ Alike (atSend desc g).2 (atSend desc g').2 := by
  cases desc with
  | none => exact ⟨rfl, h⟩
  | some d =>
    by_cases hne : cstr (d.cmd.getD []) = []
    · rw [atSend, atSend, if_pos hne, if_pos hne]
      exact ⟨rfl, h⟩
    by_cases hfull : g.qCount ≥ cfg.cmdQueueDepth
    · rw [atSend, atSend, if_neg hne, if_neg hne, h.qCount, if_pos hfull, if_pos hfull]
      exact ⟨rfl, h⟩
    obtain ⟨g₁, hd⟩ : ∃ g₁, atSend (some d) g = (.ok, g₁) :=
      ⟨_, by rw [atSend, if_neg hne, if_neg hfull]⟩
    obtain ⟨g₁', hd'⟩ : ∃ g₁, atSend (some d) g' = (.ok, g₁) :=
      ⟨_, by rw [atSend, if_neg hne, h.qCount, if_neg hfull]⟩
    have hpending := pending_send hfit h.ok hd
    have hpending' := pending_send hfit h.ok' hd'
    have hok := h.ok.send hfit hd
    have hok' := h.ok'.send hfit hd'
    rw [hd, hd']
    obtain ⟨-, -, rfl⟩ := atSend_ok hd
    obtain ⟨-, -, rfl⟩ := atSend_ok hd'
    refine ⟨rfl, { h with ok := hok, ok' := hok', pending := ?_ }⟩
    rw [hpending, hpending', h.pending]

/-- The oldest command is dropped, and its slot cleared. -/
theorem Alike.dequeue (hfit : cfg.Fits) (h : Alike g g') (h0 : 0 < g.qCount) :
    Alike (dequeue g.qTail g) (dequeue g'.qTail g') := by
  have h0' : 0 < g'.qCount := h.qCount ▸ h0
  have hpending := h.pending
  rw [pending_dequeue hfit h.ok h0, pending_dequeue hfit h.ok' h0'] at hpending
  exact {
    ok := h.ok.advance hfit h0 rfl rfl rfl rfl
    ok' := h.ok'.advance hfit h0' rfl rfl rfl rfl
    pending := (List.cons.inj hpending).2
    rx := h.rx
    state := rfl
    timer := fun _ => rfl
    pool := h.pool
    lfsm := h.lfsm
    line := h.line
    urcTable := h.urcTable
    echoArmed := rfl
    echo := fun hf => by cases hf
    traceHook := h.traceHook }

/-- The oldest command is dropped, and its slot kept. -/
theorem Alike.drainNext (hfit : cfg.Fits) (h : Alike g g') (h0 : 0 < g.qCount)
    (hidle : g.state = .idle) : Alike (drainNext g) (drainNext g') := by
  have h0' : 0 < g'.qCount := h.qCount ▸ h0
  have hpending := h.pending
  rw [pending_drainNext hfit h.ok h0, pending_drainNext hfit h.ok' h0'] at hpending
  exact { h with
    ok := h.ok.advance hfit h0 rfl rfl rfl hidle
    ok' := h.ok'.advance hfit h0' rfl rfl rfl (h.state.trans hidle)
    pending := (List.cons.inj hpending).2 }

/-! ## The other calls -/

theorem Alike.tick (h : Alike g g') (ms : Nat) : Alike (atTick ms g) (atTick ms g') := by
  rw [atTick, atTick, h.state]
  by_cases hs : g.state = .waiting ∨ g.state = .prompt
  · have hne : g.state ≠ .idle := by
      rintro hidle
      simp [hidle] at hs
    rw [if_pos hs, if_pos hs, h.timer hne]
    exact h.change rfl h.ok.active (fun _ => rfl) h.pool h.lfsm h.line h.echoArmed id
  · rw [if_neg hs, if_neg hs]
    exact h

/-- What the URC table becomes. -/
theorem Alike.urcs (h : Alike g g') (table : Fin cfg.urcTableSize → UrcEntry cfg) :
    Alike { g with urcTable := table } { g' with urcTable := table } :=
  { h with
    ok := h.ok.congr ⟨rfl, rfl, rfl, rfl⟩ h.ok.active
    ok' := h.ok'.congr ⟨rfl, rfl, rfl, rfl⟩ h.ok'.active
    urcTable := rfl }

theorem Alike.register (h : Alike g g') (pre : Option (List UInt8)) (cb : Option Ptr) (user : Ptr) :
    Option.Rel (fun r r' => r'.1 = r.1 ∧ Alike r.2 r'.2) (atRegisterUrc pre cb user g)
      (atRegisterUrc pre cb user g') := by
  cases pre with
  | none => exact .some ⟨rfl, h⟩
  | some p =>
    cases cb with
    | none => exact .some ⟨rfl, h⟩
    | some f =>
      simp only [atRegisterUrc, h.urcTable, Option.bind_eq_bind]
      cases urcSearch fun i => (g.urcTable i).registered p with
      | none => exact .none
      | some m =>
        cases m with
        | some i => exact .some ⟨rfl, h.urcs _⟩
        | none =>
          simp only [Option.bind_some]
          cases urcSearch fun i => !(g.urcTable i).active with
          | none => exact .none
          | some m =>
            cases m with
            | some i => exact .some ⟨rfl, h.urcs _⟩
            | none => exact .some ⟨rfl, h⟩

theorem Alike.deregister (h : Alike g g') (pre : Option (List UInt8)) :
    Option.Rel (fun r r' => r'.1 = r.1 ∧ Alike r.2 r'.2) (atDeregisterUrc pre g)
      (atDeregisterUrc pre g') := by
  cases pre with
  | none => exact .some ⟨rfl, h⟩
  | some p =>
    simp only [atDeregisterUrc, h.urcTable, Option.bind_eq_bind]
    cases urcSearch fun i => (g.urcTable i).registered p with
    | none => exact .none
    | some m =>
      cases m with
      | some i => exact .some ⟨rfl, h.urcs _⟩
      | none => exact .some ⟨rfl, h⟩

/-- A transmission overwrites what was left over of the last one. -/
theorem Alike.start (h : Alike g g') (h0 : 0 < g.qCount) (e : CmdEntry cfg) :
    Alike (startState e g) (startState e g') where
  ok := h.ok.congr ⟨rfl, rfl, rfl, rfl⟩ fun _ => h0
  ok' := h.ok'.congr ⟨rfl, rfl, rfl, rfl⟩ fun _ => h.qCount ▸ h0
  pending := h.pending
  rx := h.rx
  state := rfl
  timer _ := rfl
  pool := rfl
  lfsm := h.lfsm
  line := h.line
  urcTable := h.urcTable
  echoArmed := rfl
  echo harmed := by
    have hecho : cfg.echoCancel = true := harmed
    simp [startState, hecho]
  traceHook := h.traceHook

/-- `at_reset` forgets what is in the ring, the FSM and the pool. -/
theorem Alike.reset (h : Alike g g') : Alike (resetState g) (resetState g') where
  ok := h.ok.congr ⟨rfl, rfl, rfl, rfl⟩ fun hne => absurd rfl hne
  ok' := h.ok'.congr ⟨rfl, rfl, rfl, rfl⟩ fun hne => absurd rfl hne
  pending := h.pending
  rx := ⟨rfl, rfl, fun i hi => absurd hi (by simp [resetState, rxringUsed])⟩
  state := rfl
  timer hne := absurd rfl hne
  pool := rfl
  lfsm := rfl
  line := rfl
  urcTable := h.urcTable
  echoArmed := rfl
  echo hf := by cases hf
  traceHook := h.traceHook

/-- `at_deinit` forgets the URC table and the trace hook as well. -/
theorem Alike.deinit (h : Alike g g') : Alike (deinitState g) (deinitState g') :=
  { h with
    ok := h.ok.congr ⟨rfl, rfl, rfl, rfl⟩ fun hne => absurd rfl hne
    ok' := h.ok'.congr ⟨rfl, rfl, rfl, rfl⟩ fun hne => absurd rfl hne
    state := rfl
    timer := fun hne => absurd rfl hne
    urcTable := rfl
    traceHook := rfl }

/-- The tests of a line and the FSM read nothing that is left over. -/
theorem Alike.isEcho (h : Alike g g') (l : List UInt8) : isEcho g' l = isEcho g l := by
  rw [LibAt.isEcho, LibAt.isEcho, h.echoArmed, h.state]
  cases harmed : g.echoArmed with
  | false => simp
  | true =>
    obtain ⟨hexpect, hlen⟩ := h.echo harmed
    rw [hexpect, hlen]

theorem Alike.isPrompt (h : Alike g g') (l : List UInt8) : isPrompt g' l = isPrompt g l := by
  rw [LibAt.isPrompt, LibAt.isPrompt, h.state]

/-- A byte moves both FSMs, or completes the same line. -/
theorem Alike.byte (h : Alike g g') (b : UInt8) :
    (∃ line lfsm, lfsmByte b g = .more { g with line := line, lfsm := lfsm } ∧
      lfsmByte b g' = .more { g' with line := line, lfsm := lfsm }) ∨
    ∃ l, lfsmByte b g = .line l ∧ lfsmByte b g' = .line l := by
  have hkeep : ByteStep.more g' = .more { g' with line := g.line, lfsm := g.lfsm } := by
    rw [← h.line, ← h.lfsm]
  rw [lfsmByte, lfsmByte, h.lfsm, h.line]
  split <;> repeat' split
  all_goals first
    | exact .inl ⟨_, _, rfl, rfl⟩
    | exact .inr ⟨_, rfl, rfl⟩
    | exact .inl ⟨_, _, rfl, hkeep⟩

theorem Alike.urcMatch (h : Alike g g') (l : List UInt8) : urcMatch l g' = urcMatch l g := by
  rw [LibAt.urcMatch, LibAt.urcMatch, h.urcTable]

end

/-! ## Twins -/

/-- Two worlds with engines that are alike and the same new log entries. -/
structure Twin (past past' : List (Event cfg)) (w w' : World cfg σ) : Prop where
  eng : Alike w.eng w'.eng
  app : w'.app = w.app
  log : ∃ evs, w.log = past ++ evs ∧ w'.log = past' ++ evs

/-- Twins in which `g` and `g'` have become more by sends: the active command is
where it was. -/
structure TwinSends (past past' : List (Event cfg)) (g g' : Engine cfg) (v v' : World cfg σ) :
    Prop where
  twin : Twin past past' v v'
  tail : v.eng.qTail = g.qTail
  tail' : v'.eng.qTail = g'.qTail
  state : v.eng.state = g.state
  count : g.qCount ≤ v.eng.qCount

section

variable {past past' : List (Event cfg)} {w w' : World cfg σ}

theorem Twin.emit (h : Twin past past' w w') (ev : Event cfg) :
    Twin past past' (w.emit ev) (w'.emit ev) := by
  obtain ⟨evs, hlog, hlog'⟩ := h.log
  refine ⟨h.eng, h.app, evs ++ [ev], ?_, ?_⟩
  · rw [World.emit_log, hlog, List.append_assoc]
  · rw [World.emit_log, hlog', List.append_assoc]

theorem Twin.putEng (h : Twin past past' w w') {g g' : Engine cfg} (hg : Alike g g') :
    Twin past past' (w.putEng g) (w'.putEng g') := ⟨hg, h.app, h.log⟩

theorem Twin.putApp (h : Twin past past' w w') (s : σ) :
    Twin past past' (w.putApp s) (w'.putApp s) := ⟨h.eng, rfl, h.log⟩

/-- Foreign code does the same to twins, and sends at most. -/
abbrev SendsAlike (invoke : Invocation → World cfg σ → Option (World cfg σ))
    (past past' : List (Event cfg)) : Prop :=
  ∀ inv {w w'}, Twin past past' w w' →
    Option.Rel (TwinSends past past' w.eng w'.eng) (invoke inv w) (invoke inv w')

section

variable {invoke : Invocation → World cfg σ → Option (World cfg σ)} {env : Env σ}

theorem notify_twin (hinv : SendsAlike invoke past past') (e : CmdEntry cfg) (r : Response)
    (h : Twin past past' w w') :
    Option.Rel (TwinSends past past' w.eng w'.eng) (notify invoke e r w) (notify invoke e r w') := by
  rw [notify, notify]
  cases e.cb with
  | none => exact .some ⟨h, rfl, rfl, rfl, Nat.le_refl _⟩
  | some f => exact hinv _ (h.emit (.fired f e.user r))

theorem engineFinalize_twin (hfit : cfg.Fits) (hinv : SendsAlike invoke past past')
    (status : AtResult) (c : Int) (h : Twin past past' w w') (h0 : 0 < w.eng.qCount) :
    Option.Rel (Twin past past') (engineFinalize invoke status c w)
      (engineFinalize invoke status c w') := by
  have hr : finalResponse status c w'.eng = finalResponse status c w.eng := by
    rw [finalResponse, finalResponse, h.eng.pool]
  simp only [engineFinalize, hr, h.eng.active h0, Option.bind_eq_bind, Option.pure_def]
  have hset : Twin past past' (w.putEng (setResponse (finalResponse status c w.eng) w.eng))
      (w'.putEng (setResponse (finalResponse status c w.eng) w'.eng)) :=
    h.putEng (h.eng.change h.eng.state h.eng.ok.active h.eng.timer h.eng.pool h.eng.lfsm
      h.eng.line h.eng.echoArmed id)
  refine rel_bind (notify_twin hinv (w.eng.queue w.eng.qTail) _ hset) fun v v' hv => ?_
  have hdequeue := hv.twin.eng.dequeue hfit (Nat.lt_of_lt_of_le h0 hv.count)
  rw [hv.tail, hv.tail'] at hdequeue
  exact .some ((hv.twin.putEng hdequeue).emit _)

/-- A write returns the same. -/
theorem atPlatformWrite_twin (env : Env σ) (h : Twin past past' w w') (site : WriteSite) (data : List UInt8) :
    ∃ n v v', atPlatformWrite env site data w = (n, v) ∧ atPlatformWrite env site data w' = (n, v') ∧
      Twin past past' v v' ∧ v.eng = w.eng ∧ v'.eng = w'.eng := by
  refine ⟨(env.write w.app data).1, _, _, rfl, ?_, (h.putApp (env.write w.app data).2).emit
    (.write site data (env.write w.app data).1), rfl, rfl⟩
  rw [atPlatformWrite, h.app]

theorem traceTx_twin (h : Twin past past' w w') (data : List UInt8) :
    Twin past past' (traceTx data w) (traceTx data w') := by
  rw [traceTx, traceTx, h.eng.traceHook]
  split
  · exact h.emit _
  · exact h

/-- Behind the writes the command is waited for. -/
theorem Twin.waiting (h : Twin past past' w w') (h0 : 0 < w.eng.qCount) (ht : w.eng.state ≠ .idle)
    (data term : List UInt8) :
    Twin past past'
      ((traceTx term (traceTx data w)).putEng
        { (traceTx term (traceTx data w)).eng with state := .waiting })
      ((traceTx term (traceTx data w')).putEng
        { (traceTx term (traceTx data w')).eng with state := .waiting }) := by
  have htrace := traceTx_twin (traceTx_twin h data) term
  have heng := h.eng
  simp only [traceTx_eng]
  exact htrace.putEng (heng.change rfl (fun _ => h0) (fun _ => heng.timer ht) heng.pool heng.lfsm
    heng.line heng.echoArmed id)

/-- A text and its terminator are written the same way. -/
theorem writePair_twin (env : Env σ) (h : Twin past past' w w') (h0 : 0 < w.eng.qCount)
    (hs : w.eng.state ≠ .idle) (site₁ site₂ : WriteSite) (data : List UInt8) (term : UInt8) :
    ∃ b v v', writePair env site₁ site₂ data term w = (b, v) ∧
      writePair env site₁ site₂ data term w' = (b, v') ∧ Twin past past' v v' := by
  obtain ⟨n, v, v', hv, hv', htwin, heng, -⟩ := atPlatformWrite_twin env h site₁ data
  simp only [writePair, hv, hv']
  by_cases hn : n ≠ data.length
  · rw [if_pos hn, if_pos hn]
    exact ⟨false, v, v', rfl, rfl, htwin⟩
  obtain ⟨m, u, u', hu, hu', htwin', heng', -⟩ := atPlatformWrite_twin env htwin site₂ [term]
  rw [if_neg hn, if_neg hn, hu, hu']
  by_cases hm : m ≠ 1
  · simp only [if_pos hm]
    exact ⟨false, u, u', rfl, rfl, htwin'⟩
  · simp only [if_neg hm]
    refine ⟨true, _, _, rfl, rfl, htwin'.waiting ?_ ?_ _ _⟩
    · rw [heng', heng]
      exact h0
    · rw [heng', heng]
      exact hs

/-- A transmission goes the same way. -/
theorem transmit_twin (env : Env σ) (h : Twin past past' w w') (h0 : 0 < w.eng.qCount) :
    ∃ b v v', transmit env w = (b, v) ∧ transmit env w' = (b, v') ∧ Twin past past' v v' := by
  have hstart := (h.putEng (h.eng.start h0 (w.eng.queue w.eng.qTail))).emit
    (.start (w.eng.queue w.eng.qTail))
  rw [transmit_eq, transmit_eq, h.eng.active h0]
  exact writePair_twin env hstart h0 (by simp [startState]) .cmd .cr _ 13

/-- A prompt is answered the same way. -/
theorem answerPrompt_twin (env : Env σ) (h : Twin past past' w w') (h0 : 0 < w.eng.qCount)
    (e : CmdEntry cfg) :
    ∃ b v v', answerPrompt env e w = (b, v) ∧ answerPrompt env e w' = (b, v') ∧
      Twin past past' v v' := by
  have heng := h.eng
  have hprompt : Twin past past'
      (w.putEng { w.eng with state := .prompt, timerMs := cfg.promptTimeoutMs })
      (w'.putEng { w'.eng with state := .prompt, timerMs := cfg.promptTimeoutMs }) :=
    h.putEng (heng.change rfl (fun _ => h0) (fun _ => rfl) heng.pool heng.lfsm heng.line
      heng.echoArmed id)
  rw [answerPrompt_eq, answerPrompt_eq]
  exact writePair_twin env hprompt h0 (by simp) .body .ctrlZ e.body.bytes 26

/-! ## Lines -/

theorem accumulate_twin (h : Twin past past' w w') (l : List UInt8) :
    Twin past past' (accumulate l w) (accumulate l w') := by
  have heng := h.eng
  rw [accumulate, accumulate, heng.state]
  split
  · have hemit := h.emit (.line .payload l)
    dsimp only [World.emit_eng]
    rw [heng.pool]
    split
    · exact hemit.putEng (heng.change heng.state heng.ok.active heng.timer rfl heng.lfsm heng.line
        heng.echoArmed id)
    · exact hemit.putEng (heng.change heng.state heng.ok.active heng.timer rfl heng.lfsm heng.line
        heng.echoArmed id)
  · exact h.emit _

theorem urcDispatch_twin (hinv : SendsAlike invoke past past') (h : Twin past past' w w')
    (l : List UInt8) :
    Option.Rel (fun r r' => r'.1 = r.1 ∧ Twin past past' r.2 r'.2) (urcDispatch invoke l w)
      (urcDispatch invoke l w') := by
  simp only [urcDispatch, h.eng.urcMatch, h.eng.urcTable, Option.bind_eq_bind, Option.pure_def]
  cases urcMatch l w.eng with
  | none => exact .none
  | some m =>
    cases m with
    | none => exact .some ⟨rfl, h⟩
    | some i =>
      simp only [Option.bind_some]
      exact rel_bind (hinv _ ((h.emit _).emit _)) fun v v' hv => .some ⟨rfl, hv.twin⟩

/-- **A line** is dispatched alike. -/
theorem engineDispatchLine_twin (hfit : cfg.Fits) (hinv : SendsAlike invoke past past')
    (h : Twin past past' w w') (l : List UInt8) :
    Option.Rel (Twin past past') (engineDispatchLine invoke env l w)
      (engineDispatchLine invoke env l w') := by
  have heng := h.eng
  have hother : Option.Rel (Twin past past')
      ((urcDispatch invoke l w).map fun r => if r.1 then r.2 else accumulate l r.2)
      ((urcDispatch invoke l w').map fun r => if r.1 then r.2 else accumulate l r.2) := by
    refine rel_map (urcDispatch_twin hinv h l) fun r r' hr => ?_
    rw [hr.1]
    split
    · exact hr.2
    · exact accumulate_twin hr.2 l
  rw [engineDispatchLine, engineDispatchLine, heng.isEcho, heng.isPrompt, heng.state]
  split
  · exact .some h
  split
  · exact .some ((h.putEng (heng.change heng.state heng.ok.active heng.timer heng.pool heng.lfsm
      heng.line rfl (fun hf => by cases hf))).emit _)
  split
  · rename_i hp
    have h0 : 0 < w.eng.qCount := heng.ok.active (by rw [isPrompt_waiting hp]; decide)
    dsimp only
    rw [heng.active h0]
    split
    · obtain ⟨b, v, v', hv, hv', htwin⟩ := answerPrompt_twin env
        (h.emit (.line (.prompt true) l)) h0 (w.eng.queue w.eng.qTail)
      have hcount : v.eng.qCount = w.eng.qCount := by
        have hanswer := congrArg Engine.qCount (answerPrompt_eng env (w.eng.queue w.eng.qTail)
          (w.emit (.line (.prompt true) l)))
        rwa [hv] at hanswer
      rw [hv, hv']
      cases b with
      | true => exact .some htwin
      | false => exact engineFinalize_twin hfit hinv .errIo 0 htwin (by rw [hcount]; exact h0)
    · exact .some (h.emit _)
  · by_cases hs : w.eng.state = .waiting
    · rw [if_pos hs]
      have h0 : 0 < w.eng.qCount := heng.ok.active (by rw [hs]; decide)
      cases engineIsFinal l with
      | some r => exact engineFinalize_twin hfit hinv _ _ (h.emit _) h0
      | none => exact hother
    · rw [if_neg hs]
      exact hother

/-! ## `at_process` -/

theorem lineDone_twin (h : Twin past past' w w') : Twin past past' (lineDone w) (lineDone w') :=
  h.putEng (h.eng.change h.eng.state h.eng.ok.active h.eng.timer h.eng.pool rfl rfl h.eng.echoArmed id)

theorem processByte_twin (hfit : cfg.Fits) (hinv : SendsAlike invoke past past')
    (h : Twin past past' w w') (b : UInt8) :
    Option.Rel (Twin past past') (processByte invoke env b w) (processByte invoke env b w') := by
  have heng := h.eng
  rw [processByte, processByte]
  rcases heng.byte b with ⟨line, lfsm, hb, hb'⟩ | ⟨l, hb, hb'⟩ <;> rw [hb, hb']
  · exact .some (h.putEng (heng.change heng.state heng.ok.active heng.timer heng.pool rfl rfl
      heng.echoArmed id))
  · exact rel_map (engineDispatchLine_twin hfit hinv h l) fun v v' hv => lineDone_twin hv

/-- The drain loop reads the same bytes. -/
theorem drainRx_twin (hfit : cfg.Fits) (hinv : SendsAlike invoke past past') (fuel : Nat) :
    ∀ {w w' : World cfg σ}, Twin past past' w w' →
      Option.Rel (Twin past past') (drainRx invoke env fuel w) (drainRx invoke env fuel w') := by
  induction fuel with
  | zero => exact fun _ => .none
  | succ fuel ih =>
    intro w w' h
    rw [drainRx, drainRx]
    have hpop := h.eng.rx.pop
    rcases hr : rxringPop w.eng.rx with _ | ⟨b, rx⟩ <;>
      rcases hr' : rxringPop w'.eng.rx with _ | ⟨b', rx'⟩ <;> rw [hr, hr'] at hpop
    · exact .some h
    · cases hpop
    · cases hpop
    · obtain ⟨rfl, hrx⟩ := Option.rel_some_some.mp hpop
      have htwin : Twin past past' (w.putEng { w.eng with rx := rx })
          (w'.putEng { w'.eng with rx := rx' }) :=
        h.putEng { h.eng with
          ok := h.eng.ok.congr ⟨rfl, rfl, rfl, rfl⟩ h.eng.ok.active
          ok' := h.eng.ok'.congr ⟨rfl, rfl, rfl, rfl⟩ h.eng.ok'.active
          rx := hrx }
      exact rel_bind (processByte_twin hfit hinv htwin _) fun v v' hv => ih hv

theorem checkTimeout_twin (hfit : cfg.Fits) (hinv : SendsAlike invoke past past')
    (h : Twin past past' w w') :
    Option.Rel (Twin past past') (checkTimeout invoke w) (checkTimeout invoke w') := by
  rw [checkTimeout, checkTimeout, h.eng.state]
  by_cases hs : w.eng.state = .waiting ∨ w.eng.state = .prompt
  · have hne : w.eng.state ≠ .idle := by
      intro hidle
      simp [hidle] at hs
    rw [h.eng.timer hne]
    split
    · exact engineFinalize_twin hfit hinv .errTimeout 0 h (h.eng.ok.active hne)
    · exact .some h
  · rw [if_neg fun hc => hs hc.1, if_neg fun hc => hs hc.1]
    exact .some h

theorem startIfIdle_twin (hfit : cfg.Fits) (hinv : SendsAlike invoke past past')
    (h : Twin past past' w w') :
    Option.Rel (Twin past past') (startIfIdle invoke env w) (startIfIdle invoke env w') := by
  rw [startIfIdle, startIfIdle, h.eng.state, h.eng.qCount]
  split
  · rename_i hs
    obtain ⟨b, v, v', hv, hv', htwin⟩ := transmit_twin env h hs.2
    have hcount : v.eng.qCount = w.eng.qCount := by
      have hsent := congrArg Engine.qCount (transmit_eng env w)
      rwa [hv] at hsent
    rw [engineStartNext, engineStartNext, hv, hv']
    cases b with
    | true => exact .some htwin
    | false => exact engineFinalize_twin hfit hinv .errIo 0 htwin (by rw [hcount]; exact hs.2)
  · exact .some h

/-- **`at_process`** does the same to twins. -/
theorem atProcess_twin (hfit : cfg.Fits) (hinv : SendsAlike invoke past past') (fuel : Nat)
    (h : Twin past past' w w') :
    Option.Rel (Twin past past') (atProcess invoke env fuel w) (atProcess invoke env fuel w') :=
  rel_bind (drainRx_twin hfit hinv fuel h) fun _ _ hv =>
    rel_bind (checkTimeout_twin hfit hinv hv) fun _ _ hu => startIfIdle_twin hfit hinv hu

/-! ## The API -/

theorem atAbort_twin (hfit : cfg.Fits) (hinv : SendsAlike invoke past past')
    (h : Twin past past' w w') :
    Option.Rel (Twin past past') (atAbort invoke w) (atAbort invoke w') := by
  rw [atAbort, atAbort, h.eng.state]
  split
  · rename_i hs
    have hne : w.eng.state ≠ .idle := by
      intro hidle
      simp [hidle] at hs
    exact engineFinalize_twin hfit hinv .errAborted 0 h (h.eng.ok.active hne)
  · exact .some h

/-- The queue is drained the same way. -/
theorem drainQueue_twin (hfit : cfg.Fits) (hinv : SendsAlike invoke past past') (fuel : Nat) :
    ∀ {w w' : World cfg σ}, Twin past past' w w' → w.eng.state = .idle →
      Option.Rel (Twin past past') (drainQueue invoke fuel w) (drainQueue invoke fuel w') := by
  induction fuel with
  | zero => exact fun _ _ => .none
  | succ fuel ih =>
    intro w w' h hidle
    rw [drainQueue, drainQueue, h.eng.qCount]
    by_cases h0 : 0 < w.eng.qCount
    · rw [if_pos h0, if_pos h0]
      simp only [drainOne, h.eng.active h0, Option.bind_eq_bind, Option.pure_def]
      have hround := notify_twin hinv (w.eng.queue w.eng.qTail) abortedResponse h
      rw [Option.bind_assoc, Option.bind_assoc]
      refine rel_bind hround fun v v' hv => ?_
      have hidle' : v.eng.state = .idle := hv.state.trans hidle
      have hnext := hv.twin.eng.drainNext hfit (Nat.lt_of_lt_of_le h0 hv.count) hidle'
      exact ih ((hv.twin.putEng hnext).emit _) hidle'
    · rw [if_neg h0, if_neg h0]
      exact .some h

/-- **`at_reset`** does the same to twins. -/
theorem atReset_twin (hfit : cfg.Fits) (hinv : SendsAlike invoke past past') (fuel : Nat)
    (h : Twin past past' w w') :
    Option.Rel (Twin past past') (atReset invoke fuel w) (atReset invoke fuel w') := by
  have habort : Option.Rel (fun v v' => Twin past past' v v' ∧ v.eng.state = .idle)
      (abortActive invoke w) (abortActive invoke w') := by
    rw [abortActive, abortActive, h.eng.state, h.eng.qCount]
    split
    · rename_i hs
      exact rel_left (engineFinalize_twin hfit hinv .errAborted 0 h hs.2)
        fun v hv => engineFinalize_idle hv
    · rename_i hs
      refine .some ⟨h, ?_⟩
      by_contra hne
      exact hs ⟨hne, h.eng.ok.active hne⟩
  exact rel_bind habort fun v v' hv =>
    rel_bind (drainQueue_twin hfit hinv fuel hv.1 hv.2) fun u u' hu =>
      .some (hu.putEng hu.eng.reset)

theorem World.send_twin (hfit : cfg.Fits) (h : Twin past past' w w') (desc : Option CmdDesc) :
    (w'.send desc).1 = (w.send desc).1 ∧ Twin past past' (w.send desc).2 (w'.send desc).2 := by
  obtain ⟨hret, heng⟩ := h.eng.send hfit desc
  rw [World.send, World.send]
  generalize atSend desc w.eng = r at hret heng ⊢
  generalize atSend desc w'.eng = r' at hret heng ⊢
  obtain ⟨r, g⟩ := r
  obtain ⟨r', g'⟩ := r'
  obtain rfl : r' = r := hret
  cases r' <;> cases desc <;> first
    | exact ⟨rfl, h.putEng heng⟩
    | exact ⟨rfl, (h.putEng heng).emit _⟩

/-- **Every API call** does the same to twins, and returns the same. -/
theorem apiCall_twin (hfit : cfg.Fits) (hinv : SendsAlike invoke past past') (fuel : Nat)
    (c : ApiCall) (h : Twin past past' w w') :
    Option.Rel (fun r r' => r'.1 = r.1 ∧ Twin past past' r.2 r'.2) (apiCall invoke fuel c w)
      (apiCall invoke fuel c w') := by
  cases c with
  | send desc =>
    obtain ⟨hret, htwin⟩ := World.send_twin hfit h desc
    exact .some ⟨congrArg ApiRet.result hret, htwin⟩
  | abort => exact rel_map (atAbort_twin hfit hinv h) fun v v' hv => ⟨rfl, hv⟩
  | reset => exact rel_map (atReset_twin hfit hinv fuel h) fun v v' hv => ⟨rfl, hv⟩
  | feed data => exact .some ⟨rfl, h.putEng (h.eng.feed data)⟩
  | tick ms => exact .some ⟨rfl, h.putEng (h.eng.tick ms)⟩
  | registerUrc pre cb user =>
    exact rel_map (h.eng.register pre cb user) fun r r' hr =>
      ⟨congrArg ApiRet.result hr.1, h.putEng hr.2⟩
  | deregisterUrc pre =>
    exact rel_map (h.eng.deregister pre) fun r r' hr =>
      ⟨congrArg ApiRet.result hr.1, h.putEng hr.2⟩
  | state => exact .some ⟨congrArg ApiRet.state h.eng.state, h⟩
  | queueDepth => exact .some ⟨congrArg ApiRet.depth h.eng.qCount, h⟩

end

/-- **Hooks that only send** do the same to twins. -/
theorem invoke_twin (hfit : cfg.Fits) {env : Env σ} (henv : env.Respects SendsOnly) (n : Nat) :
    SendsAlike (invoke env n : Invocation → World cfg σ → _) past past' := by
  intro inv w w' h
  cases n with
  | zero => exact .none
  | succ n =>
    obtain ⟨v, hv, hrun⟩ := invoke_sends hfit inv w (henv inv w.app)
    obtain ⟨v', hv', hrun'⟩ := invoke_sends hfit inv w' (henv inv w'.app)
    have htwin : Option.Rel (Twin past past') (invoke env (n + 1) inv w)
        (invoke env (n + 1) inv w') := by
      rw [invoke, invoke, h.app]
      refine Interaction.run_related (fun u u' hu => hu.app.symm) (fun s u u' hu => hu.putApp s)
        (fun c u u' hc hu => ?_) (henv inv w.app) h
      have hemit := hu.emit (.nested inv.kind c u.eng.state)
      rw [hu.eng.state]
      match c, hc with
      | .send desc, _ =>
        obtain ⟨hret, hsent⟩ := World.send_twin hfit hemit desc
        exact .some ⟨congrArg ApiRet.result hret.symm, hsent⟩
      | .state, _ => exact .some ⟨congrArg ApiRet.state hemit.eng.state.symm, hemit⟩
      | .queueDepth, _ => exact .some ⟨congrArg ApiRet.depth hemit.eng.qCount.symm, hemit⟩
    rw [hrun, hrun'] at htwin ⊢
    refine .some ⟨Option.rel_some_some.mp htwin, hv.qTail, hv'.qTail, hv.state, ?_⟩
    have hcount := hv.count
    have hmono := hv.mono
    omega

/-- **Every call** does the same to twins, and returns the same. -/
theorem exec_twin (hfit : cfg.Fits) {env : Env σ} (henv : env.Respects SendsOnly) (fuel : Nat)
    (call : TopCall) (h : Twin past past' w w') :
    Option.Rel (fun r r' => r'.1 = r.1 ∧ Twin past past' r.2 r'.2) (exec env fuel call w)
      (exec env fuel call w') := by
  have hinv : SendsAlike (invoke env fuel : Invocation → World cfg σ → _) past past' :=
    invoke_twin hfit henv fuel
  have heng := h.eng
  cases call with
  | api c => exact apiCall_twin hfit hinv fuel c h
  | process => exact rel_map (atProcess_twin hfit hinv fuel h) fun v v' hv => ⟨rfl, hv⟩
  | setTraceHook hook =>
    exact .some ⟨rfl, h.putEng { heng with
      ok := heng.ok.congr ⟨rfl, rfl, rfl, rfl⟩ heng.ok.active
      ok' := heng.ok'.congr ⟨rfl, rfl, rfl, rfl⟩ heng.ok'.active
      traceHook := rfl }⟩
  | deinit =>
    exact rel_map (atReset_twin hfit hinv fuel h) fun v v' hv => ⟨rfl, hv.putEng hv.eng.deinit⟩

end

end LibAt
