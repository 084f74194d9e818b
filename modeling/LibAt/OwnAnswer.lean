import LibAt.Lines
import LibAt.Readings
import LibAt.Representation

/-!
# A command's own answer

The line that answers a query begins with the name in the command, and a URC
prefix may be that same name. `engine_dispatch_line` looks for a handler first,
so whether an answer is delivered has nothing to do with the command: it is,
exactly when no active entry of the URC table has a prefix of it
(`own_answer_iff`). What gets into the pool reaches the callback in whatever
way the run goes on (`deliveryDiscipline`).
-/

namespace LibAt

variable {cfg : Config} {σ : Type}

/-- `at_gsm_creg_query`. -/
def atGsmCregQuery (cb : Option Ptr) (user : Ptr) (g : Engine cfg) : AtResult × Engine cfg :=
  atSendRaw (ascii "AT+CREG?") 0 cb user g

/-! ## The echo test while a command is waited for -/

/-- What a hook that cancels nothing changes. -/
theorem Edit.eng_eq {w w' : World cfg σ} (h : Edit w w') : ∃ rx queue qHead qCount timerMs urcTable,
    w'.eng = { w.eng with
      rx := rx
      queue := queue
      qHead := qHead
      qCount := qCount
      timerMs := timerMs
      urcTable := urcTable } := by
  cases h with
  | app | nested | feed => exact ⟨_, _, _, _, _, _, rfl⟩
  | send d g hd =>
    obtain ⟨-, -, rfl⟩ := atSend_ok hd
    exact ⟨_, _, _, _, _, _, rfl⟩
  | tick ms =>
    obtain ⟨n, hn⟩ := atTick_eq ms w.eng
    exact ⟨_, _, _, _, _, _, hn⟩
  | register pre cb user r g hr =>
    obtain ⟨table, rfl⟩ := atRegisterUrc_eq hr
    exact ⟨_, _, _, _, _, _, rfl⟩
  | deregister pre r g hr =>
    obtain ⟨table, rfl⟩ := atDeregisterUrc_eq hr
    exact ⟨_, _, _, _, _, _, rfl⟩

/-- While the echo of a command is awaited, it is the active command's. -/
def AwaitsEcho (g : Engine cfg) : Prop :=
  g.state = .waiting → g.echoArmed = true →
    g.echoExpect.bytes = (g.queue g.qTail).cmd.bytes ∧
      g.echoLen = (g.queue g.qTail).cmd.bytes.length

theorem AwaitsEcho.transmit (htx : cfg.txBufSize ≤ 2 ^ 16) (env : Env σ) (w : World cfg σ) :
    AwaitsEcho (transmit env w).2.eng := by
  intro _ harmed
  have hcopy := transmit_echo ?_ htx env w
  · rw [transmit_eng] at hcopy ⊢
    exact hcopy
  · rw [transmit_eng] at harmed
    exact harmed

/-- The echo test as a discipline: its copy is made by the transmission. -/
def echoDiscipline (hfit : cfg.Fits) (htx : cfg.txBufSize ≤ 2 ^ 16) : Discipline cfg σ where
  rest w := QueueOk w.eng ∧ AwaitsEcho w.eng
  ending _ w := QueueOk w.eng ∧ 0 < w.eng.qCount
  finalizing _ _ w := QueueOk w.eng ∧ 0 < w.eng.qCount
  notifying _ w := QueueOk w.eng ∧ w.eng.state = .idle ∧ 0 < w.eng.qCount
  ok _ := True
  rest_ok _ := trivial
  finalizing_ok _ := trivial
  notifying_ok _ := trivial
  rest_edit w w' h he := by
    obtain ⟨hqueue, hu⟩ := he.queue hfit h.1
    refine ⟨hqueue, fun hs harmed => ?_⟩
    have hs₀ : w.eng.state = .waiting := hu.state.symm.trans hs
    obtain ⟨rx, queue, qHead, qCount, timerMs, urcTable, heng⟩ := he.eng_eq
    rw [hu.qTail, hu.oldest (h.1.active (by simp [hs₀]))]
    rw [heng] at harmed ⊢
    exact h.2 hs₀ harmed
  finalizing_edit i e w w' h he := by
    obtain ⟨hqueue, hu⟩ := he.queue hfit h.1
    exact ⟨hqueue, h.2.trans_le hu.count_le⟩
  notifying_edit e w w' h he := by
    obtain ⟨hqueue, hu⟩ := he.queue hfit h.1
    exact ⟨hqueue, hu.state.trans h.2.1, h.2.2.trans_le hu.count_le⟩
  active h := h.1.active
  traceHook w hook h := ⟨h.1.congr ⟨rfl, rfl, rfl, rfl⟩ h.1.active, h.2⟩
  receive w w' h hr := by
    obtain ⟨hq, hs⟩ := hr.queue
    refine ⟨h.1.congr hq (hs ▸ h.1.active), ?_⟩
    cases hr with
    | pop | lineDone | ignored | urc => exact h.2
    | echo => exact fun _ harmed => absurd harmed Bool.false_ne_true
    | byte b g hb =>
      obtain ⟨line, lfsm, rfl⟩ := lfsmByte_eq hb
      exact h.2
    | accumulate l =>
      obtain ⟨pool, response, heng⟩ := accumulate_eng l w
      rw [heng]
      exact h.2
  answered env w w' l h hs ha := by
    have heng := answerPrompt_eng env (w.eng.queue w.eng.qTail) (w.emit (.line (.prompt true) l))
    rw [ha] at heng
    rw [heng]
    exact ⟨h.1.congr ⟨rfl, rfl, rfl, rfl⟩ fun _ => h.1.active (by simp [hs]), fun _ => h.2 hs⟩
  failed env w w' l h hs ha := by
    have h0 : 0 < w.eng.qCount := h.1.active (by simp [hs])
    have heng := answerPrompt_eng env (w.eng.queue w.eng.qTail) (w.emit (.line (.prompt true) l))
    rw [ha] at heng
    rw [heng]
    exact ⟨h.1.congr ⟨rfl, rfl, rfl, rfl⟩ fun _ => h0, h0⟩
  final w l s c h hs _ := ⟨h.1, h.1.active (by simp [hs])⟩
  transmitted env w w' h _ h0 ht := by
    have hawait := AwaitsEcho.transmit htx env w
    have heng := transmit_eng env w
    rw [ht] at hawait heng
    refine ⟨?_, hawait⟩
    rw [heng]
    exact h.1.congr ⟨rfl, rfl, rfl, rfl⟩ fun _ => h0
  unsent env w w' h _ h0 ht := by
    have heng := transmit_eng env w
    rw [ht] at heng
    rw [heng]
    exact ⟨h.1.congr ⟨rfl, rfl, rfl, rfl⟩ fun _ => h0, h0⟩
  cancel w s h hs _ := ⟨h.1, h.1.active hs⟩
  finalize w s c h := by
    rw [World.fire_eng]
    exact ⟨h.1.congr ⟨rfl, rfl, rfl, rfl⟩ h.1.active, h.2⟩
  dequeue w i e h := ⟨h.1.advance hfit h.2 rfl rfl rfl rfl,
    fun (hs : AtState.idle = .waiting) => absurd hs (by decide)⟩
  drainNotify w h hs h0 := by
    rw [World.fire_eng]
    exact ⟨h.1, hs, h0⟩
  drainNext w e h := by
    obtain ⟨hqueue, hs, h0⟩ := h
    refine ⟨⟨hqueue.advance hfit h0 rfl rfl rfl hs, fun hw => ?_⟩, hs⟩
    exact absurd (hs.symm.trans hw) (by decide)
  reset w h _ _ := ⟨h.1.congr ⟨rfl, rfl, rfl, rfl⟩ (absurd rfl),
    fun (hs : AtState.idle = .waiting) => absurd hs (by decide)⟩
  deinit w h _ _ := ⟨h.1.congr ⟨rfl, rfl, rfl, rfl⟩ (absurd rfl),
    fun (hs : AtState.idle = .waiting) => absurd hs (by decide)⟩

/-! ## From the pool to the callback -/

/-- The lines are the first ones in the pool of the command `e`, and no callback
has been called since `log`. -/
structure Pooled (e : CmdEntry cfg) (log : List (Event cfg)) (lines : List (List UInt8))
    (w : World cfg σ) : Prop where
  active : w.eng.queue w.eng.qTail = e
  pool : lines <+: w.eng.pool.lines
  log : ∃ evs, w.log = log ++ evs ∧ firings evs = []

/-- The first callback called since `log` is that of `e`, and got the lines. -/
def HandedOver (e : CmdEntry cfg) (log : List (Event cfg)) (lines : List (List UInt8))
    (w : World cfg σ) : Prop :=
  ∃ C f r D, w.log = log ++ (C ++ .fired f e.user r :: D) ∧ firings C = [] ∧ e.cb = some f ∧
    lines <+: r.lines

section

variable {e : CmdEntry cfg} {log : List (Event cfg)} {lines : List (List UInt8)}
  {w w' : World cfg σ}

theorem Pooled.step (h : Pooled e log lines w)
    (hlog : GrowsBy (fun ev => firings [ev] = []) w.log w'.log)
    (hactive : w'.eng.queue w'.eng.qTail = w.eng.queue w.eng.qTail)
    (hpool : w.eng.pool.lines <+: w'.eng.pool.lines) : Pooled e log lines w' := by
  obtain ⟨evs, hevs, hnone⟩ := h.log
  obtain ⟨more, hmore, hmore'⟩ := hlog
  refine ⟨hactive.trans h.active, h.pool.trans hpool, evs ++ more, ?_, ?_⟩
  · rw [hmore, hevs, List.append_assoc]
  · rw [firings_append, hnone, List.nil_append]
    refine List.filterMap_eq_nil_iff.mpr fun ev hev => ?_
    have hone := hmore' ev hev
    cases ev <;> first | rfl | cases hone

theorem HandedOver.mono (h : HandedOver e log lines w) (hlog : w.log <+: w'.log) :
    HandedOver e log lines w' := by
  obtain ⟨C, f, r, D, hw, hC, hcb, hr⟩ := h
  obtain ⟨E, hE⟩ := hlog
  refine ⟨C, f, r, D ++ E, ?_, hC, hcb, hr⟩
  rw [← hE, hw]
  simp

/-- The callback is called with what is in the pool. -/
theorem Pooled.fire (h : Pooled e log lines w) (hcb : e.cb.isSome) (s : AtResult) (c : Int) :
    HandedOver e log lines (w.fire e (finalResponse s c w.eng)) := by
  obtain ⟨f, hf⟩ := Option.isSome_iff_exists.mp hcb
  obtain ⟨evs, hevs, hnone⟩ := h.log
  refine ⟨evs, f, finalResponse s c w.eng, [], ?_, hnone, hf, h.pool⟩
  rw [World.fire_log, CmdEntry.notice, hf, hevs, List.append_assoc]

/-- No other callback comes before it. -/
theorem HandedOver.first (h : HandedOver e log lines w) {C D : List (Event cfg)} {f u : Ptr}
    {r : Response} (hlog : w.log = log ++ (C ++ .fired f u r :: D)) (hC : firings C = []) :
    e.cb = some f ∧ u = e.user ∧ lines <+: r.lines := by
  obtain ⟨C', f', r', D', hlog', hC', hcb, hr⟩ := h
  have heq := List.append_cancel_left (hlog.symm.trans hlog')
  have hnot {A B : List (Event cfg)} {f u : Ptr} {r : Response}
      (h : firings (A ++ .fired f u r :: B) = []) : False := by
    rw [firings_append] at h
    simp [firings] at h
  rcases append_split heq with ⟨Q, rfl⟩ | ⟨E, rfl, hE⟩
  · exact (hnot hC).elim
  · cases E with
    | nil =>
      obtain ⟨rfl, rfl, rfl⟩ := Event.fired.inj (List.cons.inj hE).1
      exact ⟨hcb, rfl, hr⟩
    | cons ev E =>
      obtain ⟨rfl, -⟩ := List.cons.inj hE
      exact (hnot hC').elim

theorem Edit.grows (h : Edit w w') : GrowsBy (fun ev => firings [ev] = []) w.log w'.log := by
  cases h with
  | nested | send => exact (GrowsBy.refl _).concat rfl
  | _ => exact .refl _

theorem Receive.grows (h : Receive w w') : GrowsBy (fun ev => firings [ev] = []) w.log w'.log := by
  cases h with
  | echo | ignored => exact (GrowsBy.refl _).concat rfl
  | urc l i => exact ⟨[.line .urc l, .urc _ _ l], List.append_assoc _ _ _, by simp [firings]⟩
  | accumulate l =>
    rw [accumulate_log]
    refine (GrowsBy.refl _).concat ?_
    split <;> rfl
  | _ => exact .refl _

/-- Lines in the pool stay there. -/
theorem accumulate_pool (hfit : cfg.Fits) (l : List UInt8) (w : World cfg σ) :
    w.eng.pool.lines <+: (accumulate l w).eng.pool.lines := by
  rw [accumulate]
  split
  · dsimp only
    split
    · rename_i p hp
      rw [World.putEng_eng, (respPoolAppend_some hfit hp).2.2]
      exact List.prefix_append _ _
    · exact List.prefix_refl _
  · exact List.prefix_refl _

theorem answerPrompt_pooled {env : Env σ} {l : List UInt8} {b : Bool} (h : Pooled e log lines w)
    (ha : answerPrompt env (w.eng.queue w.eng.qTail) (w.emit (.line (.prompt true) l)) = (b, w')) :
    Pooled e log lines w' := by
  have heng := answerPrompt_eng env (w.eng.queue w.eng.qTail) (w.emit (.line (.prompt true) l))
  have hlog := answerPrompt_growsBy (p := fun ev => firings [ev] = []) (fun _ _ _ => rfl)
    (fun _ => rfl) env (w.eng.queue w.eng.qTail) (w.emit (.line (.prompt true) l))
  rw [ha] at heng hlog
  have hline : GrowsBy (fun ev => firings [ev] = []) w.log (w.emit (.line (.prompt true) l)).log :=
    (GrowsBy.refl _).concat rfl
  refine h.step (hline.trans hlog) ?_ ?_ <;> rw [heng]
  · rfl
  · exact List.prefix_refl _

end

/-- Delivery as a discipline: as long as the command is waited for, the lines are
in the pool; when it completes, its callback gets them. -/
def deliveryDiscipline (hfit : cfg.Fits) {e : CmdEntry cfg} (hcb : e.cb.isSome)
    (log : List (Event cfg)) (lines : List (List UInt8)) : Discipline cfg σ where
  rest w := QueueOk w.eng ∧
    (w.eng.state = .waiting ∧ Pooled e log lines w ∨ HandedOver e log lines w)
  ending _ w := QueueOk w.eng ∧ 0 < w.eng.qCount ∧ (Pooled e log lines w ∨ HandedOver e log lines w)
  finalizing _ _ w := QueueOk w.eng ∧ 0 < w.eng.qCount ∧ HandedOver e log lines w
  notifying _ w := QueueOk w.eng ∧ w.eng.state = .idle ∧ 0 < w.eng.qCount ∧ HandedOver e log lines w
  ok _ := True
  rest_ok _ := trivial
  finalizing_ok _ := trivial
  notifying_ok _ := trivial
  rest_edit w w' h he := by
    obtain ⟨hqueue, hu⟩ := he.queue hfit h.1
    refine ⟨hqueue, h.2.imp (fun ⟨hs, hp⟩ => ⟨hu.state.trans hs, hp.step he.grows ?_ ?_⟩)
      fun hd => hd.mono (he.grows.log_mono)⟩
    · rw [hu.qTail]
      exact hu.oldest (h.1.active (by simp [hs]))
    · obtain ⟨rx, queue, qHead, qCount, timerMs, urcTable, heng⟩ := he.eng_eq
      exact ⟨[], by rw [heng, List.append_nil]⟩
  finalizing_edit i e w w' h he := by
    obtain ⟨hqueue, hu⟩ := he.queue hfit h.1
    exact ⟨hqueue, h.2.1.trans_le hu.count_le, h.2.2.mono he.grows.log_mono⟩
  notifying_edit e w w' h he := by
    obtain ⟨hqueue, hu⟩ := he.queue hfit h.1
    exact ⟨hqueue, hu.state.trans h.2.1, h.2.2.1.trans_le hu.count_le,
      h.2.2.2.mono he.grows.log_mono⟩
  active h := h.1.active
  traceHook w hook h := ⟨h.1.congr ⟨rfl, rfl, rfl, rfl⟩ h.1.active, h.2.imp
    (fun ⟨hs, hp⟩ => ⟨hs, hp.step (.refl _) rfl (List.prefix_refl _)⟩)
    fun hd => hd.mono (List.prefix_refl _)⟩
  receive w w' h hr := by
    obtain ⟨hq, hs⟩ := hr.queue
    refine ⟨h.1.congr hq (hs ▸ h.1.active), h.2.imp
      (fun ⟨hw, hp⟩ => ⟨hs.trans hw, hp.step hr.grows ?_ ?_⟩) fun hd => hd.mono hr.grows.log_mono⟩
    · rw [hq.queue, hq.qTail]
    · cases hr with
      | byte b g hb =>
        obtain ⟨line, lfsm, rfl⟩ := lfsmByte_eq hb
        exact List.prefix_refl _
      | accumulate l => exact accumulate_pool hfit l w
      | _ => exact List.prefix_refl _
  answered env w w' l h hs ha := by
    have heng := answerPrompt_eng env (w.eng.queue w.eng.qTail) (w.emit (.line (.prompt true) l))
    have hlog := answerPrompt_growsBy (p := fun _ => True) (fun _ _ _ => trivial)
      (fun _ => trivial) env (w.eng.queue w.eng.qTail) (w.emit (.line (.prompt true) l))
    rw [ha] at heng hlog
    refine ⟨?_, h.2.imp (fun ⟨_, hp⟩ => ⟨by rw [heng]; rfl, answerPrompt_pooled hp ha⟩)
      fun hd => hd.mono ((List.prefix_append _ _).trans hlog.log_mono)⟩
    rw [heng]
    exact h.1.congr ⟨rfl, rfl, rfl, rfl⟩ fun _ => h.1.active (by simp [hs])
  failed env w w' l h hs ha := by
    have h0 : 0 < w.eng.qCount := h.1.active (by simp [hs])
    have heng := answerPrompt_eng env (w.eng.queue w.eng.qTail) (w.emit (.line (.prompt true) l))
    have hlog := answerPrompt_growsBy (p := fun _ => True) (fun _ _ _ => trivial)
      (fun _ => trivial) env (w.eng.queue w.eng.qTail) (w.emit (.line (.prompt true) l))
    rw [ha] at heng hlog
    refine ⟨?_, ?_, h.2.imp (fun ⟨_, hp⟩ => answerPrompt_pooled hp ha)
      fun hd => hd.mono ((List.prefix_append _ _).trans hlog.log_mono)⟩
    · rw [heng]
      exact h.1.congr ⟨rfl, rfl, rfl, rfl⟩ fun _ => h0
    · rw [heng]
      exact h0
  final w l s c h hs _ := ⟨h.1, h.1.active (by simp [hs]), h.2.imp
    (fun ⟨_, hp⟩ => hp.step ((GrowsBy.refl _).concat rfl) rfl (List.prefix_refl _))
    fun hd => hd.mono (List.prefix_append _ _)⟩
  transmitted env w w' h hs h0 ht := by
    obtain ⟨evs, -, hlog⟩ := transmit_sent env w
    have heng := transmit_eng env w
    rw [ht] at hlog heng
    refine ⟨?_, .inr (h.2.resolve_left (by simp [hs]) |>.mono ⟨_, hlog.symm⟩)⟩
    rw [heng]
    exact h.1.congr ⟨rfl, rfl, rfl, rfl⟩ fun _ => h0
  unsent env w w' h hs h0 ht := by
    obtain ⟨evs, -, hlog⟩ := transmit_sent env w
    have heng := transmit_eng env w
    rw [ht] at hlog heng
    refine ⟨?_, ?_, .inr (h.2.resolve_left (by simp [hs]) |>.mono ⟨_, hlog.symm⟩)⟩
    · rw [heng]
      exact h.1.congr ⟨rfl, rfl, rfl, rfl⟩ fun _ => h0
    · rw [heng]
      exact h0
  cancel w s h hs _ := ⟨h.1, h.1.active hs, h.2.imp_left And.right⟩
  finalize w s c h := by
    obtain ⟨hqueue, h0, hpooled | hdone⟩ := h
    · have hset : Pooled e log lines (w.putEng (setResponse (finalResponse s c w.eng) w.eng)) :=
        hpooled.step (.refl _) rfl (List.prefix_refl _)
      rw [World.fire_eng, hpooled.active]
      exact ⟨hqueue.congr ⟨rfl, rfl, rfl, rfl⟩ hqueue.active, h0, hset.fire hcb s c⟩
    · rw [World.fire_eng]
      refine ⟨hqueue.congr ⟨rfl, rfl, rfl, rfl⟩ hqueue.active, h0, hdone.mono ?_⟩
      rw [World.fire_log]
      exact List.prefix_append _ _
  dequeue w i e h := ⟨h.1.advance hfit h.2.1 rfl rfl rfl rfl,
    .inr (h.2.2.mono (List.prefix_append _ _))⟩
  drainNotify w h hs h0 := by
    have hdone := h.2.resolve_left (by simp [hs])
    rw [World.fire_eng]
    refine ⟨h.1, hs, h0, hdone.mono ?_⟩
    rw [World.fire_log]
    exact List.prefix_append _ _
  drainNext w e h := by
    obtain ⟨hqueue, hs, h0, hdone⟩ := h
    exact ⟨⟨hqueue.advance hfit h0 rfl rfl rfl hs, .inr (hdone.mono (List.prefix_append _ _))⟩, hs⟩
  reset w h hs _ := ⟨h.1.congr ⟨rfl, rfl, rfl, rfl⟩ (absurd rfl),
    .inr ((h.2.resolve_left (by simp [hs])).mono (List.prefix_refl _))⟩
  deinit w h hs _ := ⟨h.1.congr ⟨rfl, rfl, rfl, rfl⟩ (absurd rfl),
    .inr ((h.2.resolve_left (by simp [hs])).mono (List.prefix_refl _))⟩

/-! ## Answers -/

/-- The command asks for a name that begins with `+`: `AT` and the name, and then
nothing, `?`, or `=` and arguments. -/
structure Asks (name cmd : List UInt8) : Prop where
  plus : [43] <+: name
  form : cmd = ascii "AT" ++ name ∨ cmd = ascii "AT" ++ name ++ ascii "?" ∨
    ∃ args, cmd = ascii "AT" ++ name ++ ascii "=" ++ args

theorem Asks.begins {name cmd : List UInt8} (h : Asks name cmd) : ∃ t, cmd = 65 :: 84 :: t := by
  rcases h.form with rfl | rfl | ⟨args, rfl⟩ <;> exact ⟨_, rfl⟩

/-- The line that the next byte in the ring completes is an answer to what the
active command asks for, with room in the pool. -/
structure Answers (name l : List UInt8) (b : UInt8) (rx : RxRing cfg) (g : Engine cfg) : Prop where
  pop : rxringPop g.rx = some (b, rx)
  line : lfsmByte b g = .line l
  state : g.state = .waiting
  asks : Asks name (g.queue g.qTail).cmd.bytes
  named : name ++ [58] <+: l
  noFinal : engineIsFinal l = none
  room : g.pool.count < cfg.respLinesMax

/-- The line is in the pool behind those that came before it, and however the run
goes on, the first callback called from then on is the active command's, and
gets them. -/
def Delivered (env : Env σ) (n : Nat) (l : List UInt8) (b : UInt8) (rx : RxRing cfg)
    (v : World cfg σ) : Prop :=
  ∃ v', processByte (invoke env n) env b (v.putEng { v.eng with rx := rx }) = some v' ∧
    v'.eng.pool.lines = v.eng.pool.lines ++ [l] ∧
    ∀ w, Onward env n v' w → ∀ C f u r D, w.log = v.log ++ (C ++ .fired f u r :: D) →
      firings C = [] → (v.eng.queue v.eng.qTail).cb = some f ∧
        u = (v.eng.queue v.eng.qTail).user ∧ v.eng.pool.lines ++ [l] <+: r.lines

section

variable {name l : List UInt8} {b : UInt8} {rx : RxRing cfg}

theorem Answers.begins {g : Engine cfg} (h : Answers name l b rx g) : ∃ t, l = 43 :: t := by
  obtain ⟨s, rfl⟩ := h.asks.plus
  obtain ⟨t, rfl⟩ := h.named
  exact ⟨_, rfl⟩

/-- An answer is not taken for the echo. -/
theorem Answers.isEcho {g : Engine cfg} (h : Answers name l b rx g) (hecho : AwaitsEcho g) :
    isEcho g l = false := by
  rw [← Bool.not_eq_true, LibAt.isEcho]
  simp only [Bool.and_eq_true, beq_iff_eq, not_and, Bool.not_eq_true]
  rintro ⟨⟨-, harmed⟩, hs⟩
  obtain ⟨t, rfl⟩ := h.begins
  obtain ⟨c, hc⟩ := h.asks.begins
  obtain ⟨hexpect, hlen⟩ := hecho hs harmed
  rw [strncmpEq, hexpect, hlen, hc, beq_eq_false_iff_ne]
  intro heq
  have hhead := congrArg List.head? heq
  simp at hhead

/-- An answer goes to the URC table, and into the pool if no entry takes it. -/
theorem Answers.dispatch {env : Env σ} {invoke : Invocation → World cfg σ → Option (World cfg σ)}
    {v : World cfg σ} (h : Answers name l b rx v.eng) (hecho : AwaitsEcho v.eng) :
    processByte invoke env b (v.putEng { v.eng with rx := rx }) =
      ((urcDispatch invoke l (v.putEng { v.eng with rx := rx })).map fun r =>
        if r.1 then r.2 else accumulate l r.2).map lineDone := by
  have hline : lfsmByte b { v.eng with rx := rx } = .line l :=
    (lfsmByte_mapEng (setRx_inert rx) b v.eng).trans (congrArg _ h.line)
  have he : LibAt.isEcho { v.eng with rx := rx } l = false := h.isEcho hecho
  obtain ⟨t, ht⟩ := h.begins
  have hp : isPrompt { v.eng with rx := rx } l = false := by
    rw [isPrompt, ht]
    simp
  rw [processByte, World.putEng_eng, hline]
  dsimp only
  rw [engineDispatchLine, if_neg (by simp [ht]), World.putEng_eng, he, hp, if_neg (by simp),
    if_neg (by simp)]
  simp only [h.state, if_true, h.noFinal]

/-- The table is asked for an active entry with a prefix of the line. -/
theorem urcMatch_find (hfit : cfg.Fits) (l : List UInt8) (g : Engine cfg) :
    ∃ m, urcMatch l g = some m ∧
      (m = none ↔ ∀ i, (g.urcTable i).active = true → ¬(g.urcTable i).pre.bytes <+: cstr l) := by
  refine ⟨_, urcSearch_eq hfit _, ?_⟩
  rw [List.find?_eq_none]
  constructor
  · intro hnone i hactive hpre
    refine hnone i (List.mem_finRange i) ?_
    rw [hactive, Bool.true_and]
    exact (strncmpEq_length_iff (g.urcTable i).pre.nulFree).mpr hpre
  · intro hnone i _ hi
    obtain ⟨hactive, hpre⟩ := (Bool.and_eq_true _ _).mp hi
    exact hnone i hactive ((strncmpEq_length_iff (g.urcTable i).pre.nulFree).mp hpre)

/-- A handler that takes the answer leaves the pool as it was. -/
theorem Answers.taken {env : Env σ} (henv : env.Respects NotCancelling) {n : Nat}
    {v v' : World cfg σ} (h : Answers name l b rx v.eng) (hecho : AwaitsEcho v.eng)
    {i : Fin cfg.urcTableSize} (hm : urcMatch l v.eng = some (some i))
    (hv' : processByte (invoke env n) env b (v.putEng { v.eng with rx := rx }) = some v') :
    v'.eng.pool = v.eng.pool := by
  have hm' : urcMatch l { v.eng with rx := rx } = some (some i) := hm
  rw [h.dispatch hecho, urcDispatch, World.putEng_eng, hm', Option.bind_eq_bind,
    Option.bind_some] at hv'
  obtain ⟨u, hu, rfl⟩ := Option.map_eq_some_iff.mp hv'
  obtain ⟨⟨taken, u'⟩, hu', rfl⟩ := Option.map_eq_some_iff.mp hu
  obtain ⟨u₁, hhandler, hret⟩ := Option.bind_eq_some_iff.mp hu'
  obtain ⟨rfl, rfl⟩ := Prod.mk.inj (Option.some.inj hret)
  obtain ⟨-, hedits⟩ := invokeIf_follow henv (fun _ => True) n _ _ _ trivial hhandler
  refine hedits.invariant (I := fun u => u.eng.pool = v.eng.pool) (fun u u' hu he => ?_) rfl
  obtain ⟨rx, queue, qHead, qCount, timerMs, urcTable, heng⟩ := he.eng_eq
  rw [heng]
  exact hu

/-- An answer that no entry takes goes into the pool. -/
theorem Answers.pooled (hfit : cfg.Fits) {env : Env σ}
    {invoke : Invocation → World cfg σ → Option (World cfg σ)} {v : World cfg σ}
    (h : Answers name l b rx v.eng) (hecho : AwaitsEcho v.eng) (hrep : Representation v.eng)
    (hm : urcMatch l v.eng = some none) :
    ∃ v', processByte invoke env b (v.putEng { v.eng with rx := rx }) = some v' ∧
      v'.eng.pool.lines = v.eng.pool.lines ++ [l] ∧ QueueOk v'.eng ∧ v'.eng.state = .waiting ∧
      Pooled (v.eng.queue v.eng.qTail) v.log (v.eng.pool.lines ++ [l]) v' := by
  have hm' : urcMatch l { v.eng with rx := rx } = some none := hm
  have hlen : l.length ≤ cfg.lineMax - 1 := (lfsmByte_dispatched h.line).length_le hrep.line_le
  obtain ⟨p, happend⟩ : ∃ p, respPoolAppend v.eng.pool l = some p := ⟨_, dif_pos h.room⟩
  obtain ⟨-, -, hlines⟩ := respPoolAppend_some hfit happend
  rw [List.take_of_length_le hlen] at hlines
  have hacc := accumulate_some (w := v.putEng { v.eng with rx := rx }) h.state happend
  refine ⟨lineDone (accumulate l (v.putEng { v.eng with rx := rx })), ?_, ?_, ?_, ?_, ?_, ?_,
    [.line .payload l], ?_, rfl⟩
  · rw [h.dispatch hecho, urcDispatch, World.putEng_eng, hm']
    rfl
  all_goals rw [hacc]
  · exact hlines
  · exact hrep.queueOk.congr ⟨rfl, rfl, rfl, rfl⟩ hrep.active
  · exact h.state
  · rfl
  · exact hlines.symm ▸ List.prefix_refl _
  · rfl

/-- **A command's own answer** is delivered exactly when no active entry of the
URC table has a prefix of it. This holds in every run whose hooks cancel
nothing, at every round of every drain loop, and whatever its command asks
for; and `at_parse_creg` accepts a successful response to which a `+CREG` line
was delivered. -/
theorem own_answer_iff (hfit : cfg.Fits) (htx : cfg.txBufSize ≤ 2 ^ 16) {w v : World cfg σ}
    (hw : Reachable (fun env _ => env.Respects NotCancelling) w) {env : Env σ}
    (henv : env.Respects NotCancelling) {n : Nat} {s : σ}
    (hv : Rounds (invoke env n) env (w.putApp s) v) (h : Answers name l b rx v.eng)
    (hcb : (v.eng.queue v.eng.qTail).cb.isSome) :
    (Delivered env n l b rx v ↔
      ∀ i, (v.eng.urcTable i).active = true → ¬(v.eng.urcTable i).pre.bytes <+: cstr l) ∧
    ∀ r : Response, r.Valid → r.status = .ok → r.numLines = r.lines.length →
      v.eng.pool.lines ++ [l] <+: r.lines → ascii "+CREG" <+: l →
        ∀ out, ∃ stat, Checked.atParseCreg (some r) (some out) = .ok (true, some stat) := by
  have htx₂ : 2 ≤ cfg.txBufSize := by
    obtain ⟨t, ht⟩ := h.asks.begins
    have hlt := (v.eng.queue v.eng.qTail).cmd.fits
    rw [ht, List.length_cons, List.length_cons] at hlt
    omega
  have hrep : Representation v.eng := by
    have hrest := (representationDiscipline (σ := σ) hfit htx₂).reachable (fun _ _ henv => henv)
      (fun _ => ⟨.init, .inl rfl⟩) hw
    exact ((representationDiscipline hfit htx₂).rounds henv (w := w.putApp s) hrest hv).1
  have hecho : AwaitsEcho v.eng := by
    have hrest := (echoDiscipline (σ := σ) hfit htx).reachable (fun _ _ henv => henv)
      (fun _ => ⟨Representation.init.queueOk,
        fun (hs : AtState.idle = .waiting) => absurd hs (by decide)⟩) hw
    exact ((echoDiscipline hfit htx).rounds henv (w := w.putApp s) hrest hv).2
  obtain ⟨m, hm, hnone⟩ := urcMatch_find hfit l v.eng
  rw [← hnone]
  refine ⟨⟨?_, ?_⟩, fun r hr hs hn hlines hpre => Checked.atParseCreg_accepts hr hs
    (by rw [hn, List.take_length]; exact hlines.subset (by simp)) hpre⟩
  · rintro ⟨v', hv', hpool, -⟩
    by_contra hne
    obtain ⟨i, rfl⟩ := Option.ne_none_iff_exists'.mp hne
    have hlen := congrArg List.length hpool
    rw [h.taken henv hecho hm hv', List.length_append, List.length_singleton] at hlen
    omega
  · rintro rfl
    obtain ⟨v', hv', hpool, hqueue, hs, hpooled⟩ := h.pooled hfit hecho hrep hm
    refine ⟨v', hv', hpool, fun u hu C f user r D hlog hC => ?_⟩
    have hrest := (deliveryDiscipline (σ := σ) hfit hcb v.log (v.eng.pool.lines ++ [l])).onward henv
      (v := v') ⟨hqueue, .inl ⟨hs, hpooled⟩⟩ hu
    rcases hrest.2 with ⟨-, hpooled'⟩ | hdone
    · obtain ⟨evs, hevs, hnone'⟩ := hpooled'.log
      rw [List.append_cancel_left (hevs.symm.trans hlog), firings_append] at hnone'
      simp [firings] at hnone'
    · exact hdone.first hlog hC

end

/-- What `at_gsm_creg_query` sends. -/
def cregQuery : CmdDesc := rawDesc (ascii "AT+CREG?") 0 (some 1) 7

theorem atGsmCregQuery_eq (g : Engine cfg) : atGsmCregQuery (some 1) 7 g = atSend (some cregQuery) g :=
  rfl

/-- The last byte of an answer, with a handler for another name. -/
theorem own_answer_iff_creg : ∃ (v : World Config.default Unit) (rx : RxRing Config.default),
    (∃ i, (v.eng.urcTable i).active = true) ∧
    ((Delivered plainEnv 16 (ascii "+CREG: 0,1") 10 rx v ↔
        ∀ i, (v.eng.urcTable i).active = true →
          ¬(v.eng.urcTable i).pre.bytes <+: cstr (ascii "+CREG: 0,1")) ∧
      ∀ r : Response, r.Valid → r.status = .ok → r.numLines = r.lines.length →
        v.eng.pool.lines ++ [ascii "+CREG: 0,1"] <+: r.lines →
          ascii "+CREG" <+: ascii "+CREG: 0,1" →
            ∀ out, ∃ stat, Checked.atParseCreg (some r) (some out) = .ok (true, some stat)) := by
  obtain ⟨v, hv, hp⟩ := Reachable.of_execAll (P := fun env _ => env.Respects NotCancelling)
    plainEnv 16
    [.api (.registerUrc (some (ascii "+CMTI")) (some 5) 0), .api (.send (some cregQuery)), .process,
      .api (.feed (ascii "+CREG: 0,1\r")), .process, .api (.feed (ascii "\n"))]
    () (fun _ => plainEnv_respects _)
    (fun v : World Config.default Unit =>
      decide ((v.eng.urcTable ⟨0, by decide⟩).active = true ∧
        (rxringPop v.eng.rx).map Prod.fst = some 10 ∧
        v.eng.lfsm = .cr ∧ v.eng.line = ascii "+CREG: 0,1" ∧ v.eng.state = .waiting ∧
        (v.eng.queue v.eng.qTail).cmd.bytes = ascii "AT+CREG?" ∧
        v.eng.pool.count < Config.default.respLinesMax ∧
        (v.eng.queue v.eng.qTail).cb.isSome)) (by decide +kernel)
  obtain ⟨hactive, hpop, hlfsm, hline, hs, hcmd, hroom, hcb⟩ := of_decide_eq_true hp
  obtain ⟨⟨b, rx⟩, hrx, rfl⟩ := Option.map_eq_some_iff.mp hpop
  have hasks : Asks (ascii "+CREG") (ascii "AT+CREG?") := ⟨by decide, .inr (.inl rfl)⟩
  have hanswers : Answers (ascii "+CREG") (ascii "+CREG: 0,1") 10 rx v.eng :=
    ⟨hrx, by rw [← hline]; simp [lfsmByte, hlfsm], hs, hcmd ▸ hasks, by decide, by decide, hroom⟩
  exact ⟨v, rx, ⟨_, hactive⟩, own_answer_iff Config.default_fits (by decide) hv
    (plainEnv_respects _) (s := v.app) .start hanswers hcb⟩

/-- A handler for `+CREG` takes the answer to `AT+CREG?`, and the callback gets a
response without lines, which `at_parse_creg` does not accept. -/
theorem own_answer_taken : ∃ w : World Config.default Unit,
    Reachable (fun env _ => env.Respects NotCancelling) w ∧
    w.log = [.accepted cregQuery, .start (cmdEntryOf _ cregQuery),
      .write .cmd (ascii "AT+CREG?") 8, .write .cr [13] 1,
      .line .urc (ascii "+CREG: 0,1"), .urc 5 0 (ascii "+CREG: 0,1"),
      .line .final (ascii "OK"), .fired 1 7 ⟨.ok, 0, 0, []⟩,
      .completed (cmdEntryOf _ cregQuery)] ∧
    Asks (ascii "+CREG") (cmdEntryOf Config.default cregQuery).cmd.bytes ∧
    ascii "+CREG" ++ [58] <+: ascii "+CREG: 0,1" ∧
    ∀ out, Checked.atParseCreg (some ⟨.ok, 0, 0, []⟩) (some out) = .ok (false, some out) ∧
      Checked.atParseCreg (some ⟨.ok, 0, 1, [ascii "+CREG: 0,1"]⟩) (some out) =
        .ok (true, some 1) := by
  obtain ⟨w, hw, hp⟩ := Reachable.of_execAll (P := fun env _ => env.Respects NotCancelling)
    plainEnv 64
    [.api (.registerUrc (some (ascii "+CREG")) (some 5) 0), .api (.send (some cregQuery)), .process,
      .api (.feed (ascii "+CREG: 0,1\r\nOK\r\n")), .process]
    () (fun _ => plainEnv_respects _)
    (fun w : World Config.default Unit => decide (w.log = [.accepted cregQuery,
      .start (cmdEntryOf _ cregQuery), .write .cmd (ascii "AT+CREG?") 8, .write .cr [13] 1,
      .line .urc (ascii "+CREG: 0,1"), .urc 5 0 (ascii "+CREG: 0,1"),
      .line .final (ascii "OK"), .fired 1 7 ⟨.ok, 0, 0, []⟩,
      .completed (cmdEntryOf _ cregQuery)])) (by decide +kernel)
  refine ⟨w, hw, of_decide_eq_true hp, ⟨by decide, .inr (.inl (by decide))⟩, by decide,
    fun out => ⟨rfl, ?_⟩⟩
  rw [Checked.atParseCreg_eq ⟨by decide, by decide⟩ rfl]
  rfl

end LibAt
