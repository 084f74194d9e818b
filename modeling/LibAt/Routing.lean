import LibAt.Lines
import LibAt.Timeout

/-!
# Where the lines of a response go

Between its transmission and its final result every line the modem sends goes
one way: the first one that begins with the command is its echo, prompts are
answered or dropped, lines with an active URC prefix go to the handler of the
lowest slot, and the others are the response. `Listening` is the state after
some lines in terms of these classes, and `routing_exact` says that the callback
gets exactly the lines of the last class, however bytes, ticks and `at_process`
calls were interleaved.
-/

namespace LibAt

variable {cfg : Config} {σ : Type} {env : Env σ}

/-! ## The classes of lines -/

/-- The lines without the echo: the first line that begins with the command. -/
def unechoed (cmd : List UInt8) (lines : List (List UInt8)) : List (List UInt8) :=
  lines.eraseP fun l => decide (cmd <+: l)

/-- The lines that are neither prompts nor taken by a handler. -/
def kept (table : Fin cfg.urcTableSize → UrcEntry cfg) (lines : List (List UInt8)) :
    List (List UInt8) :=
  lines.filter fun l => !decide ([62, 32] <+: l) && (taker table l).isNone

/-- The handler calls for the lines that are no prompts. -/
def handled (table : Fin cfg.urcTableSize → UrcEntry cfg) (lines : List (List UInt8)) :
    List (Ptr × Ptr × List UInt8) :=
  lines.filterMap fun l =>
    if [62, 32] <+: l then none
    else (taker table l).map fun i => ((table i).cb, (table i).user, l)

/-- The handler calls in a stretch of the log. -/
def handlerCalls (evs : List (Event cfg)) : List (Ptr × Ptr × List UInt8) :=
  evs.filterMap fun | .urc f u l => some (f, u, l) | _ => none

theorem handlerCalls_append (as bs : List (Event cfg)) :
    handlerCalls (as ++ bs) = handlerCalls as ++ handlerCalls bs :=
  List.filterMap_append

theorem handlerCalls_eq_nil {evs : List (Event cfg)} (h : ∀ ev ∈ evs, handlerCalls [ev] = []) :
    handlerCalls evs = [] := by
  induction evs with
  | nil => rfl
  | cons ev evs ih =>
    obtain ⟨hev, hevs⟩ := List.forall_mem_cons.mp h
    rw [← List.singleton_append, handlerCalls_append, hev, ih hevs, List.append_nil]

/-! ## Line by line -/

/-- The command `e` is waited for; the lines `heard`, the echo not counted, have
come in since it was transmitted with the log at `log`, and the echo test is
`armed`. -/
structure Listening (e : CmdEntry cfg) (table : Fin cfg.urcTableSize → UrcEntry cfg)
    (log : List (Event cfg)) (armed : Bool) (heard : List (List UInt8)) (w : World cfg σ) :
    Prop where
  state : w.eng.state = .waiting
  active : w.eng.queue w.eng.qTail = e
  urcs : w.eng.urcTable = table
  expect : w.eng.echoExpect.bytes = e.cmd.bytes
  expectLen : w.eng.echoLen = e.cmd.bytes.length
  armed : w.eng.echoArmed = armed
  pool : w.eng.pool.lines = kept table heard
  count : w.eng.pool.count = (kept table heard).length
  log : ∃ evs, w.log = log ++ evs ∧ history evs = [] ∧ handlerCalls evs = handled table heard

section

variable {e : CmdEntry cfg} {table : Fin cfg.urcTableSize → UrcEntry cfg} {log : List (Event cfg)}
  {armed : Bool} {heard : List (List UInt8)} {w w' : World cfg σ} {l : List UInt8}

/-- The echo test on a line of a stream. -/
theorem Listening.isEcho_iff (hecho : cfg.echoCancel = true)
    (h : Listening e table log armed heard w) (hl : LineText cfg l) :
    isEcho w.eng l = true ↔ armed = true ∧ e.cmd.bytes <+: l := by
  rw [isEcho, hecho, h.armed, h.state, h.expect, h.expectLen, ← strncmpEq_iff hl.nul e.cmd.nulFree]
  simp

/-- What is logged for a line goes behind what was logged before. -/
theorem Listening.logged (h : Listening e table log armed heard w) {evs : List (Event cfg)}
    (hlog : w'.log = w.log ++ evs) (hhist : history evs = [])
    (hcalls : handlerCalls evs = handled table [l]) :
    ∃ evs, w'.log = log ++ evs ∧ history evs = [] ∧
      handlerCalls evs = handled table (heard ++ [l]) := by
  obtain ⟨before, hbefore, hhist', hcalls'⟩ := h.log
  refine ⟨before ++ evs, ?_, ?_, ?_⟩
  · rw [hlog, hbefore, List.append_assoc]
  · rw [history_append, hhist', hhist, List.append_nil]
  · rw [handlerCalls_append, hcalls', hcalls, handled, handled, handled, List.filterMap_append]

/-- A line that does not get into the pool. -/
theorem Listening.passed (h : Listening e table log armed heard w) (evs : List (Event cfg))
    {t : Nat} (hkept : kept table [l] = []) (hlog : w'.log = w.log ++ evs)
    (hhist : history evs = []) (hcalls : handlerCalls evs = handled table [l])
    (heng : w'.eng = { w.eng with timerMs := t }) :
    Listening e table log armed (heard ++ [l]) w' := by
  have hheard : kept table (heard ++ [l]) = kept table heard := by
    rw [kept, List.filter_append]
    exact (congrArg (_ ++ ·) hkept).trans (List.append_nil _)
  have hlogged := h.logged hlog hhist hcalls
  refine ⟨?_, ?_, ?_, ?_, ?_, ?_, ?_, ?_, hlogged⟩ <;> rw [heng]
  · exact h.state
  · exact h.active
  · exact h.urcs
  · exact h.expect
  · exact h.expectLen
  · exact h.armed
  · exact hheard ▸ h.pool
  · exact hheard ▸ h.count

/-- A line nobody takes gets into the pool, if there is room. -/
theorem Listening.accumulate (hfit : cfg.Fits) (h : Listening e table log armed heard w)
    (hl : LineText cfg l) (hp : ¬[62, 32] <+: l) (hu : taker table l = none)
    (hroom : (kept table (heard ++ [l])).length ≤ cfg.respLinesMax) :
    Listening e table log armed (heard ++ [l]) (accumulate l w) := by
  have hkept : kept table (heard ++ [l]) = kept table heard ++ [l] := by
    rw [kept, kept, List.filter_append]
    simp [hp, hu]
  have hcalls (k : LineKind) : handlerCalls ([.line k l] : List (Event cfg)) =
      handled table [l] := by
    simp [handlerCalls, handled, hu]
  have hlogged := h.logged (accumulate_log l w) rfl (hcalls _)
  rw [hkept, List.length_append, List.length_singleton, ← h.count] at hroom
  have happend : respPoolAppend w.eng.pool l = some _ := dif_pos hroom
  obtain ⟨-, hcount, hlines⟩ := respPoolAppend_some hfit happend
  rw [accumulate_some h.state happend] at hlogged ⊢
  refine ⟨h.state, h.active, h.urcs, h.expect, h.expectLen, h.armed, ?_, ?_, hlogged⟩
  · rw [hkept, World.putEng_eng, hlines, h.pool, List.take_of_length_le hl.le]
  · rw [hkept, World.putEng_eng, hcount, h.count, List.length_append, List.length_singleton]

/-- **One line.** It is the echo, or it goes where its class says. -/
theorem Listening.dispatches (hfit : cfg.Fits) (hecho : cfg.echoCancel = true)
    (henv : env.Delivers) (h : Listening e table log armed heard w) (hl : LineText cfg l)
    (hfinal : ¬(armed = true ∧ e.cmd.bytes <+: l) → engineIsFinal l = none)
    (hroom : ¬(armed = true ∧ e.cmd.bytes <+: l) →
      (kept table (heard ++ [l])).length ≤ cfg.respLinesMax)
    (hd : Dispatches env l w w') :
    if armed = true ∧ e.cmd.bytes <+: l then Listening e table log false heard w'
    else Listening e table log armed (heard ++ [l]) w' := by
  have hnot (he : isEcho w.eng l = false) : ¬(armed = true ∧ e.cmd.bytes <+: l) := by
    rw [← h.isEcho_iff hecho hl, he]
    exact Bool.false_ne_true
  have hprompt (hp : isPrompt w.eng l = true) : [62, 32] <+: l := isPrompt_begins hp
  have hnoprompt (hp : isPrompt w.eng l = false) : ¬[62, 32] <+: l :=
    (isPrompt_eq_false_iff h.state).mp hp
  cases hd with
  | empty hnil => exact absurd hnil hl.ne_nil
  | echo he =>
    rw [if_pos ((h.isEcho_iff hecho hl).mp he)]
    obtain ⟨evs, hevs, hhist, hcalls⟩ := h.log
    refine ⟨h.state, h.active, h.urcs, h.expect, h.expectLen, rfl, h.pool, h.count,
      evs ++ [.line .echo l], ?_, ?_, ?_⟩
    · rw [World.emit_log, World.putEng_log, hevs, List.append_assoc]
    · rw [history_append, hhist]
      rfl
    · rw [handlerCalls_append, hcalls]
      exact List.append_nil _
  | ignored he hp _ =>
    rw [if_neg (hnot he)]
    have hpre := hprompt hp
    exact h.passed [.line (.prompt false) l] (t := w.eng.timerMs) (by simp [kept, hpre]) rfl rfl
      (by simp [handled, hpre, handlerCalls]) rfl
  | answered w' he hp _ ha =>
    rw [if_neg (hnot he)]
    have hpre := hprompt hp
    have heng := answerPrompt_eng env (w.eng.queue w.eng.qTail) (w.emit (.line (.prompt true) l))
    obtain ⟨evs, hsent, hlog⟩ := answerPrompt_sent env (w.eng.queue w.eng.qTail)
      (w.emit (.line (.prompt true) l))
    rw [ha] at heng hlog
    have hhist : history evs = [] := (still_spec (hsent.forall (p := fun ev => ev.still)
      (fun _ _ => rfl) (fun _ _ => rfl) fun _ => rfl)).1
    have hcalls : handlerCalls evs = [] := handlerCalls_eq_nil (hsent.forall
      (fun _ _ => rfl) (fun _ _ => rfl) fun _ => rfl)
    refine h.passed (.line (.prompt true) l :: evs) (t := cfg.promptTimeoutMs)
      (by simp [kept, hpre]) ?_ hhist ?_ ?_
    · rw [hlog, World.emit_log, List.append_assoc]
      rfl
    · refine Eq.trans hcalls ?_
      simp [handled, hpre]
    · rw [heng, World.emit_eng, if_pos rfl, ← h.state]
  | failed w₁ _ _ _ ha =>
    have hsent := answerPrompt_delivers henv (w.eng.queue w.eng.qTail)
      (w.emit (.line (.prompt true) l))
    rw [ha] at hsent
    cases hsent
  | final s c he _ _ hfin =>
    rw [hfinal (hnot he)] at hfin
    cases hfin
  | urc i he hp _ hm =>
    rw [if_neg (hnot he)]
    have hpre := hnoprompt hp
    rw [urcMatch_eq hfit hl.nul, h.urcs] at hm
    have hu := Option.some.inj hm
    refine h.passed [.line .urc l, .urc (table i).cb (table i).user l]
      (t := w.eng.timerMs) (by simp [kept, hu]) ?_ rfl ?_ rfl
    · rw [← h.urcs]
      exact List.append_assoc _ _ _
    · simp [handled, hpre, hu, handlerCalls]
  | other he hp _ hm =>
    rw [if_neg (hnot he)]
    rw [urcMatch_eq hfit hl.nul, h.urcs] at hm
    exact h.accumulate hfit hl (hnoprompt hp) (Option.some.inj hm) (hroom (hnot he))

end

/-! ## Byte by byte -/

/-- The lines of an exchange up to its last one: no final result among those
that are not the echo, and no more payload than there is room for. -/
structure Payload (e : CmdEntry cfg) (table : Fin cfg.urcTableSize → UrcEntry cfg)
    (init : List (List UInt8)) : Prop where
  text : ∀ l ∈ init, LineText cfg l
  noFinal : ∀ l ∈ unechoed e.cmd.bytes init, engineIsFinal l = none
  room : (kept table (unechoed e.cmd.bytes init)).length ≤ cfg.respLinesMax

/-- The lines `init` and then `last` are on their way, and `bs` is still to
come. -/
def Midway (e : CmdEntry cfg) (table : Fin cfg.urcTableSize → UrcEntry cfg)
    (log : List (Event cfg)) (init : List (List UInt8)) (last : List UInt8) (bs : List UInt8)
    (w : World cfg σ) : Prop :=
  ∃ armed heard done rest, done ++ rest = init ∧
    (armed = true → ∀ l ∈ done, ¬e.cmd.bytes <+: l) ∧
    heard ++ (if armed then unechoed e.cmd.bytes rest else rest) = unechoed e.cmd.bytes init ∧
    Remaining w.eng (rest ++ [last]) bs ∧ Listening e table log armed heard w

section

variable {e : CmdEntry cfg} {table : Fin cfg.urcTableSize → UrcEntry cfg} {log : List (Event cfg)}
  {init : List (List UInt8)} {last : List UInt8} {w w' : World cfg σ}

/-- Fields that the lines do not depend on may change. -/
theorem Midway.congr {bs : List UInt8} (h : Midway e table log init last bs w)
    (heng : ∃ rx t, w'.eng = { w.eng with rx := rx, timerMs := t }) (hlog : w'.log = w.log) :
    Midway e table log init last bs w' := by
  obtain ⟨rx, t, heng⟩ := heng
  obtain ⟨armed, heard, done, rest, hdone, harmed, hheard, hrem, hl⟩ := h
  refine ⟨armed, heard, done, rest, hdone, harmed, hheard, ?_, ?_⟩
  · rw [heng]
    exact hrem.congr rfl rfl
  · constructor <;> (try rw [heng]) <;> (try rw [hlog]) <;> first
      | exact hl.state
      | exact hl.active
      | exact hl.urcs
      | exact hl.expect
      | exact hl.expectLen
      | exact hl.armed
      | exact hl.pool
      | exact hl.count
      | exact hl.log

theorem Listening.setLine {armed : Bool} {heard : List (List UInt8)}
    (h : Listening e table log armed heard w) (l : List UInt8) (s : LineFsm) :
    Listening e table log armed heard (w.putEng { w.eng with line := l, lfsm := s }) :=
  ⟨h.state, h.active, h.urcs, h.expect, h.expectLen, h.armed, h.pool, h.count, h.log⟩

/-- **One byte**, not the last one of the stream. -/
theorem Midway.byte (hfit : cfg.Fits) (hecho : cfg.echoCancel = true)
    (henv : env.Respects CallbacksOnly) (hwrite : env.Delivers) (hpay : Payload e table init)
    (hlast : LineText cfg last) (n : Nat) {b : UInt8} {bs : List UInt8} (hbs : bs ≠ [])
    (h : Midway e table log init last (b :: bs) w) :
    ∃ w', processByte (invoke env (n + 1)) env b w = some w' ∧ w'.eng.rx = w.eng.rx ∧
      Midway e table log init last bs w' := by
  obtain ⟨armed, heard, done, rest, hdone, harmed, hheard, hrem, hl⟩ := h
  have htext : ∀ l ∈ rest ++ [last], LineText cfg l := by
    intro l hmem
    rcases List.mem_append.mp hmem with hmem | hmem
    · exact hpay.text l (hdone ▸ List.mem_append_right _ hmem)
    · rw [List.mem_singleton.mp hmem]
      exact hlast
  rcases hrem.byte htext with ⟨line, lfsm, hmore, hrem'⟩ | ⟨l, ls, hls, hline, rfl⟩
  · refine ⟨w.putEng { w.eng with line := line, lfsm := lfsm }, ?_, rfl,
      armed, heard, done, rest, hdone, harmed, hheard, hrem', hl.setLine line lfsm⟩
    rw [processByte, hmore]
  · -- a line is complete, and it is not the last one
    obtain ⟨rest', rfl, rfl⟩ : ∃ rest', rest = l :: rest' ∧ ls = rest' ++ [last] := by
      cases rest with
      | nil =>
        obtain ⟨-, rfl⟩ := List.cons.inj hls
        exact absurd rfl hbs
      | cons a rest' =>
        obtain ⟨rfl, rfl⟩ := List.cons.inj hls
        exact ⟨rest', rfl, rfl⟩
    have hnext (hnot : ¬(armed = true ∧ e.cmd.bytes <+: l)) :
        (heard ++ [l]) ++ (if armed then unechoed e.cmd.bytes rest' else rest') =
          unechoed e.cmd.bytes init := by
      rw [← hheard, List.append_assoc, List.singleton_append]
      cases armed with
      | false => rfl
      | true =>
        rw [if_pos rfl, if_pos rfl, unechoed, unechoed,
          List.eraseP_cons_of_neg (by simpa using hnot)]
    have hnofinal (hnot : ¬(armed = true ∧ e.cmd.bytes <+: l)) : engineIsFinal l = none :=
      hpay.noFinal l (by rw [← hnext hnot]; simp)
    have hnot (s : AtResult) (c : Int) : ¬Completes w.eng l s c := by
      intro hc
      have hfin := hc.final
      rw [hnofinal ?_] at hfin
      · cases hfin
      · rw [← hl.isEcho_iff hecho (htext l (by simp)), hc.noEcho]
        exact Bool.false_ne_true
    obtain ⟨v, hv, hd⟩ : ∃ v, engineDispatchLine (quiet env) env l w = some v ∧
      Dispatches env l w v := engineDispatchLine_quiet hfit l w
    have hstep := hl.dispatches hfit hecho hwrite (htext l (by simp)) hnofinal
      (fun hnot => by
        have hroom := hpay.room
        rw [← hnext hnot, kept, List.filter_append, List.length_append] at hroom
        exact (Nat.le_add_right _ _).trans hroom) hd
    have hdone' : processByte (invoke env (n + 1)) env b w = some (lineDone v) := by
      rw [processByte, hline]
      dsimp only
      rw [engineDispatchLine_callbacks henv hwrite hnot, hv]
      rfl
    refine ⟨lineDone v, hdone', hd.rx, ?_⟩
    split at hstep
    · rename_i hfirst
      refine ⟨false, heard, done ++ [l], rest', by rw [← hdone]; simp, by simp, ?_,
        .between _ rfl, hstep.setLine [] .start⟩
      have hdrop : unechoed e.cmd.bytes (l :: rest') = rest' :=
        List.eraseP_cons_of_pos (by simpa using hfirst.2)
      rw [← hheard, hfirst.1, if_pos rfl, hdrop]
      rfl
    · rename_i hnot
      refine ⟨armed, heard ++ [l], done ++ [l], rest', by rw [← hdone]; simp, ?_, hnext hnot,
        .between _ rfl, hstep.setLine [] .start⟩
      intro ha l' hmem
      rcases List.mem_append.mp hmem with hmem | hmem
      · exact harmed ha l' hmem
      · rw [List.mem_singleton.mp hmem]
        exact fun hpre => hnot ⟨ha, hpre⟩

/-- **A drain loop** that does not get to the last byte. -/
theorem Midway.drains (hfit : cfg.Fits) (hecho : cfg.echoCancel = true)
    (henv : env.Respects CallbacksOnly) (hwrite : env.Delivers) (hpay : Payload e table init)
    (hlast : LineText cfg last) {n fuel : Nat} {unfed : List UInt8} (hunfed : unfed ≠ [])
    (h : Midway e table log init last (rxringBytes w.eng.rx ++ unfed) w)
    (hx : drainRx (invoke env (n + 1)) env fuel w = some w') :
    Midway e table log init last unfed w' ∧ rxringBytes w'.eng.rx = [] := by
  obtain ⟨hmid, hempty⟩ := drainRx_run
    (I := fun v => Midway e table log init last (rxringBytes v.eng.rx ++ unfed) v)
    (fun v v' b rx hv hp hb => by
      rw [rxringPop_bytes hp, List.cons_append] at hv
      have hpop : Midway e table log init last (b :: (rxringBytes rx ++ unfed))
          (v.putEng { v.eng with rx := rx }) := hv.congr ⟨rx, v.eng.timerMs, rfl⟩ rfl
      obtain ⟨u, hu, hrx, hmid⟩ := hpop.byte hfit hecho henv hwrite hpay hlast n
        (List.append_ne_nil_of_right_ne_nil _ hunfed)
      obtain rfl := Option.some.inj (hu.symm.trans hb)
      rw [hrx]
      exact hmid) hx h
  rw [hempty, List.nil_append] at hmid
  exact ⟨hmid, hempty⟩

theorem Midway.listening {bs : List UInt8} (h : Midway e table log init last bs w) :
    ∃ armed heard, Listening e table log armed heard w := by
  obtain ⟨armed, heard, _, _, -, -, -, -, hl⟩ := h
  exact ⟨armed, heard, hl⟩

/-- What the callback is told: it is called behind the last line, with its
status and code, and with the lines of the last class. -/
structure Told (e : CmdEntry cfg) (table : Fin cfg.urcTableSize → UrcEntry cfg)
    (init : List (List UInt8)) (last : List UInt8) (A : List (Event cfg)) (r : Response) : Prop where
  before : history A = []
  status : engineIsFinal last = some (r.status, r.errorCode)
  lines : r.lines = kept table (unechoed e.cmd.bytes init)
  numLines : r.numLines = r.lines.length
  handlers : handlerCalls A = handled table (unechoed e.cmd.bytes init)

/-- The last line has completed the command, and nothing is left in the ring. -/
def Finished (e : CmdEntry cfg) (table : Fin cfg.urcTableSize → UrcEntry cfg)
    (log : List (Event cfg)) (init : List (List UInt8)) (last : List UInt8)
    (w : World cfg σ) : Prop :=
  w.eng.state = .idle ∧ rxringBytes w.eng.rx = [] ∧ ∃ A r D,
    w.log = log ++ (A ++ .line .final last :: D) ∧ Told e table init last A r ∧ Concludes e r D

/-- Before the last byte the whole answer has been heard, and its final result is about
to be dispatched. -/
theorem Midway.atLast (hecho : cfg.echoCancel = true) (hpay : Payload e table init)
    (hlast : LineText cfg last) (hfinal : (engineIsFinal last).isSome)
    (hnot : e.cmd.bytes <+: last → ∃ l ∈ init, e.cmd.bytes <+: l) {b : UInt8}
    (h : Midway e table log init last [b] w) :
    lfsmByte b w.eng = .line last ∧
      (∃ s c, engineIsFinal last = some (s, c) ∧ Completes w.eng last s c) ∧
      ∃ armed, Listening e table log armed (unechoed e.cmd.bytes init) w := by
  obtain ⟨armed, heard, done, rest, hdone, harmed, hheard, hrem, hl⟩ := h
  obtain ⟨hrest, hs, rfl⟩ := hrem.last rfl fun l hmem => by
    rcases List.mem_append.mp hmem with hmem | hmem
    · exact hpay.text l (hdone ▸ List.mem_append_right _ hmem)
    · rw [List.mem_singleton.mp hmem]
      exact hlast
  obtain ⟨rfl, hline⟩ : rest = [] ∧ [last] = [w.eng.line] := by
    cases rest with
    | nil => exact ⟨rfl, hrest⟩
    | cons l rest => simp at hrest
  obtain rfl := (List.cons.inj hline).1
  obtain rfl : done = init := by simpa using hdone
  have hall : heard = unechoed e.cmd.bytes done := by
    rw [← hheard]
    cases armed <;> simp [unechoed]
  obtain ⟨⟨s, c⟩, hfin⟩ := Option.isSome_iff_exists.mp hfinal
  have he : isEcho w.eng w.eng.line = false := by
    rw [← Bool.not_eq_true, hl.isEcho_iff hecho hlast]
    rintro ⟨ha, hpre⟩
    obtain ⟨l, hmem, hpre'⟩ := hnot hpre
    exact harmed ha l hmem hpre'
  have hp : isPrompt w.eng w.eng.line = false := by
    rw [isPrompt_eq_false_iff hl.state]
    intro hpre
    rw [engineIsFinal_prompt hpre] at hfin
    cases hfin
  exact ⟨by simp [lfsmByte, hs], ⟨s, c, hfin, hl.state, hfin, he, hp⟩, armed, hall ▸ hl⟩

/-- **The last byte** dispatches the final result. -/
theorem Midway.ends (hecho : cfg.echoCancel = true) (henv : env.Respects CallbacksAside)
    (hpay : Payload e table init) (hlast : LineText cfg last)
    (hfinal : (engineIsFinal last).isSome)
    (hnot : e.cmd.bytes <+: last → ∃ l ∈ init, e.cmd.bytes <+: l) {n : Nat} {b : UInt8}
    (h : Midway e table log init last [b] w) (hempty : rxringBytes w.eng.rx = [])
    (hx : processByte (invoke env n) env b w = some w') :
    Finished e table log init last w' := by
  obtain ⟨hbyte, ⟨s, c, hfin, hcomplete⟩, armed, hl⟩ := h.atLast hecho hpay hlast hfinal hnot
  rw [hcomplete.processByte hbyte] at hx
  obtain ⟨v, hv, rfl⟩ := Option.map_eq_some_iff.mp hx
  obtain ⟨A, hA, hhist, hcalls⟩ := hl.log
  obtain ⟨D, hlog, hD⟩ := engineFinalize_callback
    (fun inv s => (henv inv s).mono fun _ hc => hc.1.2) hv
  rw [World.emit_eng, hl.active] at hD
  have hidle : v.eng.state = .idle := engineFinalize_idle hv
  refine ⟨hidle, ?_, A, finalResponse s c w.eng, D, ?_, ⟨hhist, hfin, hl.pool, ?_, hcalls⟩, hD⟩
  · exact (congrArg rxringBytes (engineFinalize_rx henv hv)).trans hempty
  · change v.log = _
    rw [hlog, World.emit_log, hA]
    simp
  · exact hl.count.trans (congrArg List.length hl.pool).symm

/-- **The drain loop** that gets to the last byte. -/
theorem Midway.finishes (hfit : cfg.Fits) (hecho : cfg.echoCancel = true)
    (henv : env.Respects CallbacksAside) (hwrite : env.Delivers) (hpay : Payload e table init)
    (hlast : LineText cfg last) (hfinal : (engineIsFinal last).isSome)
    (hnot : e.cmd.bytes <+: last → ∃ l ∈ init, e.cmd.bytes <+: l) {n fuel : Nat}
    (h : Midway e table log init last (rxringBytes w.eng.rx) w)
    (hne : rxringBytes w.eng.rx ≠ [])
    (hx : drainRx (invoke env (n + 1)) env fuel w = some w') :
    Finished e table log init last w' := by
  obtain ⟨⟨-, hleft⟩ | hdone, hempty⟩ := drainRx_run
    (I := fun v => (Midway e table log init last (rxringBytes v.eng.rx) v ∧
      rxringBytes v.eng.rx ≠ []) ∨ Finished e table log init last v)
    (fun v v' b rx hv hp hb => by
      have hbytes := rxringPop_bytes hp
      rcases hv with ⟨hmid, -⟩ | hdone
      · have hpop : Midway e table log init last (b :: rxringBytes rx)
            (v.putEng { v.eng with rx := rx }) :=
          (hbytes ▸ hmid).congr ⟨rx, v.eng.timerMs, rfl⟩ rfl
        by_cases hrest : rxringBytes rx = []
        · rw [hrest] at hpop
          exact .inr (hpop.ends hecho henv hpay hlast hfinal hnot hrest hb)
        · obtain ⟨u, hu, hrx, hmid'⟩ := hpop.byte hfit hecho
            (fun inv s => (henv inv s).mono fun _ => And.left) hwrite hpay hlast n hrest
          obtain rfl := Option.some.inj (hu.symm.trans hb)
          have hrx' : u.eng.rx = rx := hrx
          exact .inl (by rw [hrx']; exact ⟨hmid', hrest⟩)
      · rw [hdone.2.1] at hbytes
        cases hbytes) hx (.inl ⟨h, hne⟩)
  · exact absurd hempty hleft
  · exact hdone

end

/-! ## Runs -/

/-- The timer has not run out when an `at_process` looks at it, behind its drain
loop. -/
def InTime (env : Env σ) (fuel : Nat) (w : World cfg σ) : Prop :=
  ∀ v, drainRx (invoke env fuel) env fuel w = some v → v.eng.timerMs ≠ 0

/-- Runs in which `bs` is fed: bytes in pieces that fit the ring, ticks, and
`at_process` calls in time. Between calls the private state changes freely, and
each `at_process` may meet another environment. -/
inductive Receives : List UInt8 → World cfg σ → World cfg σ → Prop
  | refl (w : World cfg σ) : Receives [] w w
  | app {bs w v} (s : σ) : Receives bs w v → Receives bs w (v.putApp s)
  | feed {bs w v} (data : List UInt8) : Receives bs w v →
      rxringUsed v.eng.rx + data.length ≤ cfg.rxBufSize →
      Receives (bs ++ data) w (v.putEng (atFeed data v.eng))
  | tick {bs w v} (ms : Nat) : Receives bs w v → Receives bs w (v.putEng (atTick ms v.eng))
  | process {bs w v} (env : Env σ) (fuel : Nat) (v' : World cfg σ) : Receives bs w v →
      env.Respects CallbacksOnly → env.Delivers → InTime env fuel v →
      exec env fuel .process v = some (.unit, v') → Receives bs w v'

section

variable {e : CmdEntry cfg} {table : Fin cfg.urcTableSize → UrcEntry cfg} {log : List (Event cfg)}
  {init : List (List UInt8)} {last : List UInt8} {w w' : World cfg σ}

/-- As long as bytes of the stream are in the ring or not yet fed, the exchange is
midway. -/
theorem Receives.midway (hfit : cfg.Fits) (hsize : cfg.rxBufSize ≤ 2 ^ 15)
    (hecho : cfg.echoCancel = true) (hpay : Payload e table init) (hlast : LineText cfg last)
    {bs : List UInt8} (h : Receives bs w w') (hempty : rxringBytes w.eng.rx = [])
    (hw : Midway e table log init last (stream (init ++ [last])) w) :
    ∀ unfed, bs ++ unfed = stream (init ++ [last]) → rxringBytes w'.eng.rx ++ unfed ≠ [] →
      Midway e table log init last (rxringBytes w'.eng.rx ++ unfed) w' := by
  induction h with
  | refl w =>
    intro unfed hall _
    rw [hempty, List.nil_append]
    rwa [← List.nil_append unfed, hall]
  | app s _ ih => exact fun unfed hall hne => (ih hempty hw unfed hall hne).congr ⟨_, _, rfl⟩ rfl
  | @feed bs w v data _ hroom ih =>
    intro unfed hall hne
    obtain ⟨hrx, hbytes⟩ := atFeed_fits data (g := v.eng) hroom (by omega)
    rw [World.putEng_eng, hrx, hbytes, List.append_assoc] at hne ⊢
    rw [List.append_assoc] at hall
    exact (ih hempty hw (data ++ unfed) hall hne).congr ⟨_, _, rfl⟩ rfl
  | @tick bs w v ms _ ih =>
    intro unfed hall hne
    obtain ⟨n, hn⟩ := atTick_eq ms v.eng
    rw [World.putEng_eng, hn] at hne ⊢
    exact (ih hempty hw unfed hall hne).congr ⟨_, _, rfl⟩ rfl
  | @process bs w v env fuel v' _ henv hwrite htime hx ih =>
    intro unfed hall hne
    obtain ⟨n, u, u', rfl, hu, hcheck, rfl⟩ := exec_process_steps hwrite hx
    rw [checkTimeout, if_neg fun h => htime u hu h.2] at hcheck
    obtain rfl := Option.some.inj hcheck
    have hempty' := (drainRx_run (I := fun _ => True) (fun _ _ _ _ _ _ _ => trivial) hu trivial).2
    rw [started_rx, hempty', List.nil_append] at hne ⊢
    obtain ⟨hmid, -⟩ := (ih hempty hw unfed hall (List.append_ne_nil_of_right_ne_nil _ hne)).drains
      hfit hecho henv hwrite hpay hlast hne hu
    obtain ⟨_, _, hl⟩ := hmid.listening
    rw [started, if_neg (by simp [hl.state])]
    exact hmid

/-- The engine has just transmitted `e`. -/
theorem transmitted_listening (hecho : cfg.echoCancel = true) (htx : cfg.txBufSize ≤ 2 ^ 16)
    (henv : env.Delivers) (w : World cfg σ) (he : w.eng.queue w.eng.qTail = e) :
    Listening e w.eng.urcTable (transmit env w).2.log true [] (transmit env w).2 := by
  obtain ⟨hexpect, hlen⟩ := transmit_echo hecho htx env w
  rw [he] at hexpect hlen
  refine ⟨?_, ?_, ?_, hexpect, hlen, ?_, ?_, ?_, [], (List.append_nil _).symm, rfl, rfl⟩ <;>
    rw [transmit_eng]
  · simp only [transmit_delivers henv, if_true]
  · exact he
  · rfl
  · exact hecho
  · rfl
  · rfl

/-- The `at_process` that takes the last byte. -/
theorem Midway.told (hfit : cfg.Fits) (hecho : cfg.echoCancel = true) (hpay : Payload e table init)
    (hlast : LineText cfg last) (hfinal : (engineIsFinal last).isSome)
    (hnot : e.cmd.bytes <+: last → ∃ l ∈ init, e.cmd.bytes <+: l)
    (henv : env.Respects CallbacksAside) (hwrite : env.Delivers)
    (h : Midway e table log init last (rxringBytes w.eng.rx) w) (hleft : rxringBytes w.eng.rx ≠ [])
    {fuel : Nat} (hx : exec env fuel .process w = some (.unit, w')) :
    ∃ A r D B, w'.log = log ++ (A ++ .line .final last :: (D ++ B)) ∧
      Told e table init last A r ∧ Concludes e r D ∧ history B = [] ∧ handlerCalls B = [] := by
  obtain ⟨n, u, v, rfl, hu, hcheck, rfl⟩ := exec_process_steps hwrite hx
  obtain ⟨hidle, -, A, r, D, hlog, htold, hD⟩ :=
    h.finishes hfit hecho henv hwrite hpay hlast hfinal hnot hleft hu
  rw [checkTimeout, if_neg (by simp [hidle])] at hcheck
  obtain rfl := Option.some.inj hcheck
  obtain ⟨B, hB, hmore⟩ := started_growsBy env
    (p := fun ev => ev.still ∧ handlerCalls [ev] = []) (fun _ => ⟨rfl, rfl⟩)
    (fun _ _ _ => ⟨rfl, rfl⟩) (fun _ => ⟨rfl, rfl⟩) u
  refine ⟨A, r, D, B, ?_, htold, hD, (still_spec fun ev hev => (hmore ev hev).1).1, ?_⟩
  · rw [hB, hlog]
    simp
  · exact handlerCalls_eq_nil fun ev hev => (hmore ev hev).2

/-- **Response routing is exact.** An idle engine with an empty ring and the FSM
between two lines starts the command `e`: its `at_process` returns. Then lines come
in, the last of them the first final result that is not the echo, with writes that
succeed, handlers that make no API call, callbacks that cancel nothing, no timeout,
and no more payload than there is room for. Every `at_process` on the way returns
(with enough fuel). So does the one that takes the last byte, and in it the callback
is called once, behind the last line, with its status and code, and with exactly the
lines that are not the echo, not prompts, and not taken by a handler; each line taken
by a handler went to the one of the lowest matching slot, and to no other. -/
theorem routing_exact (hfit : cfg.Fits) (hsize : cfg.rxBufSize ≤ 2 ^ 15)
    (htx : cfg.txBufSize ≤ 2 ^ 16) (hecho : cfg.echoCancel = true) {env₀ : Env σ} {w₀ : World cfg σ}
    (hidle : w₀.eng.state = .idle) (hcount : 0 < w₀.eng.qCount) (hring : rxringEmpty w₀.eng.rx)
    (hfsm : w₀.eng.lfsm = .start) (he : w₀.eng.queue w₀.eng.qTail = e) (hwrite₀ : env₀.Delivers)
    (hpay : Payload e w₀.eng.urcTable init) (hlast : LineText cfg last)
    (hfinal : (engineIsFinal last).isSome)
    (hnot : e.cmd.bytes <+: last → ∃ l ∈ init, e.cmd.bytes <+: l) :
    ∃ w, (∀ fuel, 0 < fuel → exec env₀ fuel .process w₀ = some (.unit, w)) ∧
      (∀ bs v (env : Env σ), Receives bs w v → env.Respects CallbacksOnly → env.Delivers →
        ∃ k v', ∀ fuel, k < fuel → exec env fuel .process v = some (.unit, v')) ∧
      ∀ w₁ (env₁ : Env σ), Receives (stream (init ++ [last])) w w₁ → rxringBytes w₁.eng.rx ≠ [] →
        env₁.Respects CallbacksAside → env₁.Delivers →
          ∃ k w', (∀ fuel, k < fuel → exec env₁ fuel .process w₁ = some (.unit, w')) ∧
            ∃ A r D B, w'.log = w.log ++ (A ++ .line .final last :: (D ++ B)) ∧
              Told e w₀.eng.urcTable init last A r ∧ Concludes e r D ∧ history B = [] ∧
              handlerCalls B = [] := by
  obtain ⟨w, hw⟩ : ∃ w, w = (transmit env₀ w₀).2 := ⟨_, rfl⟩
  have hstart := exec_process_idle hwrite₀ hidle hcount hring
  rw [← hw] at hstart
  obtain ⟨-, hempty⟩ := exec_process_starts hwrite₀ hidle hcount hring (hstart 1 Nat.one_pos)
  have hmid : Midway e w₀.eng.urcTable w.log init last (stream (init ++ [last])) w := by
    refine ⟨true, [], [], init, rfl, fun _ l hl => absurd hl List.not_mem_nil, rfl,
      .between _ ?_, ?_⟩
    · rw [hw, transmit_eng]
      exact hfsm
    · rw [hw]
      exact transmitted_listening hecho htx hwrite₀ w₀ he
  refine ⟨w, hstart, fun _ v _ _ henv hwrite => exec_process_returns hfit henv hwrite v,
    fun w₁ env₁ hrun hleft henv₁ hwrite₁ => ?_⟩
  -- the calls in between
  have hmid₁ := hrun.midway hfit hsize hecho hpay hlast hempty hmid [] (List.append_nil _)
    (by rwa [List.append_nil])
  rw [List.append_nil] at hmid₁
  -- the last call
  obtain ⟨k, w', hx⟩ := exec_process_returns hfit
    (fun inv s => (henv₁ inv s).mono fun _ => And.left) hwrite₁ w₁
  exact ⟨k, w', hx, hmid₁.told hfit hecho hpay hlast hfinal hnot henv₁ hwrite₁ hleft
    (hx (k + 1) (Nat.lt_succ_self k))⟩

end

/-- The lines of a response with an echo, a line for a handler and a payload line. -/
def probeLines : List (List UInt8) := [ascii "AT", ascii "+X: 1", ascii "AT+Y", ascii "OK"]

/-- A response with an echo, a line for a handler and a payload line. -/
theorem routing_exact_probe : ∃ (w₀ w w' : World Config.default Unit) (A D B : List (Event _))
    (r : Response), (∀ fuel, 0 < fuel → exec plainEnv fuel .process w₀ = some (.unit, w)) ∧
    (∃ k, ∀ fuel, k < fuel →
      exec plainEnv fuel .process (w.putEng (atFeed (stream probeLines) w.eng)) = some (.unit, w')) ∧
    (w'.log = w.log ++ (A ++ .line .final (ascii "OK") :: (D ++ B)) ∧
      Told (w₀.eng.queue w₀.eng.qTail) w₀.eng.urcTable
        [ascii "AT", ascii "+X: 1", ascii "AT+Y"] (ascii "OK") A r ∧
      Concludes (w₀.eng.queue w₀.eng.qTail) r D ∧ history B = [] ∧ handlerCalls B = []) ∧
    r.lines = [ascii "AT+Y"] ∧ handlerCalls A = [(5, 3, ascii "+X: 1")] := by
  have hrun : (execAll plainEnv 64 [.api (.registerUrc (some (ascii "+X")) (some 5) 3),
      .api (.send (some probe))] (⟨atInit Config.default, (), []⟩ : World _ Unit)).any
      (fun w => decide (w.eng.state = .idle ∧ 0 < w.eng.qCount ∧ rxringEmpty w.eng.rx ∧
          w.eng.lfsm = .start ∧ (w.eng.queue w.eng.qTail).cmd.bytes = ascii "AT" ∧
          kept w.eng.urcTable [ascii "+X: 1", ascii "AT+Y"] = [ascii "AT+Y"] ∧
          handled w.eng.urcTable [ascii "+X: 1", ascii "AT+Y"] = [(5, 3, ascii "+X: 1")])) =
        true := by
    decide +kernel
  obtain ⟨w₀, -, hp⟩ := (Option.any_eq_true _ _).mp hrun
  obtain ⟨hidle, hcount, hring, hfsm, hcmd, hkept, hhandled⟩ := of_decide_eq_true hp
  have htext : ∀ l ∈ probeLines, LineText Config.default l := by
    intro l hl
    obtain ⟨h0, h13, h10, h00, hlen⟩ : l ≠ [] ∧ (13 : UInt8) ∉ l ∧ (10 : UInt8) ∉ l ∧
        (0 : UInt8) ∉ l ∧ l.length ≤ Config.default.lineMax - 1 := by
      revert l
      decide
    exact ⟨h0, h13, h10, h00, hlen⟩
  have hunechoed : unechoed (w₀.eng.queue w₀.eng.qTail).cmd.bytes
      [ascii "AT", ascii "+X: 1", ascii "AT+Y"] = [ascii "+X: 1", ascii "AT+Y"] := by
    rw [hcmd]
    decide
  have hpay : Payload (w₀.eng.queue w₀.eng.qTail) w₀.eng.urcTable
      [ascii "AT", ascii "+X: 1", ascii "AT+Y"] := by
    refine ⟨fun l hl => htext l (List.mem_append_left [_] hl), ?_, ?_⟩
    · rw [hunechoed]
      decide
    · rw [hunechoed, hkept]
      decide
  obtain ⟨w, hstart, -, hcall⟩ := routing_exact Config.default_fits (by decide) (by decide) rfl
    hidle hcount hring hfsm rfl plainEnv_delivers hpay (htext (ascii "OK") (by decide)) (by decide)
    (by rw [hcmd]; decide)
  -- the ring has room for the lines
  obtain ⟨-, hempty⟩ := exec_process_starts plainEnv_delivers hidle hcount hring
    (hstart 1 Nat.one_pos)
  have hused : rxringUsed w.eng.rx = 0 := by
    rw [← length_rxringBytes, hempty, List.length_nil]
  have hroom : rxringUsed w.eng.rx + (stream probeLines).length ≤ Config.default.rxBufSize := by
    rw [hused]
    decide
  obtain ⟨hrx, hbytes⟩ := atFeed_fits _ hroom (Nat.lt_of_le_of_lt hroom (by decide))
  have hleft : rxringBytes (w.putEng (atFeed (stream probeLines) w.eng)).eng.rx ≠ [] := by
    rw [World.putEng_eng, hrx, hbytes, hempty]
    decide
  obtain ⟨k, w', hend, A, r, D, B, hlog, htold, hrest⟩ := hcall _ plainEnv
    ((Receives.refl w).feed _ hroom) hleft (plainEnv_respects _) plainEnv_delivers
  refine ⟨w₀, w, w', A, D, B, r, hstart, ⟨k, hend⟩, ⟨hlog, htold, hrest⟩, ?_, ?_⟩
  · rw [htold.lines, hunechoed, hkept]
  · rw [htold.handlers, hunechoed, hhandled]

end LibAt
