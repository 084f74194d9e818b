import LibAt.Callback
import LibAt.Chunking
import LibAt.Framing

/-!
# The countdown is exact

How long a command is waited for. The countdown of the source is set when the
command is transmitted and when a prompt is answered, is lowered by ticks down
to zero, and is looked at by `at_process` behind the drain loop. `Waits` runs
next to the engine with a countdown that is never lowered: a limit, and the sum
of the ticks since it was set. The two agree (`Waits.agrees`), so a command
times out in the first `at_process` that finds the sum at the limit, unless
what it drained says otherwise (`timeout_exact`). What that is can be told from the
bytes: the lines it dispatches are those of the line FSM, and up to the completion each of
them is taken for what it is (`Event.Judged`).
-/

namespace LibAt

variable {cfg : Config} {σ : Type} {env : Env σ}

/-! ## What a stretch of the log says -/

/-- The final result lines. -/
def finals (evs : List (Event cfg)) : List (List UInt8) :=
  evs.filterMap fun | .line .final l => some l | _ => none

/-- A prompt was answered. -/
def answered (evs : List (Event cfg)) : Bool :=
  evs.any fun | .line (.prompt true) _ => true | _ => false

/-- A log entry that has to do with neither completion nor the timer. -/
def Event.still : Event cfg → Bool
  | .accepted _ | .fired .. | .completed _ | .line .final _ | .line (.prompt true) _ => false
  | _ => true

theorem finals_append (as bs : List (Event cfg)) : finals (as ++ bs) = finals as ++ finals bs :=
  List.filterMap_append

theorem answered_append (as bs : List (Event cfg)) :
    answered (as ++ bs) = (answered as || answered bs) :=
  List.any_append

theorem still_spec {evs : List (Event cfg)} (h : ∀ ev ∈ evs, ev.still) :
    history evs = [] ∧ finals evs = [] ∧ answered evs = false := by
  refine ⟨?_, ?_, ?_⟩
  · refine List.filterMap_eq_nil_iff.mpr fun ev hev => ?_
    have := h ev hev
    cases ev <;> first | rfl | cases this
  · refine List.filterMap_eq_nil_iff.mpr fun ev hev => ?_
    have := h ev hev
    split <;> first | rfl | cases this
  · refine List.any_eq_false.mpr fun ev hev => ?_
    have := h ev hev
    split <;> simp_all [Event.still]

/-! ## What a line is -/

/-- A line that comes in while `e` is waited for is logged for what it is: what the engine
expects as the echo, a prompt, which is answered if `e` has a body, or a final result. -/
def Event.Judged (e : CmdEntry cfg) : Event cfg → Prop
  | .line .echo l => cfg.echoCancel = true ∧
      strncmpEq l e.cmd.bytes (e.cmd.bytes.length % 2 ^ 16) = true
  | .line (.prompt b) l => [62, 32] <+: l ∧ (b = true ↔ e.prompt = .sms ∧ e.hasBody)
  | .line .final l => ¬[62, 32] <+: l ∧ (engineIsFinal l).isSome
  | .line _ l => ¬[62, 32] <+: l ∧ engineIsFinal l = none
  | _ => True

/-- So is every line up to the completion. -/
def Judged (e : CmdEntry cfg) (evs : List (Event cfg)) : Prop :=
  ∀ A ev B, evs = A ++ ev :: B → completions A = [] → ev.Judged e

theorem Judged.nil (e : CmdEntry cfg) : Judged e [] := by
  intro A ev B h
  simp at h

theorem Judged.append {e : CmdEntry cfg} {evs more : List (Event cfg)} (h : Judged e evs)
    (hmore : ∀ ev ∈ more, ev.Judged e) : Judged e (evs ++ more) := by
  intro A ev B heq hA
  rcases append_split heq with ⟨Q, hevs⟩ | ⟨E, -, rfl⟩
  · exact h A ev Q hevs hA
  · exact hmore ev (by simp)

/-- Behind the completion nothing is asked. -/
theorem Judged.behind {e : CmdEntry cfg} {evs : List (Event cfg)} (h : Judged e evs)
    (hdone : completions evs ≠ []) (more : List (Event cfg)) : Judged e (evs ++ more) := by
  intro A ev B heq hA
  rcases append_split heq with ⟨Q, hevs⟩ | ⟨E, rfl, -⟩
  · exact h A ev Q hevs hA
  · rw [completions_append, List.append_eq_nil_iff] at hA
    exact absurd hA.1 hdone

/-- A completion dispatches no line. -/
theorem Concludes.judged {e : CmdEntry cfg} {r : Response} {D evs : List (Event cfg)}
    (h : Concludes e r D) (hevs : Judged e evs) : Judged e (evs ++ D) := by
  obtain ⟨C, rfl, hC⟩ := h
  refine hevs.append fun ev hev => ?_
  cases ev with
  | line k l =>
    rcases List.mem_append.mp hev with hev | hev
    · rw [CmdEntry.notice] at hev
      cases hcb : e.cb <;> simp [hcb] at hev
    · rcases List.mem_append.mp hev with hev | hev
      · exact absurd (hC _ hev) (by simp [Event.aside])
      · simp at hev
  | _ => trivial

/-- A completion is neither a final result line nor an answered prompt. -/
theorem Concludes.spec {e : CmdEntry cfg} {r : Response} {evs : List (Event cfg)}
    (h : Concludes e r evs) :
    finals evs = [] ∧ answered evs = false ∧ completions evs = [e] := by
  obtain ⟨C, rfl, hC⟩ := h
  have haside : finals C = [] ∧ answered C = false ∧ completions C = [] := by
    refine ⟨List.filterMap_eq_nil_iff.mpr fun ev hev => ?_, List.any_eq_false.mpr fun ev hev => ?_,
      List.filterMap_eq_nil_iff.mpr fun ev hev => ?_⟩
    all_goals
      have := hC ev hev
      split <;> simp_all [Event.aside]
  have hnotice : finals (e.notice r) = [] ∧ answered (e.notice r) = false ∧
      completions (e.notice r) = [] := by
    rw [CmdEntry.notice]
    cases e.cb <;> exact ⟨rfl, rfl, rfl⟩
  rw [finals_append, finals_append, answered_append, answered_append, completions_append,
    completions_append, hnotice.1, hnotice.2.1, hnotice.2.2, haside.1, haside.2.1, haside.2.2]
  exact ⟨rfl, rfl, rfl⟩

/-! ## The countdown -/

/-- The time a command is given, and the time that has gone by. -/
structure Countdown where
  limit : Nat
  elapsed : Nat

namespace Countdown

/-- The time is up. -/
def Expired (c : Countdown) : Prop := c.limit ≤ c.elapsed

/-- The countdown starts again when a prompt is answered. -/
def after (cfg : Config) (c : Countdown) (evs : List (Event cfg)) : Countdown :=
  if answered evs then ⟨cfg.promptTimeoutMs, 0⟩ else c

theorem after_append (c : Countdown) (as bs : List (Event cfg)) :
    c.after cfg (as ++ bs) = (c.after cfg as).after cfg bs := by
  simp only [after, answered_append, Bool.or_eq_true]
  by_cases ha : answered as = true <;> by_cases hb : answered bs = true <;> simp [ha, hb]

theorem after_still (c : Countdown) {evs : List (Event cfg)} (h : answered evs = false) :
    c.after cfg evs = c :=
  if_neg (by simp [h])

end Countdown

/-- The worlds in which the command `e` has been waited for since it was
transmitted, with its countdown, in a run of ticks, feeds and `at_process`
calls. Between calls the private state changes freely. -/
inductive Waits (e : CmdEntry cfg) : Countdown → World cfg σ → Prop
  /-- the command was transmitted -/
  | transmitted (env : Env σ) (w w' : World cfg σ) : w.eng.state = .idle → 0 < w.eng.qCount →
      w.eng.queue w.eng.qTail = e → transmit env w = (true, w') → Waits e ⟨e.timeoutMs, 0⟩ w'
  | app {c w} (s : σ) : Waits e c w → Waits e c (w.putApp s)
  | tick {c w} (ms : Nat) : Waits e c w →
      Waits e ⟨c.limit, c.elapsed + ms⟩ (w.putEng (atTick ms w.eng))
  | feed {c w} (data : List UInt8) : Waits e c w → Waits e c (w.putEng (atFeed data w.eng))
  /-- an `at_process` that does not complete it -/
  | process {c w} (env : Env σ) (fuel : Nat) (w' : World cfg σ) (evs : List (Event cfg)) :
      Waits e c w → env.Respects CallbacksOnly → env.Delivers →
      exec env fuel .process w = some (.unit, w') → w'.log = w.log ++ evs →
      completions evs = [] → Waits e (c.after cfg evs) w'

/-- What an `at_process` that logs `evs` does with the command `e`. -/
structure Verdict (e : CmdEntry cfg) (c : Countdown) (evs : List (Event cfg)) : Prop where
  /-- the lines are taken for what they are -/
  judged : Judged e evs
  /-- a final result line completes it -/
  final : finals evs ≠ [] → ∃ A l s k r D B,
    evs = A ++ .line .final l :: (D ++ B) ∧ history A = [] ∧ engineIsFinal l = some (s, k) ∧
      Concludes e r D ∧ r.status = s ∧ history B = []
  /-- without one it times out if the time is up -/
  timeout : finals evs = [] → (c.after cfg evs).Expired → ∃ A r D B,
    evs = A ++ (D ++ B) ∧ history A = [] ∧ Concludes e r D ∧ r.status = .errTimeout ∧
      history B = []
  /-- and waits if it is not -/
  waits : finals evs = [] → ¬(c.after cfg evs).Expired → history evs = []

/-! ## Lines -/

/-- What `e` being waited for means for the engine. -/
structure Waited (e : CmdEntry cfg) (c : Countdown) (g : Engine cfg) : Prop where
  state : g.state = .waiting
  active : g.queue g.qTail = e
  timer : g.timerMs = c.limit - c.elapsed
  echo : cfg.echoCancel = true → g.echoExpect.bytes = e.cmd.bytes ∧
    g.echoLen = e.cmd.bytes.length % 2 ^ 16

/-- Nothing that concerns `e` has happened since `log`, except that prompts may
have been answered. -/
def StillWaits (e : CmdEntry cfg) (c : Countdown) (log : List (Event cfg)) (w : World cfg σ) :
    Prop :=
  ∃ evs, w.log = log ++ evs ∧ history evs = [] ∧ finals evs = [] ∧ Judged e evs ∧
    Waited e (c.after cfg evs) w.eng

/-- A final result line has completed `e` since `log`. -/
def Completed (e : CmdEntry cfg) (log : List (Event cfg)) (w : World cfg σ) : Prop :=
  w.eng.state = .idle ∧ ∃ A l s k r D B,
    w.log = log ++ (A ++ .line .final l :: (D ++ B)) ∧ history A = [] ∧
      engineIsFinal l = some (s, k) ∧ Concludes e r D ∧ r.status = s ∧ history B = [] ∧
      Judged e (A ++ [.line .final l])

theorem StillWaits.still {e : CmdEntry cfg} {c : Countdown} {log : List (Event cfg)}
    {w w' : World cfg σ} (h : StillWaits e c log w)
    (hlog : GrowsBy (fun ev => ev.still ∧ ev.Judged e) w.log w'.log)
    (heng : ∀ c, Waited e c w.eng → Waited e c w'.eng) : StillWaits e c log w' := by
  obtain ⟨evs, hevs, hhist, hfin, hjudged, hwait⟩ := h
  obtain ⟨more, hmore, hstill⟩ := hlog
  obtain ⟨hhist', hfin', hans'⟩ := still_spec fun ev hev => (hstill ev hev).1
  refine ⟨evs ++ more, ?_, ?_, ?_, hjudged.append fun ev hev => (hstill ev hev).2, ?_⟩
  · rw [hmore, hevs, List.append_assoc]
  · rw [history_append, hhist, hhist', List.append_nil]
  · rw [finals_append, hfin, hfin', List.append_nil]
  · rw [Countdown.after_append, Countdown.after_still _ hans']
    exact heng _ hwait

theorem Completed.still {e : CmdEntry cfg} {log : List (Event cfg)} {w w' : World cfg σ}
    (h : Completed e log w) (hlog : GrowsBy (fun ev => ev.still) w.log w'.log)
    (hs : w'.eng.state = .idle ∨ w'.eng.state = w.eng.state) : Completed e log w' := by
  obtain ⟨hidle, A, l, s, k, r, D, B, hevs, hA, hfin, hD, hr, hB, hjudged⟩ := h
  obtain ⟨more, hmore, hstill⟩ := hlog
  refine ⟨hs.elim id fun hs => hs.trans hidle, A, l, s, k, r, D, B ++ more, ?_, hA, hfin, hD, hr, ?_,
    hjudged⟩
  · rw [hmore, hevs]
    simp
  · rw [history_append, hB, (still_spec hstill).1, List.append_nil]

theorem accumulate_still (l : List UInt8) (w : World cfg σ) :
    GrowsBy (fun ev => ev.still) w.log (accumulate l w).log := by
  rw [accumulate_log]
  refine (GrowsBy.refl _).concat ?_
  split <;> rfl

/-- A payload line, or a line that is dropped, is neither a prompt nor a final result. -/
theorem accumulate_judged {e : CmdEntry cfg} {l : List UInt8} {w : World cfg σ}
    (h : ¬[62, 32] <+: l ∧ engineIsFinal l = none) :
    GrowsBy (fun ev => ev.still ∧ ev.Judged e) w.log (accumulate l w).log := by
  rw [accumulate_log]
  refine (GrowsBy.refl _).concat ?_
  split <;> exact ⟨rfl, h⟩

/-- An answered prompt sets the countdown anew. -/
theorem StillWaits.answered {e : CmdEntry cfg} {c : Countdown} {log : List (Event cfg)}
    {l : List UInt8} {w w' : World cfg σ} (h : StillWaits e c log w) (hp : [62, 32] <+: l)
    (hb : (w.eng.queue w.eng.qTail).prompt = .sms ∧ (w.eng.queue w.eng.qTail).hasBody)
    (ha : answerPrompt env (w.eng.queue w.eng.qTail) (w.emit (.line (.prompt true) l)) =
      (true, w')) : StillWaits e c log w' := by
  obtain ⟨evs, hevs, hhist, hfin, hjudged, hwait⟩ := h
  have heng := answerPrompt_eng env (w.eng.queue w.eng.qTail) (w.emit (.line (.prompt true) l))
  obtain ⟨more, hsent, hmore⟩ := answerPrompt_sent env (w.eng.queue w.eng.qTail)
    (w.emit (.line (.prompt true) l))
  obtain ⟨hhist', hfin', -⟩ := still_spec (hsent.forall (p := fun ev => ev.still)
    (fun _ _ => rfl) (fun _ _ => rfl) fun _ => rfl)
  have hsilent : ∀ ev ∈ more, ev.Judged e :=
    hsent.forall (fun _ _ => trivial) (fun _ _ => trivial) fun _ => trivial
  rw [ha] at heng hmore
  refine ⟨evs ++ .line (.prompt true) l :: more, ?_, ?_, ?_, ?_, ?_⟩
  · rw [hmore, World.emit_log, hevs]
    simp
  · rw [history_append, hhist]
    exact hhist'
  · rw [finals_append, hfin]
    exact hfin'
  · refine hjudged.append (List.forall_mem_cons.mpr ⟨⟨hp, ?_⟩, hsilent⟩)
    rw [← hwait.active]
    exact iff_of_true rfl hb
  · have hafter : c.after cfg (evs ++ .line (.prompt true) l :: more) = ⟨cfg.promptTimeoutMs, 0⟩ :=
      if_pos (by simp [LibAt.answered])
    rw [hafter, heng]
    exact ⟨rfl, hwait.active, rfl, hwait.echo⟩

/-- A line that comes in while `e` is waited for, and does not complete it. -/
theorem StillWaits.dispatches (henv : env.Delivers) {e : CmdEntry cfg} {c : Countdown}
    {log : List (Event cfg)} {l : List UInt8} {w w' : World cfg σ} (h : StillWaits e c log w)
    (hnot : ∀ s k, ¬Completes w.eng l s k) (hd : Dispatches env l w w') :
    StillWaits e c log w' := by
  have hlog : GrowsBy (fun ev : Event cfg => ev.still ∧ ev.Judged e) w.log w.log := .refl _
  obtain ⟨_, _, _, _, _, hnow⟩ := id h
  have hplain (hp : isPrompt w.eng l = false) (hf : w.eng.state = .waiting → engineIsFinal l = none) :
      ¬[62, 32] <+: l ∧ engineIsFinal l = none :=
    ⟨(isPrompt_eq_false_iff hnow.state).mp hp, hf hnow.state⟩
  cases hd with
  | empty => exact h
  | echo he =>
    refine h.still (hlog.concat ⟨rfl, ?_⟩) fun c hc => ⟨hc.state, hc.active, hc.timer, hc.echo⟩
    rw [isEcho, Bool.and_eq_true, Bool.and_eq_true, Bool.and_eq_true] at he
    obtain ⟨⟨⟨hecho, -⟩, -⟩, hl⟩ := he
    obtain ⟨hexpect, hlen⟩ := hnow.echo hecho
    rw [hexpect, hlen] at hl
    exact ⟨hecho, hl⟩
  | ignored _ hp hb =>
    refine h.still (hlog.concat ⟨rfl, isPrompt_begins hp, ?_⟩) fun c hc => hc
    rw [← hnow.active]
    exact ⟨fun h => absurd h Bool.false_ne_true, fun hb' => absurd hb' hb⟩
  | urc i _ hp hf =>
    have hurc : (Event.line .urc l).Judged e := hplain hp hf
    exact h.still ((hlog.concat ⟨rfl, hurc⟩).concat ⟨rfl, trivial⟩) fun c hc => hc
  | answered w' _ hp hb ha =>
    exact h.answered (isPrompt_begins hp) hb ha
  | failed w₁ _ _ _ ha =>
    have hsent := answerPrompt_delivers henv (w.eng.queue w.eng.qTail)
      (w.emit (.line (.prompt true) l))
    rw [ha] at hsent
    cases hsent
  | final s k he hp hs hfin => exact absurd ⟨hs, hfin, he, hp⟩ (hnot s k)
  | other _ hp hf =>
    obtain ⟨pool, response, heng⟩ := accumulate_eng l w
    refine h.still (accumulate_judged (hplain hp hf)) fun c hc => ?_
    rw [heng]
    exact ⟨hc.state, hc.active, hc.timer, hc.echo⟩

/-- The final result line completes it. -/
theorem StillWaits.completes (henv : env.Respects NotCancelling) {e : CmdEntry cfg} {c : Countdown}
    {log : List (Event cfg)} {l : List UInt8} {s : AtResult} {k : Int} {n : Nat}
    {w w' : World cfg σ} (h : StillWaits e c log w) (hc : Completes w.eng l s k)
    (hdone : engineFinalize (invoke env n) s k (w.emit (.line .final l)) = some w') :
    Completed e log w' := by
  obtain ⟨evs, hevs, hhist, -, hjudged, hwait⟩ := h
  obtain ⟨D, hlog, hD⟩ := engineFinalize_callback henv hdone
  rw [World.emit_eng, hwait.active] at hD
  refine ⟨engineFinalize_idle hdone, evs, l, s, k, _, D, [], ?_, hhist, hc.final, hD, rfl, rfl, ?_⟩
  · rw [hlog, World.emit_log, hevs]
    simp
  · refine hjudged.append (List.forall_mem_singleton.mpr ⟨?_, ?_⟩)
    · exact (isPrompt_eq_false_iff hc.state).mp hc.noPrompt
    · rw [hc.final]
      rfl

/-- A line that comes in when nothing is waited for. -/
theorem Completed.dispatches {e : CmdEntry cfg} {log : List (Event cfg)} {l : List UInt8}
    {w w' : World cfg σ} (h : Completed e log w) (hd : Dispatches env l w w') :
    Completed e log w' := by
  have hidle : w.eng.state = .idle := h.1
  have hlog : GrowsBy (fun ev : Event cfg => ev.still) w.log w.log := .refl _
  cases hd with
  | empty => exact h
  | echo he =>
    simp [isEcho, hidle] at he
  | ignored _ hp _ => exact absurd (isPrompt_waiting hp) (by simp [hidle])
  | answered w' _ hp _ _ => exact absurd (isPrompt_waiting hp) (by simp [hidle])
  | failed w₁ _ hp _ _ => exact absurd (isPrompt_waiting hp) (by simp [hidle])
  | final s k _ _ hs _ => exact absurd hs (by simp [hidle])
  | urc i => exact h.still ((hlog.concat rfl).concat rfl) (.inr rfl)
  | other =>
    obtain ⟨pool, response, heng⟩ := accumulate_eng l w
    exact h.still (accumulate_still l w) (.inr (by rw [heng]))

/-- **What was received** leaves `e` waiting or has completed it. -/
theorem drainRx_waits (hfit : cfg.Fits) (henv : env.Respects CallbacksOnly)
    (hwrite : env.Delivers) {e : CmdEntry cfg} {c : Countdown} {n fuel : Nat} {w w' : World cfg σ}
    (h : Waited e c w.eng) (hx : drainRx (invoke env (n + 1)) env fuel w = some w') :
    StillWaits e c w.log w' ∨ Completed e w.log w' := by
  refine (drainRx_run (I := fun v => StillWaits e c w.log v ∨ Completed e w.log v)
    (fun v v' b rx hv _ hb => ?_) hx (.inl ⟨[], (List.append_nil _).symm, rfl, rfl, .nil e, h⟩)).1
  have hpop : StillWaits e c w.log (v.putEng { v.eng with rx := rx }) ∨
      Completed e w.log (v.putEng { v.eng with rx := rx }) :=
    hv.imp (fun hv => hv.still (.refl _) fun c hc => ⟨hc.state, hc.active, hc.timer, hc.echo⟩)
      (fun hv => hv.still (.refl _) (.inr rfl))
  rcases processByte_cases hfit henv hwrite b (v.putEng { v.eng with rx := rx }) with
    ⟨l, s, k, hl, hc⟩ | ⟨u, hpass, hu⟩
  · rw [hc.processByte hl] at hb
    obtain ⟨u, hu, rfl⟩ := Option.map_eq_some_iff.mp hb
    rcases hpop with hwaits | hdone
    · exact .inr ((hwaits.completes henv.notCancelling hc hu).still (.refl _) (.inr rfl))
    · cases hdone.1.symm.trans hc.state
  · obtain rfl := Option.some.inj ((hu n).symm.trans hb)
    cases hpass with
    | more g hg =>
      obtain ⟨line, lfsm, rfl⟩ := lfsmByte_eq hg
      exact hpop.imp (fun hv => hv.still (.refl _) fun c hc => ⟨hc.state, hc.active, hc.timer, hc.echo⟩)
        (fun hv => hv.still (.refl _) (.inr rfl))
    | line l u _ hnot hd =>
      exact hpop.imp (fun hv => (hv.dispatches hwrite hnot hd).still (.refl _)
          fun c hc => ⟨hc.state, hc.active, hc.timer, hc.echo⟩)
        (fun hv => (hv.dispatches hd).still (.refl _) (.inr rfl))

/-! ## `at_process` -/

/-- Starting the next command does not concern the last one. -/
theorem started_still (env : Env σ) (w : World cfg σ) :
    GrowsBy (fun ev => ev.still) w.log (started env w).log :=
  started_growsBy env (fun _ => rfl) (fun _ _ _ => rfl) (fun _ => rfl) w

/-- While `e` is waited for, the timer is looked at. -/
theorem StillWaits.verdict (henv : env.Respects NotCancelling) {e : CmdEntry cfg} {c : Countdown}
    {log : List (Event cfg)} {n : Nat} {w v : World cfg σ} (h : StillWaits e c log w)
    (hx : checkTimeout (invoke env n) w = some v) :
    ∃ evs, (started env v).log = log ++ evs ∧ Verdict e c evs ∧
      (completions evs = [] → Waited e (c.after cfg evs) (started env v).eng) := by
  obtain ⟨evs, hevs, hhist, hfin, hjudged, hwait⟩ := h
  rw [checkTimeout] at hx
  by_cases hexp : (c.after cfg evs).Expired
  · have htimer : w.eng.timerMs = 0 := by
      rw [hwait.timer]
      exact Nat.sub_eq_zero_of_le hexp
    rw [if_pos ⟨.inl hwait.state, htimer⟩] at hx
    obtain ⟨more, hmore, hstill⟩ := started_still env v
    obtain ⟨hhist', hfin', hans'⟩ := still_spec hstill
    obtain ⟨D, hlog, hD⟩ := engineFinalize_callback henv hx
    rw [hwait.active] at hD
    obtain ⟨hfin'', hans'', hdone⟩ := hD.spec
    have hdone' : completions (evs ++ D) ≠ [] := by
      rw [completions_append, hdone]
      simp
    refine ⟨evs ++ (D ++ more), ?_,
      ⟨?_, fun hne => absurd ?_ hne, fun _ _ => ?_, fun _ hnot => ?_⟩, fun h0 => ?_⟩
    · rw [hmore, hlog, hevs]
      simp
    · rw [← List.append_assoc]
      exact (hD.judged hjudged).behind hdone' more
    · rw [finals_append, finals_append, hfin, hfin'', hfin']
      rfl
    · exact ⟨evs, _, D, more, rfl, hhist, hD, rfl, hhist'⟩
    · refine absurd ?_ hnot
      rw [Countdown.after_append, Countdown.after_append, Countdown.after_still _ hans'',
        Countdown.after_still _ hans']
      exact hexp
    · rw [← List.append_assoc, completions_append, List.append_eq_nil_iff] at h0
      exact absurd h0.1 hdone'
  · have htimer : w.eng.timerMs ≠ 0 := by
      rw [hwait.timer]
      exact Nat.sub_ne_zero_of_lt (Nat.lt_of_not_le hexp)
    rw [if_neg fun h => htimer h.2] at hx
    obtain rfl := Option.some.inj hx
    rw [started, if_neg (by simp [hwait.state])]
    exact ⟨evs, hevs, ⟨hjudged, fun hne => absurd hfin hne, fun _ hexp' => absurd hexp' hexp,
      fun _ _ => hhist⟩, fun _ => hwait⟩

/-- When `e` has been completed, the timer is not looked at any more. -/
theorem Completed.verdict {e : CmdEntry cfg} {c : Countdown} {log : List (Event cfg)} {n : Nat}
    {w v : World cfg σ} (h : Completed e log w) (hx : checkTimeout (invoke env n) w = some v) :
    ∃ evs, (started env v).log = log ++ evs ∧ Verdict e c evs ∧ completions evs ≠ [] := by
  obtain ⟨hidle, A, l, s, k, r, D, B, hevs, hA, hfin, hD, hr, hB, hjudged⟩ := h
  rw [checkTimeout, if_neg (by simp [hidle])] at hx
  obtain rfl := Option.some.inj hx
  obtain ⟨more, hmore, hstill⟩ := started_still env w
  have hne : finals (A ++ .line .final l :: (D ++ (B ++ more))) ≠ [] := by
    rw [finals_append]
    simp [finals]
  have hsplit : A ++ .line .final l :: (D ++ (B ++ more)) =
      A ++ [.line .final l] ++ D ++ (B ++ more) := by simp
  have hdone : completions (A ++ [.line .final l] ++ D) ≠ [] := by
    rw [completions_append, hD.spec.2.2]
    simp
  refine ⟨A ++ .line .final l :: (D ++ (B ++ more)), ?_,
    ⟨?_, fun _ => ⟨A, l, s, k, r, D, B ++ more, rfl, hA, hfin, hD, hr, ?_⟩,
      fun h0 => absurd h0 hne, fun h0 => absurd h0 hne⟩, fun h0 => ?_⟩
  · rw [hmore, hevs]
    simp
  · rw [hsplit]
    exact (hD.judged hjudged).behind hdone _
  · rw [history_append, hB, (still_spec hstill).1, List.append_nil]
  · rw [hsplit, completions_append, List.append_eq_nil_iff] at h0
    exact hdone h0.1

/-- Behind the drain loop the timer is looked at. -/
theorem checkTimeout_verdict (henv : env.Respects NotCancelling) {e : CmdEntry cfg} {c : Countdown}
    {log : List (Event cfg)} {n : Nat} {w v : World cfg σ}
    (h : StillWaits e c log w ∨ Completed e log w)
    (hx : checkTimeout (invoke env n) w = some v) :
    ∃ evs, (started env v).log = log ++ evs ∧ Verdict e c evs ∧
      (completions evs = [] → Waited e (c.after cfg evs) (started env v).eng) := by
  rcases h with hwaits | hdone
  · exact hwaits.verdict henv hx
  · obtain ⟨evs, hlog, hverdict, hne⟩ := hdone.verdict hx
    exact ⟨evs, hlog, hverdict, fun h0 => absurd h0 hne⟩

/-- **A call of `at_process`** while `e` is waited for. -/
theorem process_verdict (hfit : cfg.Fits) (henv : env.Respects CallbacksOnly)
    (hwrite : env.Delivers) {e : CmdEntry cfg} {c : Countdown} {w w' : World cfg σ} {fuel : Nat}
    {ret : ApiRet} (h : Waited e c w.eng) (hx : exec env fuel .process w = some (ret, w')) :
    ∃ evs, w'.log = w.log ++ evs ∧ Verdict e c evs ∧
      (completions evs = [] → Waited e (c.after cfg evs) w'.eng) := by
  obtain ⟨n, u, v, rfl, hu, hv, rfl⟩ := exec_process_steps hwrite hx
  exact checkTimeout_verdict henv.notCancelling (drainRx_waits hfit henv hwrite h hu) hv

/-- **The two countdowns agree.** -/
theorem Waits.agrees (hfit : cfg.Fits) {e : CmdEntry cfg} {c : Countdown} {w : World cfg σ}
    (h : Waits e c w) : Waited e c w.eng := by
  induction h with
  | transmitted env w w' _ _ he ht =>
    have heng := transmit_eng env w
    rw [ht] at heng
    rw [heng]
    refine ⟨rfl, he, by rw [← he]; rfl, fun hecho => ?_⟩
    rw [← he]
    exact startState_echo hecho _ _
  | app s _ ih => exact ih
  | @tick c w ms _ ih =>
    have htimer := ih.timer
    rw [World.putEng_eng, atTick, if_pos (.inl ih.state)]
    refine ⟨ih.state, ih.active, ?_, ih.echo⟩
    dsimp only
    split <;> omega
  | feed data _ ih => exact ⟨ih.state, ih.active, ih.timer, ih.echo⟩
  | process env fuel w' evs _ henv hwrite hx hlog hnone ih =>
    obtain ⟨evs₁, hlog₁, -, hwait⟩ := process_verdict hfit henv hwrite ih hx
    obtain rfl : evs₁ = evs := List.append_cancel_left (hlog₁.symm.trans hlog)
    exact hwait hnone

/-- A tick lowers the countdown by exactly what it can. -/
theorem atTick_exact (ms : Nat) {g : Engine cfg} (hs : g.state = .waiting) :
    (atTick ms g).timerMs + min ms g.timerMs = g.timerMs := by
  rw [atTick, if_pos (.inl hs)]
  dsimp only
  split <;> omega

/-- **The timeout is exact.** While a command is waited for, with writes that
succeed, handlers that make no API call and callbacks that cancel nothing, an
`at_process` completes it with the final result line it drained, if there is
one; otherwise it completes it with `AT_ERR_TIMEOUT` if the ticks since the
transmission, or since the last answered prompt, have reached the limit, and
leaves it waiting if they have not. Every `at_process` returns with enough fuel, and the
lines it judges by are those of the bytes it takes.
The countdown of the engine is what is left of the limit, a tick never takes it
below zero, and where nothing is waited for a tick changes nothing. -/
theorem timeout_exact (hfit : cfg.Fits) {e : CmdEntry cfg} {c : Countdown} {w : World cfg σ}
    (h : Waits e c w) (henv : env.Respects CallbacksOnly) (hwrite : env.Delivers) :
    (∃ k w' evs, (∀ fuel, k < fuel → exec env fuel .process w = some (.unit, w') ∧
        dispatched evs = ((framer cfg).output w.eng.framer (takenBy env fuel .process w)).filter
          (· ≠ [])) ∧
      w'.log = w.log ++ evs ∧ Verdict e c evs) ∧
    w.eng.timerMs = c.limit - c.elapsed ∧
    (∀ ms, (atTick ms w.eng).timerMs + min ms w.eng.timerMs = w.eng.timerMs) ∧
    ∀ (g : Engine cfg) (ms : Nat), g.state ≠ .waiting → g.state ≠ .prompt → atTick ms g = g := by
  have hwait := h.agrees hfit
  have hreset : env.Respects NotResetting := fun inv s =>
    (henv inv s).mono fun _ hc => hc.2.2
  obtain ⟨k, w', hw'⟩ := exec_process_returns hfit henv hwrite w
  obtain ⟨evs, hlog, hverdict, -⟩ :=
    process_verdict hfit henv hwrite hwait (hw' (k + 1) (Nat.lt_succ_self k))
  refine ⟨⟨k, w', evs, fun fuel hfuel => ⟨hw' fuel hfuel, ?_⟩, hlog, hverdict⟩, hwait.timer,
    fun ms => atTick_exact ms hwait.state, fun g ms hw hp => if_neg (not_or.mpr ⟨hw, hp⟩)⟩
  obtain ⟨evs', hlog', hlines⟩ := (exec_took (c := .process) hreset nofun nofun (hw' fuel hfuel)).log
  obtain rfl : evs' = evs := List.append_cancel_left (hlog'.symm.trans hlog)
  exact hlines

theorem plainEnv_delivers : plainEnv.Delivers := fun _ _ => rfl

/-- The command `d` has been transmitted, the bytes have come in, and five seconds have gone
by. -/
def fiveSeconds (d : CmdDesc) (bytes : List UInt8) : World Config.default Unit :=
  let w := (transmit plainEnv ⟨(atSend (some d) (atInit Config.default)).2, (), []⟩).2
  (w.putEng (atFeed bytes w.eng)).putEng (atTick 5000 (atFeed bytes w.eng))

theorem fiveSeconds_waits {d : CmdDesc}
    (hd : 0 < (atSend (some d) (atInit Config.default)).2.qCount ∧
      (atSend (some d) (atInit Config.default)).2.state = .idle ∧
      (atSend (some d) (atInit Config.default)).2.queue
        (atSend (some d) (atInit Config.default)).2.qTail = cmdEntryOf Config.default d)
    (bytes : List UInt8) :
    Waits (cmdEntryOf Config.default d) ⟨(cmdEntryOf Config.default d).timeoutMs, 5000⟩
      (fiveSeconds d bytes) := by
  obtain ⟨hcount, hstate, hentry⟩ := hd
  have htransmitted := Waits.transmitted plainEnv
    ⟨(atSend (some d) (atInit Config.default)).2, (), []⟩ _ hstate hcount hentry
    (Prod.ext (transmit_delivers plainEnv_delivers _) rfl)
  have hticked := (htransmitted.feed bytes).tick 5000
  rwa [Nat.zero_add] at hticked

/-- A command with the default timeout, when its time is up: without an answer, with one in
the same call, and, if it is a message, with a prompt. -/
theorem timeout_exact_three :
    (∃ k w' evs, (∀ fuel, k < fuel →
        exec plainEnv fuel .process (fiveSeconds probe []) = some (.unit, w')) ∧
      Verdict (cmdEntryOf Config.default probe) ⟨5000, 5000⟩ evs ∧
        (completions evs).length = 1 ∧ finals evs = []) ∧
    (∃ k w' evs, (∀ fuel, k < fuel →
        exec plainEnv fuel .process (fiveSeconds probe (ascii "OK\r\n")) = some (.unit, w')) ∧
      Verdict (cmdEntryOf Config.default probe) ⟨5000, 5000⟩ evs ∧
        (completions evs).length = 1 ∧ finals evs = [ascii "OK"]) ∧
    ∃ k w' evs, (∀ fuel, k < fuel →
        exec plainEnv fuel .process (fiveSeconds message (ascii "> \r\n")) = some (.unit, w')) ∧
      Verdict (cmdEntryOf Config.default message) ⟨5000, 5000⟩ evs ∧
        (completions evs).length = 0 ∧ answered evs = true := by
  have hcall (d : CmdDesc) (bytes : List UInt8) (P : List (Event Config.default) → Prop)
      [DecidablePred P] (hwaits : Waits (cmdEntryOf _ d) ⟨5000, 5000⟩ (fiveSeconds d bytes))
      (hused : rxringUsed (fiveSeconds d bytes).eng.rx < 16)
      (hp : (exec plainEnv 16 .process (fiveSeconds d bytes)).any fun a =>
        decide (P (a.2.log.drop (fiveSeconds d bytes).log.length))) :
      ∃ k w' evs, (∀ fuel, k < fuel →
        exec plainEnv fuel .process (fiveSeconds d bytes) = some (.unit, w')) ∧
      Verdict (cmdEntryOf _ d) ⟨5000, 5000⟩ evs ∧ P evs := by
    obtain ⟨⟨k, w', evs, hret, hlog, hverdict⟩, -⟩ := timeout_exact Config.default_fits hwaits
      (plainEnv_respects _) plainEnv_delivers
    -- no hook makes a call, so that the fuel makes no difference
    have hfuel := (hret (k + 16) (by omega)).1
    rw [exec_process plainEnv_silent (by omega), ← exec_process plainEnv_silent hused] at hfuel
    rw [hfuel] at hp
    have hevs := of_decide_eq_true hp
    rw [hlog, List.drop_left] at hevs
    exact ⟨k, w', evs, fun fuel h => (hret fuel h).1, hverdict, hevs⟩
  exact ⟨hcall probe _ _ (fiveSeconds_waits (by decide +kernel) _) (by decide +kernel)
      (by decide +kernel),
    hcall probe _ _ (fiveSeconds_waits (by decide +kernel) _) (by decide +kernel)
      (by decide +kernel),
    hcall message _ _ (fiveSeconds_waits (by decide +kernel) _) (by decide +kernel)
      (by decide +kernel)⟩

end LibAt
