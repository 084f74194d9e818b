import LibAt.Transitions

/-!
# Every call is a sequence of transitions

The connection between the functions of `LibAt.Process` and the transition
system: a function that returns has made transitions only (`exec_steps`). The
proof follows the code. Each function is shown to be a sequence of transitions
under the assumption that the hooks it runs are (`InvokeSteps`), and the
assumption is discharged by induction on the nesting depth
(`invoke_invokeSteps`): at each level the hook's program makes one API call
after the other (`Interaction.run_invariant`).
-/

namespace LibAt

variable {cfg : Config} {σ : Type} {allowed : HookKind → ApiCall → Prop}

/-- Running a hook makes transitions only. Completion callbacks run while a
completion is in progress, handlers on the empty stack. -/
structure InvokeSteps (allowed : HookKind → ApiCall → Prop)
    (invoke : Invocation → World cfg σ → Option (World cfg σ)) : Prop where
  completion : ∀ {f r u w w' st}, st ≠ [] → invoke (.completion f r u) w = some w' →
    Steps allowed (st, w) (st, w')
  handler : ∀ {f l u w w'}, invoke (.handler f l u) w = some w' →
    Steps allowed ([], w) ([], w')

variable {invoke : Invocation → World cfg σ → Option (World cfg σ)} {env : Env σ}
  {st : List (Frame cfg)} {w w' : World cfg σ}

/-! ## Completion -/

/-- The callback is called, and whatever it does is a sequence of transitions. -/
theorem notify_steps (hinv : InvokeSteps allowed invoke) {e : CmdEntry cfg} {r : Response}
    (hst : st ≠ []) (h : notify invoke e r w = some w') :
    Steps allowed (st, w.fire e r) (st, w') := by
  rw [notify] at h
  rw [World.fire]
  cases hcb : e.cb with
  | none =>
    rw [hcb] at h
    obtain rfl := Option.some.inj h
    exact .refl
  | some f =>
    rw [hcb] at h
    exact hinv.completion hst h

/-- A completion, by a final result or for one of the other reasons. -/
theorem engineFinalize_steps (hinv : InvokeSteps allowed invoke) {status : AtResult} {c : Int}
    (hs : w.eng.state ≠ .idle) (hf : FinalStatus status) (hc : st ≠ [] → Cancelled w.log)
    (h : engineFinalize invoke status c w = some w') : Steps allowed (st, w) (st, w') := by
  obtain ⟨w₁, hn, hw⟩ := Option.bind_eq_some_iff.mp h
  obtain rfl := Option.some.inj hw
  refine .head (.finalize st w status c hs hf hc) ?_
  exact (notify_steps hinv (List.cons_ne_nil _ _) hn).tail (.dequeue st w₁ _ _)

/-! ## Transmission -/

/-- The next command is transmitted, or completed at once when it cannot be. -/
theorem engineStartNext_steps (hinv : InvokeSteps allowed invoke)
    (hs : w.eng.state = .idle) (hq : 0 < w.eng.qCount)
    (h : engineStartNext invoke env w = some w') : Steps allowed ([], w) ([], w') := by
  have hstep : Steps allowed ([], w) ([], (transmit env w).2) := .single (.transmit w env hs hq)
  have hstate := congrArg Engine.state (transmit_eng env w)
  rw [engineStartNext] at h
  rcases ht : transmit env w with ⟨_ | _, w₁⟩ <;> rw [ht] at h hstep hstate
  · have hsend : w₁.eng.state = .sending := by simpa using hstate
    have hne : w₁.eng.state ≠ .idle := by simp [hsend]
    exact hstep.trans (engineFinalize_steps hinv hne (by decide) (by simp) h)
  · obtain rfl := Option.some.inj h
    exact hstep

/-! ## Line dispatch -/

/-- A prompt is looked for while a command is waited for. -/
theorem isPrompt_waiting {g : Engine cfg} {l : List UInt8} (h : isPrompt g l = true) :
    g.state = .waiting := by
  simp only [isPrompt, Bool.and_eq_true, beq_iff_eq] at h
  exact h.1.1.1

/-- Every status `engine_is_final` reports is one a callback may get. -/
theorem engineIsFinal_status {l : List UInt8} {r : AtResult × Int} (h : engineIsFinal l = some r) :
    FinalStatus r.1 := by
  rw [engineIsFinal] at h
  repeat' split at h
  all_goals first
    | (obtain rfl := Option.some.inj h; simp [FinalStatus])
    | cases h

/-- `engine_dispatch_line` hands a line to the URC table when it is neither
echo nor prompt nor final result. -/
theorem urc_steps (hinv : InvokeSteps allowed invoke) {l : List UInt8}
    (hl : Dispatched w.eng l) (he : isEcho w.eng l = false) (hp : isPrompt w.eng l = false)
    (hf : w.eng.state = .waiting → engineIsFinal l = none)
    (h : (urcDispatch invoke l w).map (fun r => if r.1 then r.2 else accumulate l r.2) = some w') :
    Steps allowed ([], w) ([], w') := by
  obtain ⟨⟨taken, w₁⟩, hu, hw⟩ := Option.map_eq_some_iff.mp h
  obtain ⟨m, hm, hr⟩ := Option.bind_eq_some_iff.mp hu
  cases m with
  | none =>
    obtain ⟨rfl, rfl⟩ := Prod.mk.inj (Option.some.inj hr)
    obtain rfl : accumulate l w = w' := hw
    exact .single (.accumulate w l hl he hp hf hm)
  | some i =>
    obtain ⟨w₂, hi, hr⟩ := Option.bind_eq_some_iff.mp hr
    obtain ⟨rfl, rfl⟩ := Prod.mk.inj (Option.some.inj hr)
    obtain rfl : w₂ = w' := hw
    exact .head (.urc w l i he hp hf hm) (hinv.handler hi)

/-- **A line**, whichever way it goes through `engine_dispatch_line`. -/
theorem engineDispatchLine_steps (hinv : InvokeSteps allowed invoke) {l : List UInt8}
    (hl : Dispatched w.eng l) (h : engineDispatchLine invoke env l w = some w') : Steps allowed ([], w) ([], w') := by
  rw [engineDispatchLine] at h
  by_cases h0 : l.length = 0
  · rw [if_pos h0] at h
    obtain rfl := Option.some.inj h
    exact .refl
  rw [if_neg h0] at h
  cases he : isEcho w.eng l with
  | true =>
    rw [if_pos he] at h
    obtain rfl := Option.some.inj h
    exact .single (.echo w l he)
  | false =>
  rw [if_neg (by simp [he])] at h
  cases hp : isPrompt w.eng l with
  | true =>
    rw [if_pos hp] at h
    dsimp only at h
    by_cases hb : (w.eng.queue w.eng.qTail).prompt = .sms ∧ (w.eng.queue w.eng.qTail).hasBody
    · rw [if_pos hb] at h
      have hstep : Steps allowed ([], w) ([], (answerPrompt env (w.eng.queue w.eng.qTail)
          (w.emit (.line (.prompt true) l))).2) := .single (.promptAnswered w l env he hp hb)
      have hstate := congrArg Engine.state (answerPrompt_eng env (w.eng.queue w.eng.qTail)
        (w.emit (.line (.prompt true) l)))
      rcases ha : answerPrompt env (w.eng.queue w.eng.qTail)
          (w.emit (.line (.prompt true) l)) with ⟨_ | _, w₁⟩ <;> rw [ha] at h hstep hstate
      · have hprompt : w₁.eng.state = .prompt := by simpa using hstate
        have hne : w₁.eng.state ≠ .idle := by simp [hprompt]
        exact hstep.trans (engineFinalize_steps hinv hne (by decide) (by simp) h)
      · obtain rfl := Option.some.inj h
        exact hstep
    · rw [if_neg hb] at h
      obtain rfl := Option.some.inj h
      exact .single (.promptIgnored w l he hp hb)
  | false =>
  rw [if_neg (by simp [hp])] at h
  by_cases hs : w.eng.state = .waiting
  · rw [if_pos hs] at h
    cases hfin : engineIsFinal l with
    | some r =>
      rw [hfin] at h
      refine .head (.final w l r he hp hs hfin) (engineFinalize_steps hinv ?_ ?_ (by simp) h)
      · simp [hs]
      · exact engineIsFinal_status hfin
    | none =>
      rw [hfin] at h
      exact urc_steps hinv hl he hp (fun _ => hfin) h
  · rw [if_neg hs] at h
    exact urc_steps hinv hl he hp (fun hw => absurd hw hs) h

/-! ## `at_process` -/

/-- The FSM dispatches its buffer or the literal prompt. -/
theorem lfsmByte_dispatched {b : UInt8} {g : Engine cfg} {l : List UInt8}
    (h : lfsmByte b g = .line l) : Dispatched g l := by
  rw [lfsmByte] at h
  rw [Dispatched]
  repeat' split at h
  all_goals first
    | (injection h with h; simp [h])
    | cases h

/-- **A byte**, and the line it may complete. -/
theorem processByte_steps (hinv : InvokeSteps allowed invoke) {b : UInt8}
    (h : processByte invoke env b w = some w') : Steps allowed ([], w) ([], w') := by
  rw [processByte] at h
  cases hb : lfsmByte b w.eng with
  | more g =>
    rw [hb] at h
    obtain rfl := Option.some.inj h
    exact .single (.byte w b g hb)
  | line l =>
    rw [hb] at h
    obtain ⟨w₁, hd, rfl⟩ := Option.map_eq_some_iff.mp h
    exact (engineDispatchLine_steps hinv (lfsmByte_dispatched hb) hd).tail (.lineDone w₁)

/-- **The drain loop**: by induction on its rounds. -/
theorem drainRx_steps (hinv : InvokeSteps allowed invoke) {fuel : Nat} :
    ∀ {w : World cfg σ}, drainRx invoke env fuel w = some w' →
      Steps allowed ([], w) ([], w') := by
  induction fuel with
  | zero => intro w h; cases h
  | succ fuel ih =>
    intro w h
    rw [drainRx] at h
    rcases hp : rxringPop w.eng.rx with _ | ⟨b, rx⟩ <;> rw [hp] at h
    · obtain rfl := Option.some.inj h
      exact .refl
    · obtain ⟨w₁, hb, h⟩ := Option.bind_eq_some_iff.mp h
      exact .head (.pop w b rx hp) ((processByte_steps hinv hb).trans (ih h))

/-- The check of the countdown, -/
theorem checkTimeout_steps (hinv : InvokeSteps allowed invoke)
    (h : checkTimeout invoke w = some w') : Steps allowed ([], w) ([], w') := by
  rw [checkTimeout] at h
  split at h
  · rename_i hs
    refine engineFinalize_steps hinv ?_ (by decide) (by simp) h
    rcases hs.1 with hs | hs <;> simp [hs]
  · obtain rfl := Option.some.inj h
    exact .refl

/-- the start of the next command, -/
theorem startIfIdle_steps (hinv : InvokeSteps allowed invoke)
    (h : startIfIdle invoke env w = some w') : Steps allowed ([], w) ([], w') := by
  rw [startIfIdle] at h
  split at h
  · rename_i hs
    exact engineStartNext_steps hinv hs.1 hs.2 h
  · obtain rfl := Option.some.inj h
    exact .refl

/-- and the three together. -/
theorem atProcess_steps (hinv : InvokeSteps allowed invoke) {fuel : Nat}
    (h : atProcess invoke env fuel w = some w') : Steps allowed ([], w) ([], w') := by
  obtain ⟨w₁, h₁, h⟩ := Option.bind_eq_some_iff.mp h
  obtain ⟨w₂, h₂, h₃⟩ := Option.bind_eq_some_iff.mp h
  exact (drainRx_steps hinv h₁).trans
    ((checkTimeout_steps hinv h₂).trans (startIfIdle_steps hinv h₃))

/-! ## `at_abort` and `at_reset` -/

/-- An abort, from outside or from a hook. -/
theorem atAbort_steps (hinv : InvokeSteps allowed invoke)
    (hc : st ≠ [] → w.eng.state = .waiting ∨ w.eng.state = .prompt → Cancelled w.log)
    (h : atAbort invoke w = some w') : Steps allowed (st, w) (st, w') := by
  rw [atAbort] at h
  split at h
  · rename_i hs
    refine engineFinalize_steps hinv ?_ (by decide) (fun hst => hc hst hs) h
    rcases hs with hs | hs <;> simp [hs]
  · obtain rfl := Option.some.inj h
    exact .refl

/-- A round of the drain loop of `at_reset`; what its callback calls is a step of the frame for
the drain. -/
theorem drainOne_steps (hinv : InvokeSteps allowed invoke) (hq : 0 < w.eng.qCount)
    (h : drainOne invoke w = some w') :
    Steps allowed (.draining :: st, w) (.draining :: st, w') := by
  obtain ⟨w₁, hn, hw⟩ := Option.bind_eq_some_iff.mp h
  obtain rfl := Option.some.inj hw
  refine .head (.drainNotify st w hq) ?_
  exact (notify_steps hinv (List.cons_ne_nil _ _) hn).tail (.drainNext st w₁ _)

/-- The drain loop ends with an empty queue. -/
theorem drainQueue_steps (hinv : InvokeSteps allowed invoke) {fuel : Nat} :
    ∀ {w : World cfg σ}, drainQueue invoke fuel w = some w' →
      Steps allowed (.draining :: st, w) (.draining :: st, w') ∧ w'.eng.qCount = 0 := by
  induction fuel with
  | zero => intro w h; cases h
  | succ fuel ih =>
    intro w h
    rw [drainQueue] at h
    split at h
    · rename_i hq
      obtain ⟨w₁, h₁, h⟩ := Option.bind_eq_some_iff.mp h
      obtain ⟨hs, h0⟩ := ih h
      exact ⟨(drainOne_steps hinv hq h₁).trans hs, h0⟩
    · obtain rfl := Option.some.inj h
      exact ⟨.refl, by omega⟩

/-- `engine_finalize` leaves the engine idle. -/
theorem engineFinalize_idle {status : AtResult} {c : Int}
    (h : engineFinalize invoke status c w = some w') : w'.eng.state = .idle := by
  obtain ⟨w₁, -, hw⟩ := Option.bind_eq_some_iff.mp h
  obtain rfl := Option.some.inj hw
  rfl

/-- After the first part of `at_reset` the engine is idle or has nothing
queued. -/
theorem abortActive_steps (hinv : InvokeSteps allowed invoke) (hc : st ≠ [] → Cancelled w.log)
    (h : abortActive invoke w = some w') :
    Steps allowed (st, w) (st, w') ∧ (w'.eng.state = .idle ∨ w'.eng.qCount = 0) := by
  rw [abortActive] at h
  split at h
  · rename_i hs
    exact ⟨engineFinalize_steps hinv hs.1 (by decide) hc h, .inl (engineFinalize_idle h)⟩
  · rename_i hs
    obtain rfl := Option.some.inj h
    refine ⟨.refl, ?_⟩
    by_cases hi : w.eng.state = .idle
    · exact .inl hi
    · exact .inr (Nat.eq_zero_of_not_pos fun hq => hs ⟨hi, hq⟩)

/-- **A reset**, with the queue drained. -/
theorem atReset_steps (hinv : InvokeSteps allowed invoke) {fuel : Nat}
    (hc : st ≠ [] → Cancelled w.log) (h : atReset invoke fuel w = some w') :
    Steps allowed (st, w) (st, w') := by
  obtain ⟨w₁, h₁, h⟩ := Option.bind_eq_some_iff.mp h
  obtain ⟨w₂, h₂, hw⟩ := Option.bind_eq_some_iff.mp h
  obtain rfl := Option.some.inj hw
  obtain ⟨hs₁, hidle⟩ := abortActive_steps hinv hc h₁
  obtain ⟨hs₂, h0⟩ : Steps allowed (.draining :: st, w₁) (.draining :: st, w₂) ∧ _ :=
    drainQueue_steps hinv h₂
  have hc₁ : st ≠ [] → Cancelled w₁.log := fun hst => (hc hst).mono hs₁.log_mono
  exact hs₁.trans (.head (.drain st w₁ hidle hc₁) (hs₂.tail (.reset st w₂ h0)))

/-! ## API calls -/

/-- What an API call must have behind it when a completion is in progress. -/
def CancelSafe (st : List (Frame cfg)) (c : ApiCall) (w : World cfg σ) : Prop :=
  st ≠ [] → c = .reset ∨ (c = .abort ∧ (w.eng.state = .waiting ∨ w.eng.state = .prompt)) →
    Cancelled w.log

/-- `at_send` is a transition if it accepts, and no step at all if it does not. -/
theorem World.send_steps {desc : Option CmdDesc} :
    Steps allowed (st, w) (st, (w.send desc).2) := by
  rcases w.send_cases desc with hw | ⟨d, g, hd, hw⟩
  · rw [hw]
  · rw [hw]
    exact .single (.send st w d g hd)

/-- **A call of the API**, if it does not cancel what is being completed. -/
theorem apiCall_steps (hinv : InvokeSteps allowed invoke) {fuel : Nat} {c : ApiCall} {r : ApiRet}
    (hc : CancelSafe st c w) (h : apiCall invoke fuel c w = some (r, w')) :
    Steps allowed (st, w) (st, w') := by
  cases c with
  | send desc =>
    obtain ⟨-, rfl⟩ := Prod.mk.inj (Option.some.inj h)
    exact World.send_steps
  | abort =>
    obtain ⟨w₁, h₁, hw⟩ := Option.map_eq_some_iff.mp h
    obtain ⟨-, rfl⟩ := Prod.mk.inj hw
    exact atAbort_steps hinv (fun hst hs => hc hst (.inr ⟨rfl, hs⟩)) h₁
  | reset =>
    obtain ⟨w₁, h₁, hw⟩ := Option.map_eq_some_iff.mp h
    obtain ⟨-, rfl⟩ := Prod.mk.inj hw
    exact atReset_steps hinv (fun hst => hc hst (.inl rfl)) h₁
  | feed data =>
    obtain ⟨-, rfl⟩ := Prod.mk.inj (Option.some.inj h)
    exact .single (.feed st w data)
  | tick ms =>
    obtain ⟨-, rfl⟩ := Prod.mk.inj (Option.some.inj h)
    exact .single (.tick st w ms)
  | registerUrc pre cb user =>
    obtain ⟨⟨r', g⟩, h₁, hw⟩ := Option.map_eq_some_iff.mp h
    obtain ⟨-, rfl⟩ := Prod.mk.inj hw
    exact .single (.register st w pre cb user r' g h₁)
  | deregisterUrc pre =>
    obtain ⟨⟨r', g⟩, h₁, hw⟩ := Option.map_eq_some_iff.mp h
    obtain ⟨-, rfl⟩ := Prod.mk.inj hw
    exact .single (.deregister st w pre r' g h₁)
  | state =>
    obtain ⟨-, rfl⟩ := Prod.mk.inj (Option.some.inj h)
    exact .refl
  | queueDepth =>
    obtain ⟨-, rfl⟩ := Prod.mk.inj (Option.some.inj h)
    exact .refl

/-! ## The knot -/

/-- A call from a completion callback has its own mark in the log. -/
theorem cancelSafe_completion (c : ApiCall) (w : World cfg σ) :
    CancelSafe st c (w.emit (.nested .completion c w.eng.state)) := by
  rintro - (rfl | ⟨rfl, hs⟩)
  · exact ⟨_, List.mem_append_right _ (List.mem_singleton_self _), trivial⟩
  · exact ⟨_, List.mem_append_right _ (List.mem_singleton_self _), hs⟩

/-- **Hooks make transitions only**, however deep they nest. -/
theorem invoke_invokeSteps (henv : env.Respects allowed) (n : Nat) :
    InvokeSteps allowed (fun inv (w : World cfg σ) => LibAt.invoke env n inv w) := by
  induction n with
  | zero => exact ⟨fun _ h => (by cases h), fun h => (by cases h)⟩
  | succ n ih =>
    -- a hook's program, run on the stack `st`
    have hrun : ∀ {inv : Invocation} {w w' : World cfg σ} {st : List (Frame cfg)},
        (∀ c (w : World cfg σ), CancelSafe st c (w.emit (.nested inv.kind c w.eng.state))) →
        LibAt.invoke env (n + 1) inv w = some w' → Steps allowed (st, w) (st, w') := by
      intro inv w w' st hsafe h
      refine Interaction.run_invariant (I := fun v => Steps allowed (st, w) (st, v))
        (fun s v hv => hv.tail (.app st v s)) (fun c v a v' hal hc hv => ?_)
        (henv inv w.app) h .refl
      exact hv.trans (.head (.nested st v inv.kind c hal) (apiCall_steps ih (hsafe c v) hc))
    refine ⟨fun _ h => hrun (fun c w => cancelSafe_completion c w) h, fun h => hrun ?_ h⟩
    intro c w hst
    exact absurd rfl hst

/-- **Every call is a sequence of transitions.** -/
theorem exec_steps (henv : env.Respects allowed) {fuel : Nat} {call : TopCall} {r : ApiRet}
    (h : exec env fuel call w = some (r, w')) : Steps allowed ([], w) ([], w') := by
  have hinv : InvokeSteps allowed (fun inv (w : World cfg σ) => LibAt.invoke env fuel inv w) := invoke_invokeSteps henv fuel
  cases call with
  | api c => exact apiCall_steps hinv (fun hst => absurd rfl hst) h
  | process =>
    obtain ⟨w₁, h₁, hw⟩ := Option.map_eq_some_iff.mp h
    obtain ⟨-, rfl⟩ := Prod.mk.inj hw
    exact atProcess_steps hinv h₁
  | setTraceHook hook =>
    obtain ⟨-, rfl⟩ := Prod.mk.inj (Option.some.inj h)
    exact .single (.traceHook w hook)
  | deinit =>
    obtain ⟨w₁, h₁, hw⟩ := Option.map_eq_some_iff.mp h
    obtain ⟨-, rfl⟩ := Prod.mk.inj hw
    have hidle : w₁.eng.state = .idle := by
      obtain ⟨_, -, h₁⟩ := Option.bind_eq_some_iff.mp h₁
      obtain ⟨_, -, h₁⟩ := Option.bind_eq_some_iff.mp h₁
      rw [← Option.some.inj h₁]
      rfl
    exact (atReset_steps hinv (by simp) h₁).tail (.deinit w₁ hidle)

/-- Every run is a sequence of transitions from `at_init`. -/
theorem Reachable.steps {P : Env σ → TopCall → Prop}
    (hP : ∀ env call, P env call → env.Respects allowed) {w : World cfg σ}
    (h : Reachable P w) :
    ∃ s, Steps allowed ([], ⟨atInit cfg, s, []⟩) ([], w) := by
  induction h with
  | init s => exact ⟨s, .refl⟩
  | step s _ hp hx ih =>
    obtain ⟨s₀, hs⟩ := ih
    exact ⟨s₀, hs.trans (.head (.app [] _ s) (exec_steps (hP _ _ hp) hx))⟩

/-- The same with hooks that may call anything. -/
theorem Reachable.steps_any {P : Env σ → TopCall → Prop} {w : World cfg σ} (h : Reachable P w) :
    ∃ s, Steps (fun _ _ => True) ([], ⟨atInit cfg, s, []⟩) ([], w) :=
  h.steps fun env _ _ => env.respects_true

end LibAt
