import LibAt.Consume

/-!
# What the API does not notice

The API calls a hook makes look at no more of the engine than the dispatch of a
line does, the ring and the queue apart. `InertApi` is an inert change that they do
not notice either: it commutes with every call that is allowed, and so with every
hook that makes no others, however deep it nests (`invoke_adapt`). Three instances
matter: nothing changed but the log, the echo test disarmed, and, for hooks that have
nothing to do with the ring, another ring.
-/

namespace LibAt

variable {cfg : Config} {σ : Type}

/-- An inert change that the allowed API calls do not notice. -/
structure InertApi (allowed : HookKind → ApiCall → Prop) (u : Engine cfg → Engine cfg) : Prop
    extends InertByte u where
  qHead : ∀ g, (u g).qHead = g.qHead
  qCount : ∀ g, (u g).qCount = g.qCount
  timerMs : ∀ g, (u g).timerMs = g.timerMs
  setTimer : ∀ g t, u { g with timerMs := t } = { u g with timerMs := t }
  setTable : ∀ g t, u { g with urcTable := t } = { u g with urcTable := t }
  enqueue : ∀ g q h n, u { g with queue := q, qHead := h, qCount := n } =
    { u g with queue := q, qHead := h, qCount := n }
  feed : ∀ {k data}, allowed k (.feed data) → ∀ g, u (atFeed data g) = atFeed data (u g)
  drainNext : ∀ {k}, allowed k .reset → ∀ g, u (drainNext g) = drainNext (u g)
  reset : ∀ {k}, allowed k .reset → ∀ g, u (resetState g) = resetState (u g)

variable {allowed : HookKind → ApiCall → Prop}

/-- No change at all. -/
theorem InertApi.id : InertApi allowed fun g : Engine cfg => g := by
  constructor <;> first
    | (intros; rfl)
    | (constructor <;> first | (intros; rfl) | (constructor <;> intros <;> rfl))

/-- `echo_armed = false`. -/
def disarm (g : Engine cfg) : Engine cfg := { g with echoArmed := false }

/-- No call looks whether an echo is awaited. -/
theorem disarm_inertApi : InertApi allowed (disarm : Engine cfg → Engine cfg) := by
  constructor <;> first
    | (intros; rfl)
    | (constructor <;> first | (intros; rfl) | (constructor <;> intros <;> rfl))

section

variable {invoke : Invocation → World cfg σ → Option (World cfg σ)} {env : Env σ}
  {u : Engine cfg → Engine cfg} {past : List (Event cfg)}

/-! ## The functions of the API -/

/-- What is inert for the fields is inert for the calls that read and write them: a command
goes into the same slot, -/
theorem atSend_inert (hu : InertApi allowed u) (desc : Option CmdDesc) (g : Engine cfg) :
    atSend desc (u g) = ((atSend desc g).1, u (atSend desc g).2) := by
  cases desc with
  | none => rfl
  | some d =>
    rw [atSend, atSend, hu.qCount]
    split_ifs
    · rfl
    · rfl
    · refine congrArg (Prod.mk _) (Eq.trans ?_ (hu.enqueue g _ _ _).symm)
      rw [hu.queue, hu.qHead]

/-- a tick lowers the same countdown, -/
theorem atTick_inert (hu : InertApi allowed u) (ms : Nat) (g : Engine cfg) :
    atTick ms (u g) = u (atTick ms g) := by
  by_cases hs : g.state = .waiting ∨ g.state = .prompt
  · rw [atTick, atTick, if_pos hs, if_pos (hu.state g ▸ hs)]
    refine Eq.trans ?_ (hu.setTimer g _).symm
    rw [hu.timerMs]
  · rw [atTick, atTick, if_neg hs, if_neg (hu.state g ▸ hs)]

/-- and handlers are registered -/
theorem atRegisterUrc_inert (hu : InertApi allowed u) (pre : Option (List UInt8))
    (cb : Option Ptr) (user : Ptr) (g : Engine cfg) :
    atRegisterUrc pre cb user (u g) = (atRegisterUrc pre cb user g).map fun r => (r.1, u r.2) := by
  cases pre with
  | none => rfl
  | some p =>
    cases cb with
    | none => rfl
    | some f =>
      simp only [atRegisterUrc, hu.urcTable, Option.bind_eq_bind, Option.map_bind]
      refine Option.bind_congr fun m _ => ?_
      cases m with
      | some i => exact congrArg (fun g => some (AtResult.ok, g)) (hu.setTable _ _).symm
      | none =>
        simp only [Function.comp_apply, Option.map_bind]
        refine Option.bind_congr fun m _ => ?_
        cases m with
        | some i => exact congrArg (fun g => some (AtResult.ok, g)) (hu.setTable _ _).symm
        | none => rfl

/-- and removed in the same slots. -/
theorem atDeregisterUrc_inert (hu : InertApi allowed u) (pre : Option (List UInt8))
    (g : Engine cfg) :
    atDeregisterUrc pre (u g) = (atDeregisterUrc pre g).map fun r => (r.1, u r.2) := by
  cases pre with
  | none => rfl
  | some p =>
    simp only [atDeregisterUrc, hu.urcTable, Option.bind_eq_bind, Option.map_bind]
    refine Option.bind_congr fun m _ => ?_
    cases m with
    | some i => exact congrArg (fun g => some (AtResult.ok, g)) (hu.setTable _ _).symm
    | none => rfl

/-- An accepted command is logged behind the past. -/
theorem World.send_adapt (hu : InertApi allowed u) (desc : Option CmdDesc) (w : World cfg σ) :
    (w.adapt u past).send desc = ((w.send desc).1, (w.send desc).2.adapt u past) := by
  rw [World.send, World.send, World.adapt_eng, atSend_inert hu]
  rcases atSend desc w.eng with ⟨r, g⟩
  have hput := w.putEng_adapt past (u := u) (g := g) rfl
  cases r <;> cases desc <;> dsimp only <;> rw [hput]
  rw [World.emit_adapt]

/-- `at_abort` does not notice an inert change, -/
theorem atAbort_adapt (hu : InertApi allowed u) (hinv : Oblivious invoke u past) (w : World cfg σ) :
    atAbort invoke (w.adapt u past) = (atAbort invoke w).map (World.adapt u past) := by
  rw [atAbort, atAbort, World.adapt_eng, hu.state]
  split
  · exact engineFinalize_adapt hu.toInert hinv .errAborted 0 w
  · rfl

/-- nor does a round of the drain loop of `at_reset`, in hooks that may call it, -/
theorem drainOne_adapt (hu : InertApi allowed u) {k : HookKind} (hk : allowed k .reset)
    (hinv : Oblivious invoke u past)
    (w : World cfg σ) : drainOne invoke (w.adapt u past) = (drainOne invoke w).map (World.adapt u past) := by
  simp only [drainOne, World.adapt_eng, hu.queue, hu.qTail, notify_adapt hinv,
    Option.bind_eq_bind, Option.pure_def]
  rw [Option.bind_map, Option.map_bind]
  refine Option.bind_congr fun w' _ => ?_
  have hput : (w'.adapt u past).putEng (LibAt.drainNext (u w'.eng)) =
      (w'.putEng (LibAt.drainNext w'.eng)).adapt u past := w'.putEng_adapt past (hu.drainNext hk _)
  have hemit := (w'.putEng (LibAt.drainNext w'.eng)).emit_adapt u past
    (.completed (w.eng.queue w.eng.qTail))
  rw [← hput] at hemit
  exact congrArg some hemit

/-- nor the loop, -/
theorem drainQueue_adapt (hu : InertApi allowed u) {k : HookKind} (hk : allowed k .reset)
    (hinv : Oblivious invoke u past) (fuel : Nat) :
    ∀ w : World cfg σ, drainQueue invoke fuel (w.adapt u past) =
      (drainQueue invoke fuel w).map (World.adapt u past) := by
  induction fuel with
  | zero => exact fun w => rfl
  | succ fuel ih =>
    intro w
    rw [drainQueue, drainQueue, World.adapt_eng, hu.qCount]
    split
    · rw [drainOne_adapt hu hk hinv, Option.bind_map, Option.map_bind]
      exact Option.bind_congr fun w' _ => ih w'
    · rfl

/-- nor `at_reset` itself. -/
theorem atReset_adapt (hu : InertApi allowed u) {k : HookKind} (hk : allowed k .reset)
    (hinv : Oblivious invoke u past) (fuel : Nat) (w : World cfg σ) :
    atReset invoke fuel (w.adapt u past) = (atReset invoke fuel w).map (World.adapt u past) := by
  have habort : abortActive invoke (w.adapt u past) =
      (abortActive invoke w).map (World.adapt u past) := by
    rw [abortActive, abortActive, World.adapt_eng, hu.state, hu.qCount]
    split
    · exact engineFinalize_adapt hu.toInert hinv .errAborted 0 w
    · rfl
  simp only [atReset, habort, Option.bind_eq_bind, Option.pure_def]
  rw [Option.bind_map, Option.map_bind]
  refine Option.bind_congr fun w₁ _ => ?_
  simp only [Function.comp_apply, drainQueue_adapt hu hk hinv]
  rw [Option.bind_map, Option.map_bind]
  refine Option.bind_congr fun w₂ _ => ?_
  exact congrArg some (w₂.putEng_adapt past (hu.reset hk _))

/-- **An API call** does not notice the change. -/
theorem apiCall_adapt (hu : InertApi allowed u) {k : HookKind} {c : ApiCall} (hc : allowed k c)
    (hinv : Oblivious invoke u past) (fuel : Nat) (w : World cfg σ) :
    apiCall invoke fuel c (w.adapt u past) =
      (apiCall invoke fuel c w).map fun r => (r.1, r.2.adapt u past) := by
  cases c with
  | send desc =>
    rw [apiCall, World.send_adapt hu]
    rfl
  | abort =>
    rw [apiCall, apiCall, atAbort_adapt hu hinv, Option.map_map, Option.map_map]
    rfl
  | reset =>
    rw [apiCall, apiCall, atReset_adapt hu hc hinv, Option.map_map, Option.map_map]
    rfl
  | feed data =>
    rw [apiCall, World.adapt_eng, World.putEng_adapt past w (hu.feed hc _)]
    rfl
  | tick ms =>
    rw [apiCall, World.adapt_eng, atTick_inert hu, World.putEng_adapt past w rfl]
    rfl
  | registerUrc pre cb user =>
    rw [apiCall, apiCall, World.adapt_eng, atRegisterUrc_inert hu, Option.map_map, Option.map_map]
    refine Option.map_congr fun r _ => ?_
    exact congrArg (Prod.mk _) (World.putEng_adapt past w rfl)
  | deregisterUrc pre =>
    rw [apiCall, apiCall, World.adapt_eng, atDeregisterUrc_inert hu, Option.map_map, Option.map_map]
    refine Option.map_congr fun r _ => ?_
    exact congrArg (Prod.mk _) (World.putEng_adapt past w rfl)
  | state =>
    rw [apiCall, World.adapt_eng, hu.state]
    rfl
  | queueDepth =>
    rw [apiCall, World.adapt_eng, hu.qCount]
    rfl

/-- **No hook notices the change**, however deep it nests. -/
theorem invoke_adapt (hu : InertApi allowed u) (henv : env.Respects allowed) (n : Nat) :
    Oblivious (LibAt.invoke env n) u past := by
  induction n with
  | zero => exact fun inv w => rfl
  | succ n ih =>
    intro inv w
    have hrun : Option.Rel (fun w w' => w' = w.adapt u past) (LibAt.invoke env (n + 1) inv w)
        (LibAt.invoke env (n + 1) inv (w.adapt u past)) := by
      refine Interaction.run_related (fun w w' h => ?_) (fun s w w' h => ?_) (fun c w w' hc h => ?_)
        (henv inv w.app) rfl
      · rw [h]
        rfl
      · rw [h]
        rfl
      · rw [h, World.emit_adapt, World.adapt_eng, hu.state, apiCall_adapt hu hc ih]
        cases apiCall (LibAt.invoke env n) n c (w.emit (.nested inv.kind c w.eng.state)) with
        | none => exact .none
        | some r => exact .some ⟨rfl, rfl⟩
    generalize LibAt.invoke env (n + 1) inv w = x at hrun ⊢
    generalize LibAt.invoke env (n + 1) inv (w.adapt u past) = y at hrun ⊢
    cases hrun with
    | none => rfl
    | some hw => exact congrArg some hw

end

end LibAt
