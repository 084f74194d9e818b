import LibAt.Wire

/-!
# Interrupts

`at_feed` and `at_tick` may be called from interrupts, also while `at_process` is running.
Here `at_process` meets them on its way (`atProcessIsr`): before each look at the ring, and
between the check of the countdown and the start of the next command. An interrupt inside of
one of these pieces makes no difference to one in front of it or behind it, since nothing in
them looks at the ring.

What a `Discipline` asserts does not depend on when interrupts come (`Discipline.preempted`),
and so the wire stays half-duplex.
-/

namespace LibAt

variable {cfg : Config} {σ : Type}

/-! ## Interrupted calls -/

/-- What an interrupt calls. -/
inductive Interrupt where
  /-- `at_feed` -/
  | feed (data : List UInt8)
  /-- `at_tick` -/
  | tick (msElapsed : Nat)
  deriving DecidableEq, Repr

/-- An interrupt is served. -/
def Interrupt.serve (w : World cfg σ) : Interrupt → World cfg σ
  | .feed data => w.putEng (atFeed data w.eng)
  | .tick ms => w.putEng (atTick ms w.eng)

/-- Some interrupts are served, one after the other. -/
def World.interrupted (is : List Interrupt) (w : World cfg σ) : World cfg σ :=
  is.foldl Interrupt.serve w

section

variable (invoke : Invocation → World cfg σ → Option (World cfg σ)) (env : Env σ)

/-- `while (rxring_pop(&g_at.rx, &b))`, with the interrupts in front of each round. Those
that are left when the ring is empty come in behind the loop. -/
def drainRxIsr : Nat → List (List Interrupt) → World cfg σ → Option (World cfg σ)
  | 0, _, _ => none
  | fuel + 1, points, w =>
    let w := w.interrupted (points.headD [])
    match rxringPop w.eng.rx with
    | none => some (w.interrupted points.tail.flatten)
    | some (b, rx) => do
      let w ← processByte invoke env b (w.putEng { w.eng with rx := rx })
      drainRxIsr fuel points.tail w

/-- `at_process` with interrupts: `before` up to the check of the countdown, `between` up to
the start of the next command. -/
def atProcessIsr (fuel : Nat) (before : List (List Interrupt)) (between : List Interrupt)
    (w : World cfg σ) : Option (World cfg σ) := do
  let w ← drainRxIsr invoke env fuel before w
  let w ← checkTimeout invoke w
  startIfIdle invoke env (w.interrupted between)

end

/-- The worlds that runs reach in which calls of `at_process` are interrupted. `P` says which
calls and environments the run is made of, and `I` what may interrupt a call. -/
inductive Preempted (P : Env σ → TopCall → Prop) (I : World cfg σ → List Interrupt → Prop) :
    World cfg σ → Prop
  /-- after `at_init` -/
  | init (s : σ) : Preempted P I ⟨atInit cfg, s, []⟩
  /-- one more call -/
  | step {w w' : World cfg σ} {env : Env σ} {call : TopCall} {fuel : Nat} {r : ApiRet} (s : σ) :
      Preempted P I w → P env call → exec env fuel call (w.putApp s) = some (r, w') →
      Preempted P I w'
  /-- one more `at_process`, with interrupts -/
  | process {w w' : World cfg σ} {env : Env σ} {fuel : Nat} {before : List (List Interrupt)}
      {between : List Interrupt} (s : σ) :
      Preempted P I w → P env .process → I w (before.flatten ++ between) →
      atProcessIsr (invoke env fuel) env fuel before between (w.putApp s) = some w' →
      Preempted P I w'

/-- A run need not be interrupted. -/
theorem Reachable.preempted {P : Env σ → TopCall → Prop}
    (I : World cfg σ → List Interrupt → Prop) {w : World cfg σ} (h : Reachable P w) :
    Preempted P I w := by
  induction h with
  | init s => exact .init s
  | step s _ hp hx ih => exact .step s ih hp hx

@[simp] theorem World.interrupted_nil (w : World cfg σ) : w.interrupted [] = w := rfl

@[simp] theorem World.interrupted_cons (i : Interrupt) (is : List Interrupt) (w : World cfg σ) :
    w.interrupted (i :: is) = (i.serve w).interrupted is := rfl

theorem World.interrupted_append (is js : List Interrupt) (w : World cfg σ) :
    w.interrupted (is ++ js) = (w.interrupted is).interrupted js := List.foldl_append

section

variable {invoke : Invocation → World cfg σ → Option (World cfg σ)} {env : Env σ}

/-- Without interrupts it is the loop of the source. -/
theorem drainRxIsr_nil (fuel : Nat) : ∀ w : World cfg σ,
    drainRxIsr invoke env fuel [] w = drainRx invoke env fuel w := by
  induction fuel with
  | zero => exact fun w => rfl
  | succ fuel ih =>
    intro w
    rw [drainRxIsr, drainRx]
    change (match rxringPop w.eng.rx with | none => some w | some (b, rx) => _) = _
    cases rxringPop w.eng.rx with
    | none => rfl
    | some r => exact Option.bind_congr fun w' _ => ih w'

/-- So an `at_process` without interrupts is the one of the source. -/
theorem atProcessIsr_nil (fuel : Nat) (w : World cfg σ) :
    atProcessIsr invoke env fuel [] [] w = atProcess invoke env fuel w := by
  rw [atProcessIsr, atProcess, drainRxIsr_nil]
  rfl

/-- One round of the loop, or its end. -/
theorem drainRxIsr_cases {fuel : Nat} {points : List (List Interrupt)} {w w' : World cfg σ}
    (h : drainRxIsr invoke env (fuel + 1) points w = some w') :
    (rxringPop (w.interrupted (points.headD [])).eng.rx = none ∧
        w' = w.interrupted points.flatten) ∨
      ∃ b rx v, rxringPop (w.interrupted (points.headD [])).eng.rx = some (b, rx) ∧
        processByte invoke env b ((w.interrupted (points.headD [])).putEng
          { (w.interrupted (points.headD [])).eng with rx := rx }) = some v ∧
        drainRxIsr invoke env fuel points.tail v = some w' := by
  have hall : points.flatten = points.headD [] ++ points.tail.flatten := by
    cases points <;> rfl
  rw [drainRxIsr] at h
  dsimp only at h
  rcases hp : rxringPop (w.interrupted (points.headD [])).eng.rx with _ | ⟨b, rx⟩ <;> rw [hp] at h
  · refine .inl ⟨rfl, ?_⟩
    rw [hall, World.interrupted_append]
    exact (Option.some.inj h).symm
  · obtain ⟨v, hb, hv⟩ := Option.bind_eq_some_iff.mp h
    exact .inr ⟨b, rx, v, rfl, hb, hv⟩

end

/-! ## Transitions -/

section

variable {allowed : HookKind → ApiCall → Prop}
  {invoke : Invocation → World cfg σ → Option (World cfg σ)} {env : Env σ} {w w' : World cfg σ}

/-- Interrupts are transitions like any others. -/
theorem interrupted_steps (is : List Interrupt) : ∀ w : World cfg σ,
    Steps allowed ([], w) ([], w.interrupted is) := by
  induction is with
  | nil => exact fun w => .refl
  | cons i is ih =>
    intro w
    cases i with
    | feed data => exact .head (.feed [] w data) (ih _)
    | tick ms => exact .head (.tick [] w ms) (ih _)

/-- The loop with interrupts, by induction on its rounds. -/
theorem drainRxIsr_steps (hinv : InvokeSteps allowed invoke) {fuel : Nat} :
    ∀ {points : List (List Interrupt)} {w : World cfg σ},
      drainRxIsr invoke env fuel points w = some w' → Steps allowed ([], w) ([], w') := by
  induction fuel with
  | zero => intro points w h; cases h
  | succ fuel ih =>
    intro points w h
    obtain ⟨-, rfl⟩ | ⟨b, rx, v, hp, hb, hv⟩ := drainRxIsr_cases h
    · exact interrupted_steps _ w
    · exact (interrupted_steps _ w).trans
        (.head (.pop _ b rx hp) ((processByte_steps hinv hb).trans (ih hv)))

/-- **An interrupted call is a sequence of transitions.** -/
theorem atProcessIsr_steps (hinv : InvokeSteps allowed invoke) {fuel : Nat}
    {before : List (List Interrupt)} {between : List Interrupt}
    (h : atProcessIsr invoke env fuel before between w = some w') :
    Steps allowed ([], w) ([], w') := by
  obtain ⟨w₁, h₁, h⟩ := Option.bind_eq_some_iff.mp h
  obtain ⟨w₂, h₂, h₃⟩ := Option.bind_eq_some_iff.mp h
  exact (drainRxIsr_steps hinv h₁).trans ((checkTimeout_steps hinv h₂).trans
    ((interrupted_steps between w₂).trans (startIfIdle_steps hinv h₃)))

theorem Preempted.steps {P : Env σ → TopCall → Prop} {I : World cfg σ → List Interrupt → Prop}
    (hP : ∀ env call, P env call → env.Respects allowed) (h : Preempted P I w) :
    ∃ s, Steps allowed ([], ⟨atInit cfg, s, []⟩) ([], w) := by
  induction h with
  | init s => exact ⟨s, .refl⟩
  | step s _ hp hx ih =>
    obtain ⟨s₀, hs⟩ := ih
    exact ⟨s₀, hs.trans (.head (.app [] _ s) (exec_steps (hP _ _ hp) hx))⟩
  | process s _ hp _ hx ih =>
    obtain ⟨s₀, hs⟩ := ih
    exact ⟨s₀, hs.trans
      (.head (.app [] _ s) (atProcessIsr_steps (invoke_invokeSteps (hP _ _ hp) _) hx))⟩

/-- The bookkeeping of the queue goes on under interrupts. -/
theorem Preempted.lifecycle (hfit : cfg.Fits) {P : Env σ → TopCall → Prop}
    {I : World cfg σ → List Interrupt → Prop}
    (hP : ∀ env call, P env call → env.Respects NotCancelling) (h : Preempted P I w) :
    Lifecycle ([], w) := by
  obtain ⟨s, hs⟩ := h.steps hP
  exact hs.lifecycle hfit (hs.not_cancelled_of fun _ _ _ => NotCancelling.harmless)

end

/-! ## Disciplines -/

namespace Discipline

variable (D : Discipline cfg σ) {env : Env σ} {w w' : World cfg σ}
  {invoke invoke' : Invocation → World cfg σ → Option (World cfg σ)}

/-- Bytes and ticks are what a discipline has to put up with at any time, -/
theorem interrupted (is : List Interrupt) : ∀ {w : World cfg σ}, D.rest w →
    D.rest (w.interrupted is) := by
  induction is with
  | nil => exact fun {w} hw => hw
  | cons i is ih =>
    intro w hw
    cases i with
    | feed data => exact ih (D.rest_edit w _ hw (.feed w data))
    | tick ms => exact ih (D.rest_edit w _ hw (.tick w ms))

section

variable (hinv : Follow D.ok invoke invoke')

include hinv

/-- in particular between the rounds of the loop, -/
theorem drainRxIsr {fuel : Nat} : ∀ {points : List (List Interrupt)} {w : World cfg σ},
    D.rest w → drainRxIsr invoke env fuel points w = some w' → D.rest w' := by
  induction fuel with
  | zero => intro points w _ h; cases h
  | succ fuel ih =>
    intro points w hw h
    obtain ⟨-, rfl⟩ | ⟨b, rx, v, hp, hb, hv⟩ := drainRxIsr_cases h
    · exact D.interrupted _ hw
    · exact ih (D.processByte hinv (D.receive _ _ (D.interrupted _ hw) (.pop _ b rx hp)) hb).2 hv

/-- in front of the check of the countdown, -/
theorem checkTimeout (hw : D.rest w) (h : checkTimeout invoke w = some w') : D.rest w' := by
  rw [LibAt.checkTimeout] at h
  split at h
  · rename_i hs
    have hne : w.eng.state ≠ .idle := by rcases hs.1 with hs | hs <;> simp [hs]
    exact (D.engineFinalize hinv (D.cancel w _ hw hne (.inl rfl)) h).2.1
  · obtain rfl := Option.some.inj h
    exact hw

/-- and in front of the next command. -/
theorem startIfIdle (hw : D.rest w) (h : startIfIdle invoke env w = some w') : D.rest w' := by
  rw [LibAt.startIfIdle] at h
  split at h
  · rename_i hs
    exact (D.engineStartNext hinv hw hs.1 hs.2 h).2
  · obtain rfl := Option.some.inj h
    exact hw

end

/-- **The rule for interrupts.** What a discipline asserts holds in every run, whenever the
interrupts come. -/
theorem preempted {P : Env σ → TopCall → Prop} {I : World cfg σ → List Interrupt → Prop}
    (hP : ∀ env call, P env call → env.Respects NotCancelling)
    (hinit : ∀ s, D.rest ⟨atInit cfg, s, []⟩) (h : Preempted P I w) : D.rest w := by
  induction h with
  | init s => exact hinit s
  | step s _ hp hx ih => exact (D.exec (hP _ _ hp) (D.rest_edit _ _ ih (.app _ s)) hx).1
  | @process w w' env fuel before between s _ hp _ hx ih =>
    have hinv := invokeIf_follow (hP _ _ hp) D.ok fuel
    obtain ⟨w₁, h₁, hx⟩ := Option.bind_eq_some_iff.mp hx
    obtain ⟨w₂, h₂, h₃⟩ := Option.bind_eq_some_iff.mp hx
    have hw₂ := D.checkTimeout hinv (D.drainRxIsr hinv (D.rest_edit _ _ ih (.app _ s)) h₁) h₂
    exact D.startIfIdle hinv (D.interrupted between hw₂) h₃

end Discipline

/-- **Half-duplex under interrupts.** Bytes and ticks may come at any point of an
`at_process`: it stays true that one block is written for each command, in the order of
acceptance. -/
theorem half_duplex_preempted (hfit : cfg.Fits) {I : World cfg σ → List Interrupt → Prop}
    {w : World cfg σ} (h : Preempted (fun env _ => env.Respects NotCancelling) I w) :
    HalfDuplex w := by
  have horder := (h.lifecycle hfit fun _ _ henv => henv).accepted_eq
  obtain ⟨hqueue, cur, ⟨blocks, hblocks, hwire⟩, hstate⟩ :=
    (wireDiscipline (σ := σ) hfit).preempted (fun _ _ henv => henv) wireRest_init h
  refine ⟨horder, blocks, cur, hblocks, hwire, hstate.imp_right fun ⟨hs, hsent⟩ => ?_⟩
  obtain ⟨rest, hpend⟩ := Engine.pending_eq_cons (hqueue.active (by simp [hs]))
  exact ⟨hs, _, rest, hpend, hsent⟩

/-- The prompt comes while the loop is running, half of it after a tick that is too long for
the command, and `OK` only behind the check of the countdown. -/
theorem half_duplex_preempted_prompt : ∃ w w' : World Config.default Unit,
    rxringBytes w.eng.rx = ascii ">" ∧
      atProcessIsr (invoke plainEnv 16) plainEnv 16
        [[], [.feed (ascii "\r"), .tick 6000], [.feed (ascii " ")]] [.feed (ascii "OK\r\n")] w =
          some w' ∧
      (wire w'.log).map (fun | .write site _ _ => some site | _ => none) =
        [some .cmd, some .cr, some .body, some .ctrlZ] ∧
      HalfDuplex w' := by
  obtain ⟨w, hw, hp⟩ := Reachable.of_execAll (P := fun env _ => env.Respects NotCancelling)
    plainEnv 16 [.api (.send (some message)), .process, .api (.feed (ascii ">"))] ()
    (fun _ => plainEnv_respects _)
    (fun w : World Config.default Unit => decide (rxringBytes w.eng.rx = ascii ">") &&
      (atProcessIsr (invoke plainEnv 16) plainEnv 16
        [[], [.feed (ascii "\r"), .tick 6000], [.feed (ascii " ")]]
        [.feed (ascii "OK\r\n")] w).any fun w' : World Config.default Unit =>
          decide ((wire w'.log).map (fun | .write site _ _ => some site | _ => none) =
            [some .cmd, some .cr, some .body, some .ctrlZ]))
    (by decide +kernel)
  obtain ⟨hbytes, hp⟩ := Bool.and_eq_true_iff.mp hp
  obtain ⟨w', hx, hwire⟩ := (Option.any_eq_true _ _).mp hp
  have hpreempted : Preempted (fun env _ => env.Respects NotCancelling) (fun _ _ => True) w' :=
    .process w.app (hw.preempted _) (plainEnv_respects _) trivial hx
  exact ⟨w, w', of_decide_eq_true hbytes, hx, of_decide_eq_true hwire,
    half_duplex_preempted Config.default_fits hpreempted⟩

end LibAt
