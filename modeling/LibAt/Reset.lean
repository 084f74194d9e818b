import LibAt.Retries

/-!
# When `at_reset` returns

The drain loop of `at_reset` runs while the queue counter is positive, and the
callback it calls in each round may send again. Each round takes one command
off the queue and adds what the callback got accepted, so after `k` rounds the
counter is its first value plus the number of acceptances minus `k`
(`drainRounds_sends`). The loop ends exactly when the sends of the callbacks
can be paid from a finite allowance (`reset_returns_iff`): so it does when they
keep a budget (`reset_returns_of_budget`), and a callback that always sends its
command again keeps it going for ever (`reset_diverges`).
-/

namespace LibAt

variable {cfg : Config} {σ : Type} {env : Env σ}

/-! ## The drain loop -/

/-- Completion callbacks that react to an abort by sending. -/
def SendsOnAbort (env : Env σ) : Prop :=
  ∀ f r u s, r.status = .errAborted → (env.completion f r u s).Uses (SendsOnly .completion)

/-- `k` rounds of the drain loop of `at_reset`, fewer if the queue is empty
before. -/
def drainRounds (invoke : Invocation → World cfg σ → Option (World cfg σ)) :
    Nat → World cfg σ → Option (World cfg σ)
  | 0, w => some w
  | k + 1, w => if w.eng.qCount > 0 then (drainOne invoke w).bind (drainRounds invoke k) else some w

theorem abortActive_sends (hfit : cfg.Fits) (henv : SendsOnAbort env) {w : World cfg σ}
    (hw : w.eng.qCount < 256) :
    ∃ w', (∀ n, abortActive (invoke env (n + 1)) w = some w') ∧ w'.eng.qCount < 256 := by
  simp only [abortActive]
  split
  · obtain ⟨w', hw', -, hlt, -⟩ := engineFinalize_sends hfit _ 0 w henv
    exact ⟨w', hw', hlt⟩
  · exact ⟨w, fun _ => rfl, hw⟩

/-- **One round** takes a command off the queue and adds what the callback got
accepted. -/
theorem drainOne_sends (hfit : cfg.Fits) (henv : SendsOnAbort env) {w : World cfg σ}
    (h0 : 0 < w.eng.qCount) (hw : w.eng.qCount < 256) :
    ∃ w', (∀ n, drainOne (invoke env (n + 1)) w = some w') ∧ w'.eng.qCount < 256 ∧
      acceptedCount w ≤ acceptedCount w' ∧
      w'.eng.qCount + 1 + acceptedCount w = w.eng.qCount + acceptedCount w' := by
  obtain ⟨w₁, hs, hw₁⟩ := notify_sends hfit (w.eng.queue w.eng.qTail)
    abortedResponse (fun f s => henv f _ _ s rfl) w
  have hacc : acceptedCount ((w₁.putEng (drainNext w₁.eng)).emit
      (.completed (w.eng.queue w.eng.qTail))) = acceptedCount w₁ := by
    simp [acceptedCount, acceptances]
  have hcount := hs.count
  have hmono := hs.mono
  have hlt := hs.fits hw
  refine ⟨(w₁.putEng (drainNext w₁.eng)).emit (.completed (w.eng.queue w.eng.qTail)),
    fun n => Option.bind_eq_some_iff.mpr ⟨w₁, hw₁ n, rfl⟩, Nat.mod_lt _ (by decide), ?_, ?_⟩
  · rw [hacc]
    exact hmono
  · rw [hacc]
    change (w₁.eng.qCount + 255) % 256 + 1 + _ = _
    omega

/-- **`k` rounds.** Either the queue has run empty, or the counter is its first
value plus the acceptances minus `k`. -/
theorem drainRounds_sends (hfit : cfg.Fits) (henv : SendsOnAbort env) (k : Nat) :
    ∀ {w : World cfg σ}, w.eng.qCount < 256 →
      ∃ w', (∀ n, drainRounds (invoke env (n + 1)) k w = some w') ∧
        acceptedCount w ≤ acceptedCount w' ∧
        (w'.eng.qCount = 0 ∨
          w'.eng.qCount + k + acceptedCount w = w.eng.qCount + acceptedCount w') := by
  induction k with
  | zero => exact fun {w} _ => ⟨w, fun _ => rfl, Nat.le_refl _, .inr rfl⟩
  | succ k ih =>
    intro w hw
    by_cases h0 : 0 < w.eng.qCount
    · obtain ⟨w₁, hw₁, hlt, hmono₁, hcount₁⟩ := drainOne_sends hfit henv h0 hw
      obtain ⟨w₂, hw₂, hmono₂, hcount₂⟩ := ih hlt
      refine ⟨w₂, fun n => ?_, hmono₁.trans hmono₂, ?_⟩
      · rw [drainRounds, if_pos h0, hw₁ n, Option.bind_some, hw₂ n]
      · rcases hcount₂ with hcount₂ | hcount₂
        · exact .inl hcount₂
        · right
          omega
    · exact ⟨w, fun n => by rw [drainRounds, if_neg h0], Nat.le_refl _, .inl (by omega)⟩

/-- When the rounds empty the queue, the loop ends. -/
theorem drainQueue_of_rounds {inv : Invocation → World cfg σ → Option (World cfg σ)} (k : Nat) :
    ∀ {w w' : World cfg σ}, drainRounds inv k w = some w' → w'.eng.qCount = 0 →
      drainQueue inv (k + 1) w = some w' := by
  induction k with
  | zero =>
    intro w w' h h0
    obtain rfl := Option.some.inj h
    rw [drainQueue, if_neg (by omega)]
  | succ k ih =>
    intro w w' h h0
    rw [drainRounds] at h
    rw [drainQueue]
    split at h
    · rename_i hq
      obtain ⟨w₁, hw₁, h⟩ := Option.bind_eq_some_iff.mp h
      rw [if_pos hq, hw₁]
      exact ih h h0
    · rename_i hq
      rwa [if_neg hq]

/-- When the loop ends, no number of rounds gets more commands accepted than
it did. -/
theorem rounds_le_of_drainQueue (hfit : cfg.Fits) (henv : SendsOnAbort env) {n : Nat}
    (fuel : Nat) : ∀ {w w' : World cfg σ}, w.eng.qCount < 256 →
      drainQueue (invoke env (n + 1)) fuel w = some w' →
      ∀ {k w''}, drainRounds (invoke env 1) k w = some w'' →
        acceptedCount w'' ≤ acceptedCount w' := by
  induction fuel with
  | zero => intro w w' _ h; cases h
  | succ fuel ih =>
    intro w w' hw h k w'' hk
    rw [drainQueue] at h
    split at h
    · rename_i h0
      obtain ⟨w₁, hw₁, hlt, hmono₁, -⟩ := drainOne_sends hfit henv h0 hw
      rw [hw₁ n, Option.bind_some] at h
      cases k with
      | zero =>
        obtain rfl := Option.some.inj hk
        exact hmono₁.trans (ih hlt h (k := 0) rfl)
      | succ k =>
        rw [drainRounds, if_pos h0, hw₁ 0, Option.bind_some] at hk
        exact ih hlt h hk
    · rename_i h0
      obtain rfl := Option.some.inj h
      cases k with
      | zero =>
        obtain rfl := Option.some.inj hk
        exact Nat.le_refl _
      | succ k =>
        rw [drainRounds, if_neg h0] at hk
        obtain rfl := Option.some.inj hk
        exact Nat.le_refl _

/-! ## `at_reset` -/

/-- A transition keeps the queue counter in its eight bits. -/
theorem Transition.count_lt {allowed : HookKind → ApiCall → Prop} {s t : Snapshot cfg σ}
    (ht : Transition allowed s t) (h : s.2.eng.qCount < 256) : t.2.eng.qCount < 256 := by
  have hmod (n : Nat) : n % 256 < 256 := Nat.mod_lt _ (by decide)
  cases ht with
  | send st w d g hd =>
    obtain ⟨-, -, rfl⟩ := atSend_ok hd
    exact hmod _
  | tick st w ms =>
    obtain ⟨n, hn⟩ := atTick_eq ms w.eng
    rw [hn]
    exact h
  | register st w pre cb user r g hr =>
    obtain ⟨table, rfl⟩ := atRegisterUrc_eq hr
    exact h
  | deregister st w pre r g hr =>
    obtain ⟨table, rfl⟩ := atDeregisterUrc_eq hr
    exact h
  | byte w b g hb =>
    obtain ⟨line, lfsm, rfl⟩ := lfsmByte_eq hb
    exact h
  | promptAnswered w l env _ _ _ =>
    rw [answerPrompt_eng]
    exact h
  | accumulate w l _ _ _ _ _ =>
    obtain ⟨pool, response, heng⟩ := accumulate_eng l w
    rw [heng]
    exact h
  | transmit w env _ _ =>
    rw [transmit_eng]
    exact h
  | finalize | drainNotify =>
    rw [World.fire_eng]
    exact h
  | dequeue => exact hmod _
  | drainNext => exact hmod _
  | _ => exact h

theorem Reachable.count_lt {P : Env σ → TopCall → Prop} {w : World cfg σ} (h : Reachable P w) :
    w.eng.qCount < 256 := by
  obtain ⟨s, hs⟩ := h.steps_any
  exact hs.invariant (I := fun t => t.2.eng.qCount < 256) (fun _ _ ht ih => ht.count_lt ih)
    (Nat.zero_lt_succ _)

/-- With a bound on the acceptances `at_reset` returns. -/
theorem atReset_of_bound (hfit : cfg.Fits) (henv : SendsOnAbort env) {w : World cfg σ}
    (hw : w.eng.qCount < 256) (bound : Nat)
    (hbound : ∀ rounds w', (abortActive (invoke env 1) w).bind
      (drainRounds (invoke env 1) rounds) = some w' → acceptedCount w' ≤ bound) :
    ∃ fuel w', atReset (invoke env fuel) fuel w = some w' ∧ w'.eng.state = .idle ∧
      w'.eng.qCount = 0 := by
  obtain ⟨w₁, hw₁, hlt⟩ := abortActive_sends hfit henv hw
  -- more rounds than there can be commands
  obtain ⟨w₂, hw₂, -, hcount⟩ := drainRounds_sends hfit henv (w₁.eng.qCount + bound + 1) hlt
  have hle : acceptedCount w₂ ≤ bound :=
    hbound _ w₂ (by rw [hw₁ 0, Option.bind_some, hw₂ 0])
  have h0 : w₂.eng.qCount = 0 := by
    rcases hcount with h0 | hcount
    · exact h0
    · omega
  have hdrain := drainQueue_of_rounds _ (hw₂ (w₁.eng.qCount + bound + 1)) h0
  refine ⟨w₁.eng.qCount + bound + 1 + 1, w₂.putEng (resetState w₂.eng), ?_, rfl, h0⟩
  refine Option.bind_eq_some_iff.mpr ⟨w₁, hw₁ _, ?_⟩
  exact Option.bind_eq_some_iff.mpr ⟨w₂, hdrain, rfl⟩

/-- When `at_reset` returns there is a bound on the acceptances. -/
theorem bound_of_atReset (hfit : cfg.Fits) (henv : SendsOnAbort env) {w w' : World cfg σ}
    (hw : w.eng.qCount < 256) {fuel : Nat} (h : atReset (invoke env fuel) fuel w = some w') :
    ∃ bound, ∀ rounds w', (abortActive (invoke env 1) w).bind
      (drainRounds (invoke env 1) rounds) = some w' → acceptedCount w' ≤ bound := by
  obtain ⟨w₁, hw₁, hlt⟩ := abortActive_sends hfit henv hw
  obtain ⟨w₁', ha, h⟩ := Option.bind_eq_some_iff.mp h
  obtain ⟨w₂, hdrain, -⟩ := Option.bind_eq_some_iff.mp h
  cases fuel with
  | zero => cases hdrain
  | succ n =>
    obtain rfl := Option.some.inj ((hw₁ n).symm.trans ha)
    refine ⟨acceptedCount w₂, fun k w'' hk => ?_⟩
    rw [hw₁ 0, Option.bind_some] at hk
    exact rounds_le_of_drainQueue hfit henv (n + 1) hlt hdrain hk

/-! ## The callbacks and their backlog -/

/-- Aborting the active command, on the backlog. -/
theorem abortActive_backlog (henv : SendsOnAbort env) {n : Nat} {w w' : World cfg σ}
    (h : abortActive (invoke env (n + 1)) w = some w') :
    w'.backlog = w.aborted env ∧ (w'.eng.state = .idle ∨ w'.eng.qCount = 0) := by
  rw [abortActive] at h
  rw [World.aborted]
  by_cases hactive : w.eng.state ≠ .idle ∧ w.eng.qCount > 0
  · rw [if_pos hactive] at h ⊢
    obtain ⟨w₁, hn, hw⟩ := Option.bind_eq_some_iff.mp h
    obtain rfl := Option.some.inj hw
    obtain ⟨w₂, hn', hback, -, -⟩ := notify_told env
      (w := w.putEng (setResponse (finalResponse .errAborted 0 w.eng) w.eng))
      (fun f s => henv f (finalResponse .errAborted 0 w.eng) _ s rfl)
    obtain rfl : w₁ = w₂ := Option.some.inj (hn.symm.trans (hn' n))
    refine ⟨?_, .inl rfl⟩
    -- the slot is cleared, whatever the callback has left there
    have htarget : (fun i => (Function.update w₁.eng.queue w.eng.qTail (.zero cfg) i).toTarget) =
        Function.update w₁.backlog.target w.eng.qTail (none, 0) := by
      funext i
      by_cases hi : i = w.eng.qTail
      · subst hi
        rw [Function.update_self, Function.update_self]
        rfl
      · rw [Function.update_of_ne hi, Function.update_of_ne hi]
        rfl
    change (⟨fun i => (Function.update w₁.eng.queue w.eng.qTail (.zero cfg) i).toTarget,
      w₁.eng.qHead, nextSlot w₁.eng.qTail, (w₁.eng.qCount + 255) % 256, w₁.app⟩ :
        Backlog cfg σ) = _
    rw [htarget]
    change ({ w₁.backlog.drop with
      target := Function.update w₁.backlog.target w.eng.qTail (none, 0) } : Backlog cfg σ) = _
    rw [hback]
    rfl
  · rw [if_neg hactive] at h ⊢
    obtain rfl := Option.some.inj h
    refine ⟨rfl, ?_⟩
    by_cases hidle : w.eng.state = .idle
    · exact .inl hidle
    · exact .inr (Nat.eq_zero_of_not_pos fun h0 => hactive ⟨hidle, h0⟩)

/-- One round, on the backlog. -/
theorem drainOne_backlog (henv : SendsOnAbort env) {n : Nat} {w w' : World cfg σ}
    (hidle : w.eng.state = .idle) (h : drainOne (invoke env (n + 1)) w = some w') :
    w'.backlog = w.backlog.next env ∧ acceptedCount w' = acceptedCount w + w.backlog.sends env ∧
      w'.eng.state = .idle := by
  obtain ⟨w₁, hn, hw⟩ := Option.bind_eq_some_iff.mp h
  obtain rfl := Option.some.inj hw
  obtain ⟨w₂, hn', hback, hcount, hstate⟩ := notify_told env (w := w)
    (fun f s => henv f abortedResponse _ s rfl)
  obtain rfl : w₁ = w₂ := Option.some.inj (hn.symm.trans (hn' n))
  rw [hidle] at hback hcount hstate
  refine ⟨congrArg Backlog.drop hback, ?_, hstate⟩
  rw [Backlog.sends, ← hcount]
  simp [acceptedCount, acceptances]

/-- What the callbacks send in `k` rounds of the drain loop. -/
def Backlog.sent (env : Env σ) (k : Nat) (b : Backlog cfg σ) : Nat :=
  spent (fun b : Backlog cfg σ => 0 < b.count) (Backlog.next env) (Backlog.sends env) k b

/-- **What gets accepted in `k` rounds** is what the callbacks send. -/
theorem drainRounds_backlog (henv : SendsOnAbort env) {n : Nat} (k : Nat) :
    ∀ {w w' : World cfg σ}, (w.eng.state = .idle ∨ w.eng.qCount = 0) →
      drainRounds (invoke env (n + 1)) k w = some w' →
        acceptedCount w' = acceptedCount w + w.backlog.sent env k := by
  induction k with
  | zero =>
    intro w w' _ h
    obtain rfl := Option.some.inj h
    rfl
  | succ k ih =>
    intro w w' hidle h
    rw [drainRounds] at h
    rw [Backlog.sent, spent]
    by_cases h0 : 0 < w.eng.qCount
    · rw [if_pos h0] at h
      obtain ⟨w₁, hw₁, h⟩ := Option.bind_eq_some_iff.mp h
      obtain ⟨hback, hcount, hstate⟩ := drainOne_backlog henv (hidle.resolve_right (by omega)) hw₁
      have hrest := ih (.inl hstate) h
      rw [hback, Backlog.sent] at hrest
      rw [if_pos (show 0 < w.backlog.count from h0)]
      omega
    · rw [if_neg h0] at h
      obtain rfl := Option.some.inj h
      rw [if_neg (show ¬0 < w.backlog.count from h0)]
      rfl

/-- An allowance for the callbacks: whenever one is told of an abort, it covers what the
callback sends, and what is left is the allowance of the backlog behind it. -/
def PaysSends (env : Env σ) (allowance : Backlog cfg σ → ℕ∞) : Prop :=
  Pays (fun b : Backlog cfg σ => 0 < b.count) (Backlog.next env) (Backlog.sends env) allowance

/-- The acceptances of the rounds are bounded if and only if the sends are paid for. -/
theorem bound_iff_pays (hfit : cfg.Fits) (henv : SendsOnAbort env) {w : World cfg σ}
    (hw : w.eng.qCount < 256) :
    (∃ bound, ∀ rounds w', (abortActive (invoke env 1) w).bind
        (drainRounds (invoke env 1) rounds) = some w' → acceptedCount w' ≤ bound) ↔
      ∃ allowance, PaysSends env allowance ∧ allowance (w.aborted env) ≠ ⊤ := by
  obtain ⟨w₁, hw₁, hlt⟩ := abortActive_sends hfit henv hw
  obtain ⟨hback, hidle⟩ := abortActive_backlog henv (hw₁ 0)
  refine Iff.trans ?_ (bounded_iff_pays (w.aborted env))
  rw [hw₁ 0]
  simp only [Option.bind_some]
  constructor
  · rintro ⟨bound, hbound⟩
    refine ⟨bound, fun k => ?_⟩
    obtain ⟨w₂, hw₂, -⟩ := drainRounds_sends hfit henv k hlt
    have hcount := drainRounds_backlog henv k hidle (hw₂ 0)
    have hle := hbound k w₂ (hw₂ 0)
    rw [hback, Backlog.sent] at hcount
    omega
  · rintro ⟨bound, hbound⟩
    refine ⟨acceptedCount w₁ + bound, fun k w₂ hw₂ => ?_⟩
    have hcount := drainRounds_backlog henv k hidle hw₂
    have hle := hbound k
    rw [hback, Backlog.sent] at hcount
    omega

/-- **When `at_reset` returns.** With callbacks that react to an abort by
sending, `at_reset` returns, idle and with an empty queue, if and only if what
they send when they are told of an abort can be paid from an allowance that is
finite when the drain loop begins. -/
theorem reset_returns_iff (hfit : cfg.Fits) (henv : SendsOnAbort env) {w : World cfg σ}
    (h : Reachable (fun _ _ => True) w) :
    (∃ fuel r w', exec env fuel (.api .reset) w = some (r, w') ∧ w'.eng.state = .idle ∧
      w'.eng.qCount = 0) ↔
    ∃ allowance, PaysSends env allowance ∧ allowance (w.aborted env) ≠ ⊤ := by
  refine Iff.trans ?_ (bound_iff_pays hfit henv h.count_lt)
  constructor
  · rintro ⟨fuel, r, w', hx, -, -⟩
    obtain ⟨_, hreset, -⟩ := Option.map_eq_some_iff.mp hx
    exact bound_of_atReset hfit henv h.count_lt hreset
  · rintro ⟨bound, hbound⟩
    obtain ⟨fuel, w', hreset, hend⟩ := atReset_of_bound hfit henv h.count_lt bound hbound
    exact ⟨fuel, .unit, w', Option.map_eq_some_iff.mpr ⟨w', hreset, rfl⟩, hend⟩

theorem reset_returns_iff_resend : ∃ w : World Config.default Bool, w.eng.qCount = 1 ∧
    ((∃ fuel r w', exec resendEnv fuel (.api .reset) w = some (r, w') ∧ w'.eng.state = .idle ∧
      w'.eng.qCount = 0) ↔
    ∃ allowance, PaysSends resendEnv allowance ∧ allowance (w.aborted resendEnv) ≠ ⊤) := by
  obtain ⟨w, hw, hp⟩ := Reachable.of_execAll (P := fun _ _ => True) resendEnv 1
    [.api (.send (some probe))] false (fun _ => trivial)
    (fun w : World Config.default Bool => decide (w.eng.qCount = 1)) (by decide +kernel)
  exact ⟨w, of_decide_eq_true hp, reset_returns_iff Config.default_fits
    (fun f r u s _ => resendEnv_sendsOnly (.completion f r u) s) hw⟩

/-- **Callbacks that keep a budget.** With a finite allowance `at_reset` returns from
every state; for instance when the application counts its retries down, so that no
callback told of an abort sends more commands than it takes off the budget. -/
theorem reset_returns_of_budget (hfit : cfg.Fits) (henv : SendsOnAbort env) (budget : σ → Nat)
    (hbudget : ∀ f u (b : Backlog cfg σ),
      (b.react .idle (env.completion f abortedResponse u b.app)).2 +
        budget (b.react .idle (env.completion f abortedResponse u b.app)).1.app ≤ budget b.app)
    {w : World cfg σ} (hw : w.eng.qCount < 256) :
    ∃ fuel w', atReset (invoke env fuel) fuel w = some w' ∧ w'.eng.state = .idle ∧
      w'.eng.qCount = 0 := by
  have hpays : PaysSends env fun b : Backlog cfg σ => (budget b.app : ℕ∞) := by
    intro b _
    dsimp only
    rw [← Nat.cast_add, Nat.cast_le, Backlog.sends, Backlog.next, Backlog.tell]
    split
    · exact Nat.le_of_eq (Nat.zero_add _)
    · exact hbudget _ _ b
  obtain ⟨bound, hbound⟩ := (bound_iff_pays hfit henv hw).mpr
    ⟨_, hpays, ENat.natCast_ne_top _⟩
  exact atReset_of_bound hfit henv hw bound hbound

/-! ## Callbacks that do not send -/

/-- Calls that only look at the engine. -/
def LooksOnly : ApiCall → Prop
  | .state | .queueDepth => True
  | _ => False

/-- Completion callbacks that send nothing when told of an abort. -/
def SilentOnAbort (env : Env σ) : Prop :=
  ∀ f r u s, r.status = .errAborted → (env.completion f r u s).Uses LooksOnly

theorem SilentOnAbort.sends (henv : SilentOnAbort env) : SendsOnAbort env := by
  intro f r u s hr
  refine (henv f r u s hr).mono fun c hc => ?_
  match c, hc with
  | .state, _ => trivial
  | .queueDepth, _ => trivial

/-- A silent callback sends nothing. -/
theorem react_looks (st : AtState) {p : Hook σ} (hp : p.Uses LooksOnly) :
    ∀ b : Backlog cfg σ, (b.react st p).2 = 0 := by
  induction p with
  | ret s => exact fun _ => rfl
  | call c s k ih =>
    intro b
    match c, hp with
    | .state, hp | .queueDepth, hp =>
      rw [Backlog.react]
      exact ih _ _ (hp.2 _ _) _

/-- With silent callbacks `at_reset` returns: they need no budget. -/
theorem atReset_returns (hfit : cfg.Fits) (henv : SilentOnAbort env) {w : World cfg σ}
    (hw : w.eng.qCount < 256) : ∃ fuel w', atReset (invoke env fuel) fuel w = some w' := by
  obtain ⟨fuel, w', h, -⟩ := reset_returns_of_budget hfit henv.sends (fun _ => 0)
    (fun f u b => by rw [react_looks .idle (henv f _ u b.app rfl) b]) hw
  exact ⟨fuel, w', h⟩

/-! ## A callback that retries for ever -/

/-- The callback sends its command again every time it is called. -/
def retryEnv : Env Unit where
  write s data := (data.length, s)
  completion _ _ _ s := .call (.send (some probe)) s fun _ s => .ret s
  handler _ _ _ s := .ret s

/-- One command is queued, and it has a callback. -/
def Retrying (g : Engine Config.default) : Prop :=
  g.qCount = 1 ∧ g.qHead = nextSlot g.qTail ∧ (g.queue g.qTail).cb = some 1

instance (g : Engine Config.default) : Decidable (Retrying g) :=
  inferInstanceAs (Decidable (_ ∧ _))

/-- Each round of the drain loop leaves the queue with the command its
callback sent. -/
theorem drainOne_retry {n : Nat} {w w' : World Config.default Unit} (h : Retrying w.eng)
    (hd : drainOne (invoke retryEnv n) w = some w') : Retrying w'.eng := by
  obtain ⟨hcount, hhead, hcb⟩ := h
  obtain ⟨w₁, hn, hw⟩ := Option.bind_eq_some_iff.mp hd
  obtain rfl := Option.some.inj hw
  rw [notify, hcb] at hn
  cases n with
  | zero => cases hn
  | succ n =>
    have hcmd : cstr (ascii "AT") ≠ [] := by decide
    have hroom : ¬(Config.default.cmdQueueDepth ≤ 1) := by decide
    simp only [invoke, Env.hook, retryEnv, Interaction.run, apiCall, World.send, atSend, probe,
      Option.getD_some, hcmd, if_false, World.emit_eng, World.putApp_eng, hcount, ge_iff_le, hroom,
      Option.bind_some, Option.some.injEq] at hn
    subst hn
    simp [Retrying, hhead, cmdEntryOf]

/-- One command is queued, its callback retries, and `at_reset` never
returns. -/
theorem reset_diverges : ∃ w : World Config.default Unit,
    Reachable (fun _ _ => True) w ∧ SendsOnAbort retryEnv ∧
      ∀ fuel, exec retryEnv fuel (.api .reset) w = none := by
  obtain ⟨w, hw, hp⟩ := Reachable.of_execAll (P := fun _ _ => True) retryEnv 1
    [.api (.send (some probe))] () (fun _ => trivial)
    (fun w => decide (w.eng.state = .idle ∧ Retrying w.eng)) (by decide +kernel)
  obtain ⟨hidle, hretry⟩ := of_decide_eq_true hp
  refine ⟨w, hw, fun _ _ _ _ _ => ⟨trivial, fun _ _ => trivial⟩, fun fuel => ?_⟩
  have hloop (n k : Nat) : ∀ w : World Config.default Unit, Retrying w.eng →
      drainQueue (invoke retryEnv n) k w = none := by
    induction k with
    | zero => exact fun _ _ => rfl
    | succ k ih =>
      intro w h
      rw [drainQueue, if_pos (by rw [h.1]; decide)]
      cases hd : drainOne (invoke retryEnv n) w with
      | none => rfl
      | some w' => exact ih w' (drainOne_retry h hd)
  simp [exec, apiCall, atReset, abortActive, hidle, hloop fuel fuel w hretry]

end LibAt
