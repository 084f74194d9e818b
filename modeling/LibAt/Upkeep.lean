import LibAt.ExecSteps

/-!
# Relations that every piece of code keeps

`Steps.invariant` is the rule for what holds of every reachable world.
`Upkeep` is the rule for what a call does: a relation between the world before
and the world after, kept by each thing that code outside the drain loop can
do, holds across completions, hooks, `at_abort` and `at_reset`, however deep
they nest. `Handling` adds the dispatch of a line, which stands in a relation
of its own to the line, and with it come the pieces of `at_process`.

Nothing is asked of the hooks beyond which API functions they call.
-/

namespace LibAt

variable {cfg : Config} {σ : Type} {allowed : HookKind → ApiCall → Prop}

/-- A relation that everything outside the drain loop keeps, if hooks make only
the `allowed` calls. -/
structure Upkeep (allowed : HookKind → ApiCall → Prop)
    (R : World cfg σ → World cfg σ → Prop) : Prop where
  refl : ∀ w, R w w
  trans : ∀ {u v w}, R u v → R v w → R u w
  app : ∀ w s, R w (w.putApp s)
  nested : ∀ w k c, allowed k c → (∀ data, c ≠ .feed data) →
    R w (w.emit (.nested k c w.eng.state))
  feed : ∀ w k data, allowed k (.feed data) →
    R w ((w.emit (.nested k (.feed data) w.eng.state)).putEng (atFeed data w.eng))
  send : ∀ w d g, atSend (some d) w.eng = (.ok, g) → R w ((w.putEng g).emit (.accepted d))
  tick : ∀ w n, n ≤ w.eng.timerMs → R w (w.putEng { w.eng with timerMs := n })
  table : ∀ w t, R w (w.putEng { w.eng with urcTable := t })
  finalize : ∀ w s c, R w
    ((w.putEng (setResponse (finalResponse s c w.eng) w.eng)).fire (w.eng.queue w.eng.qTail)
      (finalResponse s c w.eng))
  dequeue : ∀ w i e, R w ((w.putEng (dequeue i w.eng)).emit (.completed e))
  drainNotify : ∀ w e, R w (w.fire e abortedResponse)
  drainNext : ∀ w e, R w ((w.putEng (drainNext w.eng)).emit (.completed e))
  reset : (∃ k, allowed k .reset) → ∀ w, R w (w.putEng (resetState w.eng))

/-- Foreign code keeps a relation. -/
def InvokeKeeps (R : World cfg σ → World cfg σ → Prop)
    (invoke : Invocation → World cfg σ → Option (World cfg σ)) : Prop :=
  ∀ inv w w', invoke inv w = some w' → R w w'

variable {invoke : Invocation → World cfg σ → Option (World cfg σ)} {env : Env σ}
  {w w' : World cfg σ}

namespace Upkeep

variable {R : World cfg σ → World cfg σ → Prop} (K : Upkeep allowed R)

include K

section

variable (hinv : InvokeKeeps R invoke)

include hinv

/-! ## Completion -/

/-- A callback is called, and does what hooks do. -/
theorem notify {e : CmdEntry cfg} {r : Response} (h : notify invoke e r w = some w') :
    R (w.fire e r) w' := by
  rw [LibAt.notify] at h
  rw [World.fire]
  cases hcb : e.cb with
  | none =>
    rw [hcb] at h
    obtain rfl := Option.some.inj h
    exact K.refl w
  | some f =>
    rw [hcb] at h
    exact hinv _ _ _ h

/-- Completion, and what comes of it: an abort, -/
theorem engineFinalize {s : AtResult} {c : Int} (h : engineFinalize invoke s c w = some w') :
    R w w' := by
  obtain ⟨w₁, hn, hret⟩ := Option.bind_eq_some_iff.mp h
  obtain rfl := Option.some.inj hret
  have hfired : R _ w₁ := K.notify hinv hn
  exact K.trans (K.finalize w s c) (K.trans hfired (K.dequeue w₁ _ _))

/-- in the state in which it does something, -/
theorem atAbort (h : atAbort invoke w = some w') : R w w' := by
  rw [LibAt.atAbort] at h
  split at h
  · exact K.engineFinalize hinv h
  · obtain rfl := Option.some.inj h
    exact K.refl w

/-- the drain loop, by induction on its rounds, -/
theorem drainQueue {fuel : Nat} : ∀ {w : World cfg σ}, drainQueue invoke fuel w = some w' →
    R w w' := by
  induction fuel with
  | zero => intro w h; cases h
  | succ fuel ih =>
    intro w h
    rw [LibAt.drainQueue] at h
    split at h
    · obtain ⟨w₁, hd, h⟩ := Option.bind_eq_some_iff.mp h
      obtain ⟨w₂, hn, hret⟩ := Option.bind_eq_some_iff.mp hd
      obtain rfl := Option.some.inj hret
      have hfired : R _ w₂ := K.notify hinv hn
      exact K.trans (K.trans (K.drainNotify w _) hfired) (K.trans (K.drainNext w₂ _) (ih h))
    · obtain rfl := Option.some.inj h
      exact K.refl w

/-- and a reset. -/
theorem atReset (hreset : ∃ k, allowed k .reset) {fuel : Nat}
    (h : atReset invoke fuel w = some w') : R w w' := by
  obtain ⟨w₁, h₁, h⟩ := Option.bind_eq_some_iff.mp h
  obtain ⟨w₂, h₂, hret⟩ := Option.bind_eq_some_iff.mp h
  obtain rfl := Option.some.inj hret
  have habort : R w w₁ := by
    rw [abortActive] at h₁
    split at h₁
    · exact K.engineFinalize hinv h₁
    · obtain rfl := Option.some.inj h₁
      exact K.refl w
  exact K.trans habort (K.trans (K.drainQueue hinv h₂) (K.reset hreset w₂))

/-! ## API calls -/

/-- An API call that feeds nothing, from the application or, with its mark in the
log, from a hook. -/
theorem apiCall {c : ApiCall} (hfeed : ∀ data, c ≠ .feed data)
    (hreset : c = .reset → ∃ k, allowed k .reset) {fuel : Nat} {r : ApiRet}
    (h : apiCall invoke fuel c w = some (r, w')) : R w w' := by
  cases c with
  | send desc =>
    obtain rfl : (w.send desc).2 = w' := congrArg Prod.snd (Option.some.inj h)
    rcases w.send_cases desc with hw | ⟨d, g, hd, hw⟩ <;> rw [hw]
    · exact K.refl w
    · exact K.send w d g hd
  | abort =>
    obtain ⟨w₁, h₁, hret⟩ := Option.map_eq_some_iff.mp h
    obtain ⟨-, rfl⟩ := Prod.mk.inj hret
    exact K.atAbort hinv h₁
  | reset =>
    obtain ⟨w₁, h₁, hret⟩ := Option.map_eq_some_iff.mp h
    obtain ⟨-, rfl⟩ := Prod.mk.inj hret
    exact K.atReset hinv (hreset rfl) h₁
  | feed data => exact absurd rfl (hfeed data)
  | tick ms =>
    obtain ⟨-, rfl⟩ := Prod.mk.inj (Option.some.inj h)
    have hle := atTick_le ms w.eng
    obtain ⟨n, hn⟩ := atTick_eq ms w.eng
    rw [hn] at hle ⊢
    exact K.tick w n hle
  | registerUrc pre cb user =>
    obtain ⟨⟨r', g⟩, h₁, hret⟩ := Option.map_eq_some_iff.mp h
    obtain ⟨-, rfl⟩ := Prod.mk.inj hret
    obtain ⟨table, rfl⟩ := atRegisterUrc_eq h₁
    exact K.table w table
  | deregisterUrc pre =>
    obtain ⟨⟨r', g⟩, h₁, hret⟩ := Option.map_eq_some_iff.mp h
    obtain ⟨-, rfl⟩ := Prod.mk.inj hret
    obtain ⟨table, rfl⟩ := atDeregisterUrc_eq h₁
    exact K.table w table
  | state | queueDepth =>
    obtain ⟨-, rfl⟩ := Prod.mk.inj (Option.some.inj h)
    exact K.refl w

/-- An API call of a hook. -/
theorem nestedCall {k : HookKind} {c : ApiCall} (hc : allowed k c) {fuel : Nat} {r : ApiRet}
    (h : LibAt.apiCall invoke fuel c (w.emit (.nested k c w.eng.state)) = some (r, w')) :
    R w w' := by
  by_cases hfeed : ∃ data, c = .feed data
  · obtain ⟨data, rfl⟩ := hfeed
    obtain ⟨-, rfl⟩ := Prod.mk.inj (Option.some.inj h)
    exact K.feed w k data hc
  · have hno (data : List UInt8) : c ≠ .feed data := fun he => hfeed ⟨data, he⟩
    exact K.trans (K.nested w k c hc hno) (K.apiCall hinv hno (fun he => ⟨k, he ▸ hc⟩) h)

/-- Behind the drain loop, for a relation that a transmission keeps as well. -/
theorem afterDrain (htx : ∀ (env : Env σ) w, R w (transmit env w).2)
    (h : (checkTimeout invoke w).bind (startIfIdle invoke env) = some w') : R w w' := by
  obtain ⟨w₁, h₁, h₂⟩ := Option.bind_eq_some_iff.mp h
  have htimeout : R w w₁ := by
    rw [checkTimeout] at h₁
    split at h₁
    · exact K.engineFinalize hinv h₁
    · obtain rfl := Option.some.inj h₁
      exact K.refl w
  refine K.trans htimeout ?_
  rw [startIfIdle] at h₂
  split at h₂
  · have hsent := htx env w₁
    rw [engineStartNext] at h₂
    rcases ht : transmit env w₁ with ⟨_ | _, w₂⟩ <;> rw [ht] at h₂ hsent
    · exact K.trans hsent (K.engineFinalize hinv h₂)
    · obtain rfl := Option.some.inj h₂
      exact hsent
  · obtain rfl := Option.some.inj h₂
    exact K.refl w₁

end

/-- **Hooks keep the relation**, however deep they nest. -/
theorem hooks (henv : env.Respects allowed) (n : Nat) :
    InvokeKeeps R (LibAt.invoke env n) := by
  induction n with
  | zero => intro inv w w' h; cases h
  | succ n ih =>
    intro inv w w' h
    refine Interaction.run_invariant (I := fun v => R w v) (fun s v hv => ?_)
      (fun c v a v' hc hcall hv => ?_) (henv inv w.app) h (K.refl w)
    · exact K.trans hv (K.app v s)
    · exact K.trans hv (K.nestedCall ih hc hcall)

end Upkeep

/-! ## Lines and `at_process` -/

/-- The dispatch of a line `l` stands in the relation `L l`; with what else
`at_process` does. -/
structure Handling (allowed : HookKind → ApiCall → Prop) (R : World cfg σ → World cfg σ → Prop)
    (L : List UInt8 → World cfg σ → World cfg σ → Prop) : Prop extends Upkeep allowed R where
  line_trans : ∀ {l u v w}, L l u v → R v w → L l u w
  empty : ∀ w, L [] w w
  echo : ∀ w l, l ≠ [] →
    L l w ((w.putEng { w.eng with echoArmed := false }).emit (.line .echo l))
  ignored : ∀ w l, l ≠ [] → L l w (w.emit (.line (.prompt false) l))
  answered : ∀ (env : Env σ) w l, l ≠ [] →
    L l w (answerPrompt env (w.eng.queue w.eng.qTail) (w.emit (.line (.prompt true) l))).2
  final : ∀ w l, l ≠ [] → L l w (w.emit (.line .final l))
  urc : ∀ w l i, l ≠ [] → L l w
    ((w.emit (.line .urc l)).emit (.urc (w.eng.urcTable i).cb (w.eng.urcTable i).user l))
  other : ∀ w l, l ≠ [] → L l w (accumulate l w)
  transmit : ∀ (env : Env σ) w, R w (transmit env w).2

namespace Handling

variable {R : World cfg σ → World cfg σ → Prop}
  {L : List UInt8 → World cfg σ → World cfg σ → Prop} (H : Handling allowed R L)
  (hinv : InvokeKeeps R invoke)

include H hinv

/-- A line goes to a handler, or into the pool. -/
theorem urcDispatch {l : List UInt8} (hne : l ≠ [])
    (h : (urcDispatch invoke l w).map (fun r => if r.1 then r.2 else accumulate l r.2) = some w') :
    L l w w' := by
  obtain ⟨⟨taken, w₁⟩, hu, rfl⟩ := Option.map_eq_some_iff.mp h
  obtain ⟨m, -, hu⟩ := Option.bind_eq_some_iff.mp hu
  cases m with
  | none =>
    obtain ⟨rfl, rfl⟩ := Prod.mk.inj (Option.some.inj hu)
    exact H.other w l hne
  | some i =>
    obtain ⟨w₂, hi, hret⟩ := Option.bind_eq_some_iff.mp hu
    obtain ⟨rfl, rfl⟩ := Prod.mk.inj (Option.some.inj hret)
    exact H.line_trans (H.urc w l i hne) (hinv _ _ _ hi)

/-- **A line.** -/
theorem engineDispatchLine {l : List UInt8} (h : engineDispatchLine invoke env l w = some w') :
    L l w w' := by
  rw [LibAt.engineDispatchLine] at h
  by_cases h0 : l.length = 0
  · rw [if_pos h0] at h
    obtain rfl := Option.some.inj h
    obtain rfl := List.length_eq_zero_iff.mp h0
    exact H.empty w
  have hne : l ≠ [] := fun he => h0 (List.length_eq_zero_iff.mpr he)
  rw [if_neg h0] at h
  split at h
  · obtain rfl := Option.some.inj h
    exact H.echo w l hne
  · split at h
    · dsimp only at h
      split at h
      · have hsent := H.answered env w l hne
        rcases ha : answerPrompt env (w.eng.queue w.eng.qTail)
            (w.emit (.line (.prompt true) l)) with ⟨_ | _, w₁⟩ <;> rw [ha] at h hsent
        · exact H.line_trans hsent (H.engineFinalize hinv h)
        · obtain rfl := Option.some.inj h
          exact hsent
      · obtain rfl := Option.some.inj h
        exact H.ignored w l hne
    · cases hfin : if w.eng.state = .waiting then engineIsFinal l else none with
      | some r =>
        rw [hfin] at h
        exact H.line_trans (H.final w l hne) (H.engineFinalize hinv h)
      | none =>
        rw [hfin] at h
        exact H.urcDispatch hinv hne h

/-- Behind the drain loop. -/
theorem afterDrain
    (h : (checkTimeout invoke w).bind (startIfIdle invoke env) = some w') : R w w' :=
  H.toUpkeep.afterDrain hinv H.transmit h

end Handling

/-! ## Relations between the worlds around `at_process` -/

section

variable {R : World cfg σ → World cfg σ → Prop} (H : Handling allowed R fun _ => R)
  (hinv : InvokeKeeps R invoke)
  (hrx : ∀ (w : World cfg σ) rx, R w (w.putEng { w.eng with rx := rx }))
  (hfsm : ∀ (w : World cfg σ) line lfsm, R w (w.putEng { w.eng with line := line, lfsm := lfsm }))

include H hinv hfsm in
theorem Handling.processByte {b : UInt8} (h : processByte invoke env b w = some w') : R w w' := by
  rw [LibAt.processByte] at h
  cases hb : lfsmByte b w.eng with
  | more g =>
    rw [hb] at h
    obtain rfl := Option.some.inj h
    obtain ⟨line, lfsm, rfl⟩ := lfsmByte_eq hb
    exact hfsm w line lfsm
  | line l =>
    rw [hb] at h
    obtain ⟨w₁, h₁, rfl⟩ := Option.map_eq_some_iff.mp h
    exact H.trans (H.engineDispatchLine hinv h₁) (hfsm w₁ [] .start)

include H hinv hrx hfsm in
theorem Handling.drainRx {fuel : Nat} : ∀ {w : World cfg σ}, drainRx invoke env fuel w = some w' →
    R w w' := by
  induction fuel with
  | zero =>
    intro w h
    cases h
  | succ fuel ih =>
    intro w h
    rw [LibAt.drainRx] at h
    rcases hp : rxringPop w.eng.rx with _ | ⟨b, rx⟩ <;> rw [hp] at h
    · obtain rfl := Option.some.inj h
      exact H.refl w
    · obtain ⟨w₁, h₁, h⟩ := Option.bind_eq_some_iff.mp h
      exact H.trans (hrx w rx) (H.trans (H.processByte hinv hfsm h₁) (ih h))

include H hinv hrx hfsm in
/-- **An `at_process`**, if the relation also holds across a byte that is taken and one
that only moves the FSM. -/
theorem Handling.atProcess {fuel : Nat} (h : atProcess invoke env fuel w = some w') : R w w' := by
  obtain ⟨w₁, h₁, h₂⟩ := Option.bind_eq_some_iff.mp h
  exact H.trans (H.drainRx hinv hrx hfsm h₁) (H.afterDrain hinv h₂)

end

end LibAt
