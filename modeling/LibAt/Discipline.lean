import LibAt.Lifecycle

/-!
# Invariants by control flow

`Transition` says what the pieces of the engine do, but not which piece comes
next: that a failed write is followed by the completion with `AT_ERR_IO`, or
that an API call ends with the engine at rest, needs the order of the calls in
the source. `Discipline` is a set of assertions for the places where control
can be — at rest, about to complete, inside a callback — with one obligation
for each way from one place to the next, and `Discipline.exec` is the rule: the
assertions hold wherever control gets, if hooks do not cancel commands.

The rule also says what foreign code finds. `execIf ok` is `exec`, stopped when
a hook is called or a byte is taken from the ring while the engine does not
satisfy `ok`; that a call has the same result says that the engine always did.
-/

namespace LibAt

variable {cfg : Config} {σ : Type}

/-! ## Hooks that do not cancel -/

/-- Hooks that do not call `at_abort` or `at_reset`. -/
def NotCancelling (_ : HookKind) (c : ApiCall) : Prop := c ≠ .abort ∧ c ≠ .reset

theorem NotCancelling.harmless {k : HookKind} {c : ApiCall} {st : AtState}
    (h : NotCancelling k c) : ¬Harmful (Event.nested k c st : Event cfg) := by
  intro hharm
  match k, c, hharm with
  | .completion, .reset, _ => exact h.2 rfl
  | .completion, .abort, _ => exact h.1 rfl

/-- A run in which hooks cancel nothing has no cancellation in its log. -/
theorem Reachable.notCancelled {P : Env σ → TopCall → Prop}
    (hP : ∀ env call, P env call → env.Respects NotCancelling) {w : World cfg σ}
    (h : Reachable P w) : ¬Cancelled w.log :=
  h.not_cancelled_of (fun _ _ _ => NotCancelling.harmless) hP

/-- One thing such a hook can do. -/
inductive Edit : World cfg σ → World cfg σ → Prop
  | app (w s) : Edit w (w.putApp s)
  | nested (w k c) : Edit w (w.emit (.nested k c w.eng.state))
  | send (w d g) : atSend (some d) w.eng = (.ok, g) →
      Edit w ((w.putEng g).emit (.accepted d))
  | feed (w data) : Edit w (w.putEng (atFeed data w.eng))
  | tick (w ms) : Edit w (w.putEng (atTick ms w.eng))
  | register (w pre cb user r g) : atRegisterUrc pre cb user w.eng = some (r, g) →
      Edit w (w.putEng g)
  | deregister (w pre r g) : atDeregisterUrc pre w.eng = some (r, g) → Edit w (w.putEng g)

/-- What such a hook leaves alone: the state, and the oldest command where it
stands. -/
structure Undisturbed (g g' : Engine cfg) : Prop where
  state : g'.state = g.state
  qTail : g'.qTail = g.qTail
  count_le : g.qCount ≤ g'.qCount
  oldest : 0 < g.qCount → g'.queue g.qTail = g.queue g.qTail

/-- What changes nothing in the queue does not disturb it. -/
theorem Undisturbed.of_sameQueue {g g' : Engine cfg} (hq : SameQueue g g')
    (hs : g'.state = g.state) : Undisturbed g g' :=
  ⟨hs, hq.qTail, Nat.le_of_eq hq.qCount.symm, fun _ => by rw [hq.queue]⟩

/-- **A hook** that cancels nothing keeps the queue in order, and its oldest command. -/
theorem Edit.queue (hfit : cfg.Fits) {w w' : World cfg σ} (h : QueueOk w.eng) (he : Edit w w') :
    QueueOk w'.eng ∧ Undisturbed w.eng w'.eng := by
  have hsame {g : Engine cfg} (hq : SameQueue w.eng g) (hs : g.state = w.eng.state) :
      QueueOk g ∧ Undisturbed w.eng g :=
    ⟨h.congr hq (hs ▸ h.active), .of_sameQueue hq hs⟩
  cases he with
  | app | nested | feed => exact hsame ⟨rfl, rfl, rfl, rfl⟩ rfl
  | send d g hd =>
    refine ⟨h.send hfit hd, ?_⟩
    have hdepth := hfit.depth
    obtain ⟨-, hlt, rfl⟩ := atSend_ok hd
    refine ⟨rfl, rfl, ?_, fun h0 => Function.update_of_ne (tail_ne_head h hlt h0) _ _⟩
    change w.eng.qCount ≤ (w.eng.qCount + 1) % 256
    omega
  | tick ms =>
    obtain ⟨n, hn⟩ := atTick_eq ms w.eng
    rw [hn]
    exact hsame ⟨rfl, rfl, rfl, rfl⟩ rfl
  | register pre cb user r g hr =>
    obtain ⟨table, rfl⟩ := atRegisterUrc_eq hr
    exact hsame ⟨rfl, rfl, rfl, rfl⟩ rfl
  | deregister pre r g hr =>
    obtain ⟨table, rfl⟩ := atDeregisterUrc_eq hr
    exact hsame ⟨rfl, rfl, rfl, rfl⟩ rfl

/-- What such a hook can do. -/
abbrev Edits : World cfg σ → World cfg σ → Prop := Relation.ReflTransGen Edit

/-- What every change keeps, all of them keep. -/
theorem Edits.invariant {I : World cfg σ → Prop} (hI : ∀ w w', I w → Edit w w' → I w')
    {w w' : World cfg σ} (h : Edits w w') (hw : I w) : I w' := by
  induction h with
  | refl => exact hw
  | tail _ hstep ih => exact hI _ _ ih hstep

theorem World.send_edits (desc : Option CmdDesc) (w : World cfg σ) : Edits w (w.send desc).2 := by
  rcases w.send_cases desc with hw | ⟨d, g, hd, hw⟩
  · rw [hw]
  · rw [hw]
    exact .single (.send w d g hd)

/-- An API call that cancels nothing is a sequence of edits, whatever foreign
code does. -/
theorem apiCall_edits (k : HookKind) {c : ApiCall} (hc : NotCancelling k c)
    {invoke : Invocation → World cfg σ → Option (World cfg σ)} {fuel : Nat} {w w' : World cfg σ}
    {r : ApiRet} (h : apiCall invoke fuel c w = some (r, w')) :
    Edits w w' ∧ ∀ invoke', apiCall invoke' fuel c w = some (r, w') := by
  cases c with
  | send desc =>
    refine ⟨?_, fun _ => h⟩
    obtain ⟨-, rfl⟩ := Prod.mk.inj (Option.some.inj h)
    exact w.send_edits desc
  | abort => exact absurd rfl hc.1
  | reset => exact absurd rfl hc.2
  | feed data =>
    refine ⟨?_, fun _ => h⟩
    obtain ⟨-, rfl⟩ := Prod.mk.inj (Option.some.inj h)
    exact .single (.feed w data)
  | tick ms =>
    refine ⟨?_, fun _ => h⟩
    obtain ⟨-, rfl⟩ := Prod.mk.inj (Option.some.inj h)
    exact .single (.tick w ms)
  | registerUrc pre cb user =>
    refine ⟨?_, fun _ => h⟩
    obtain ⟨⟨r', g⟩, h₁, hw⟩ := Option.map_eq_some_iff.mp h
    obtain ⟨-, rfl⟩ := Prod.mk.inj hw
    exact .single (.register w pre cb user r' g h₁)
  | deregisterUrc pre =>
    refine ⟨?_, fun _ => h⟩
    obtain ⟨⟨r', g⟩, h₁, hw⟩ := Option.map_eq_some_iff.mp h
    obtain ⟨-, rfl⟩ := Prod.mk.inj hw
    exact .single (.deregister w pre r' g h₁)
  | state | queueDepth =>
    refine ⟨?_, fun _ => h⟩
    obtain ⟨-, rfl⟩ := Prod.mk.inj (Option.some.inj h)
    exact .refl

/-! ## Watching the engine -/

open Classical in
/-- Run foreign code if the engine satisfies `ok`; there is no result if it
does not. -/
noncomputable def invokeIf (ok : Engine cfg → Prop) (env : Env σ) :
    Nat → Invocation → World cfg σ → Option (World cfg σ)
  | 0, _, _ => none
  | n + 1, inv, w =>
    if ok w.eng then
      (env.hook inv w.app).run World.app World.putApp
        (fun c w => apiCall (invokeIf ok env n) n c (w.emit (.nested inv.kind c w.eng.state))) w
    else none

open Classical in
/-- The drain loop of `at_process`; there is no result if a round begins where
the engine does not satisfy `ok`. -/
noncomputable def drainRxIf (ok : Engine cfg → Prop)
    (invoke : Invocation → World cfg σ → Option (World cfg σ)) (env : Env σ) :
    Nat → World cfg σ → Option (World cfg σ)
  | 0, _ => none
  | fuel + 1, w =>
    if ok w.eng then
      match rxringPop w.eng.rx with
      | none => some w
      | some (b, rx) => do
        let w ← processByte invoke env b (w.putEng { w.eng with rx := rx })
        drainRxIf ok invoke env fuel w
    else none

/-- `at_process` with such a loop. -/
noncomputable def atProcessIf (ok : Engine cfg → Prop)
    (invoke : Invocation → World cfg σ → Option (World cfg σ)) (env : Env σ) (fuel : Nat)
    (w : World cfg σ) : Option (World cfg σ) := do
  let w ← drainRxIf ok invoke env fuel w
  let w ← checkTimeout invoke w
  startIfIdle invoke env w

/-- `exec`, stopped when foreign code is called, or a byte is taken from the
ring, in an engine that does not satisfy `ok`. -/
noncomputable def execIf (ok : Engine cfg → Prop) (env : Env σ) (fuel : Nat) :
    TopCall → World cfg σ → Option (ApiRet × World cfg σ)
  | .api c, w => apiCall (invokeIf ok env fuel) fuel c w
  | .process, w => (atProcessIf ok (invokeIf ok env fuel) env fuel w).map (ApiRet.unit, ·)
  | .setTraceHook hook, w => some (.unit, w.putEng { w.eng with traceHook := hook })
  | .deinit, w =>
    (atReset (invokeIf ok env fuel) fuel w).map fun w => (.unit, w.putEng (deinitState w.eng))

/-- `invoke'` does what `invoke` does where `ok` holds, and that is edits. -/
def Follow (ok : Engine cfg → Prop)
    (invoke invoke' : Invocation → World cfg σ → Option (World cfg σ)) : Prop :=
  ∀ inv w w', ok w.eng → invoke inv w = some w' → invoke' inv w = some w' ∧ Edits w w'

/-- Foreign code is a sequence of such changes. -/
theorem invokeIf_follow {env : Env σ} (henv : env.Respects NotCancelling)
    (ok : Engine cfg → Prop) (n : Nat) : Follow ok (invoke env n) (invokeIf ok env n) := by
  intro inv w w' hok h
  cases n with
  | zero => cases h
  | succ n =>
    have hedits : Edits w w' := by
      refine Interaction.run_invariant (I := Edits w) (fun s v hv => hv.tail (.app v s))
        (fun c v a v' hc hcall hv => ?_) (henv inv w.app) h .refl
      exact (hv.tail (.nested v inv.kind c)).trans (apiCall_edits inv.kind hc hcall).1
    refine ⟨?_, hedits⟩
    rw [invokeIf, if_pos hok]
    rw [invoke] at h
    rw [← h]
    refine (Interaction.run_congr (fun c v hc => ?_) (henv inv w.app) w).symm
    cases hcall : apiCall (invoke env n) n c (v.emit (.nested inv.kind c v.eng.state)) with
    | some r => exact ((apiCall_edits inv.kind hc hcall).2 _).symm
    | none =>
      cases hcall' : apiCall (invokeIf ok env n) n c (v.emit (.nested inv.kind c v.eng.state)) with
      | none => rfl
      | some r =>
        rw [(apiCall_edits inv.kind hc hcall').2] at hcall
        cases hcall

/-! ## Inside `at_process` -/

/-- `v` is between two rounds of the drain loop that began at `w`. -/
inductive Rounds (invoke : Invocation → World cfg σ → Option (World cfg σ)) (env : Env σ)
    (w : World cfg σ) : World cfg σ → Prop
  | start : Rounds invoke env w w
  | round {v v' b rx} : Rounds invoke env w v → rxringPop v.eng.rx = some (b, rx) →
      processByte invoke env b (v.putEng { v.eng with rx := rx }) = some v' →
      Rounds invoke env w v'

/-- What is left of the call is what the call does. -/
theorem Rounds.atProcess {invoke : Invocation → World cfg σ → Option (World cfg σ)} {env : Env σ}
    {w v w' : World cfg σ} (h : Rounds invoke env w v) :
    ∀ {fuel}, LibAt.atProcess invoke env fuel v = some w' →
      ∃ fuel, LibAt.atProcess invoke env fuel w = some w' := by
  induction h with
  | start => exact fun {fuel} hx => ⟨fuel, hx⟩
  | @round v v' b rx _ hpop hb ih =>
    intro fuel hx
    obtain ⟨u, hu, hx⟩ := Option.bind_eq_some_iff.mp hx
    have hround : drainRx invoke env (fuel + 1) v = some u := by
      rw [drainRx, hpop]
      exact Option.bind_eq_some_iff.mpr ⟨v', hb, hu⟩
    exact ih (Option.bind_eq_some_iff.mpr ⟨u, hround, hx⟩)

/-- How a run goes on behind a round: the rest of the `at_process`, and then
further calls. -/
inductive Onward (env : Env σ) (n : Nat) (v : World cfg σ) : World cfg σ → Prop
  | process {fuel w} : LibAt.atProcess (invoke env n) env fuel v = some w → Onward env n v w
  | call {w w'} {env' : Env σ} {fuel call r} (s : σ) : Onward env n v w →
      env'.Respects NotCancelling → exec env' fuel call (w.putApp s) = some (r, w') →
      Onward env n v w'

/-! ## Assertions -/

/-- What the engine does with received bytes, foreign code and completions
apart. -/
inductive Receive : World cfg σ → World cfg σ → Prop
  | pop (w b rx) : rxringPop w.eng.rx = some (b, rx) →
      Receive w (w.putEng { w.eng with rx := rx })
  | byte (w b g) : lfsmByte b w.eng = .more g → Receive w (w.putEng g)
  | lineDone (w) : Receive w (lineDone w)
  | echo (w l) : Receive w ((w.putEng { w.eng with echoArmed := false }).emit (.line .echo l))
  | ignored (w l) : Receive w (w.emit (.line (.prompt false) l))
  | urc (w l i) : Receive w
      ((w.emit (.line .urc l)).emit (.urc (w.eng.urcTable i).cb (w.eng.urcTable i).user l))
  | accumulate (w l) : Receive w (accumulate l w)

/-- What comes in has nothing to do with the queue. -/
theorem Receive.queue {w w' : World cfg σ} (h : Receive w w') :
    SameQueue w.eng w'.eng ∧ w'.eng.state = w.eng.state := by
  cases h with
  | pop | lineDone | echo | ignored | urc => exact ⟨⟨rfl, rfl, rfl, rfl⟩, rfl⟩
  | byte b g hb =>
    obtain ⟨line, lfsm, rfl⟩ := lfsmByte_eq hb
    exact ⟨⟨rfl, rfl, rfl, rfl⟩, rfl⟩
  | accumulate l =>
    obtain ⟨pool, response, heng⟩ := accumulate_eng l w
    rw [heng]
    exact ⟨⟨rfl, rfl, rfl, rfl⟩, rfl⟩

/-- Assertions for the places control can be at, each with what must be shown
for the ways that lead there. -/
structure Discipline (cfg : Config) (σ : Type) where
  /-- no completion is in progress -/
  rest : World cfg σ → Prop
  /-- `engine_finalize` is about to be called with a status -/
  ending : AtResult → World cfg σ → Prop
  /-- `engine_finalize` has read a slot and its entry and runs the callback -/
  finalizing : Fin cfg.cmdQueueDepth → CmdEntry cfg → World cfg σ → Prop
  /-- the drain loop of `at_reset` has read an entry and runs the callback -/
  notifying : CmdEntry cfg → World cfg σ → Prop
  /-- what foreign code finds -/
  ok : Engine cfg → Prop
  rest_ok : ∀ {w}, rest w → ok w.eng
  finalizing_ok : ∀ {i e w}, finalizing i e w → ok w.eng
  notifying_ok : ∀ {e w}, notifying e w → ok w.eng
  rest_edit : ∀ w w', rest w → Edit w w' → rest w'
  finalizing_edit : ∀ i e w w', finalizing i e w → Edit w w' → finalizing i e w'
  notifying_edit : ∀ e w w', notifying e w → Edit w w' → notifying e w'
  active : ∀ {w}, rest w → w.eng.state ≠ .idle → 0 < w.eng.qCount
  traceHook : ∀ w hook, rest w → rest (w.putEng { w.eng with traceHook := hook })
  receive : ∀ w w', rest w → Receive w w' → rest w'
  answered : ∀ (env : Env σ) w w' l, rest w → w.eng.state = .waiting →
    answerPrompt env (w.eng.queue w.eng.qTail) (w.emit (.line (.prompt true) l)) = (true, w') →
    rest w'
  failed : ∀ (env : Env σ) w w' l, rest w → w.eng.state = .waiting →
    answerPrompt env (w.eng.queue w.eng.qTail) (w.emit (.line (.prompt true) l)) = (false, w') →
    ending .errIo w'
  final : ∀ w l s c, rest w → w.eng.state = .waiting → engineIsFinal l = some (s, c) →
    ending s (w.emit (.line .final l))
  transmitted : ∀ (env : Env σ) w w', rest w → w.eng.state = .idle → 0 < w.eng.qCount →
    transmit env w = (true, w') → rest w'
  unsent : ∀ (env : Env σ) w w', rest w → w.eng.state = .idle → 0 < w.eng.qCount →
    transmit env w = (false, w') → ending .errIo w'
  cancel : ∀ w s, rest w → w.eng.state ≠ .idle → s = .errTimeout ∨ s = .errAborted → ending s w
  finalize : ∀ w s c, ending s w →
    finalizing w.eng.qTail (w.eng.queue w.eng.qTail)
      ((w.putEng (setResponse (finalResponse s c w.eng) w.eng)).fire (w.eng.queue w.eng.qTail)
        (finalResponse s c w.eng))
  dequeue : ∀ w i e, finalizing i e w → rest ((w.putEng (dequeue i w.eng)).emit (.completed e))
  drainNotify : ∀ w, rest w → w.eng.state = .idle → 0 < w.eng.qCount →
    notifying (w.eng.queue w.eng.qTail) (w.fire (w.eng.queue w.eng.qTail) abortedResponse)
  drainNext : ∀ w e, notifying e w →
    rest ((w.putEng (drainNext w.eng)).emit (.completed e)) ∧ w.eng.state = .idle
  reset : ∀ w, rest w → w.eng.state = .idle → w.eng.qCount = 0 →
    rest (w.putEng (resetState w.eng))
  deinit : ∀ w, rest w → w.eng.state = .idle → w.eng.qCount = 0 →
    rest (w.putEng (deinitState w.eng))

namespace Discipline

variable (D : Discipline cfg σ) {invoke invoke' : Invocation → World cfg σ → Option (World cfg σ)}
  {env : Env σ} {w w' : World cfg σ}

section

variable (hinv : Follow D.ok invoke invoke')

include hinv

/-- A callback runs where `X` holds, and keeps it. -/
theorem notify {X : World cfg σ → Prop} (hok : ∀ {v}, X v → D.ok v.eng)
    (hedit : ∀ v v', X v → Edit v v' → X v') {e : CmdEntry cfg} {r : Response}
    (hX : X (w.fire e r)) (h : notify invoke e r w = some w') :
    LibAt.notify invoke' e r w = some w' ∧ X w' := by
  rw [LibAt.notify] at h ⊢
  rw [World.fire] at hX
  cases hcb : e.cb with
  | none =>
    rw [hcb] at h hX
    obtain rfl := Option.some.inj h
    exact ⟨rfl, hX⟩
  | some f =>
    rw [hcb] at h hX
    obtain ⟨h', hedits⟩ := hinv _ _ _ (hok hX) h
    exact ⟨h', hedits.invariant hedit hX⟩

/-- A completion goes from the state in which it is about to begin to one between calls. -/
theorem engineFinalize {s : AtResult} {c : Int} (hw : D.ending s w)
    (h : engineFinalize invoke s c w = some w') :
    LibAt.engineFinalize invoke' s c w = some w' ∧ D.rest w' ∧ w'.eng.state = .idle := by
  obtain ⟨w₁, hn, hret⟩ := Option.bind_eq_some_iff.mp h
  obtain rfl := Option.some.inj hret
  obtain ⟨hn', hw₁⟩ := D.notify hinv D.finalizing_ok (D.finalizing_edit _ _)
    (D.finalize w s c hw) hn
  exact ⟨Option.bind_eq_some_iff.mpr ⟨w₁, hn', rfl⟩, D.dequeue w₁ _ _ hw₁, rfl⟩

theorem engineStartNext (hw : D.rest w) (hs : w.eng.state = .idle) (hq : 0 < w.eng.qCount)
    (h : engineStartNext invoke env w = some w') :
    LibAt.engineStartNext invoke' env w = some w' ∧ D.rest w' := by
  rw [LibAt.engineStartNext] at h ⊢
  rcases ht : transmit env w with ⟨_ | _, w₁⟩ <;> rw [ht] at h
  · obtain ⟨h', hrest, -⟩ := D.engineFinalize hinv (D.unsent env w w₁ hw hs hq ht) h
    exact ⟨h', hrest⟩
  · obtain rfl := Option.some.inj h
    exact ⟨rfl, D.transmitted env w w₁ hw hs hq ht⟩

theorem urcDispatch {l : List UInt8} (hw : D.rest w)
    (h : (urcDispatch invoke l w).map (fun r => if r.1 then r.2 else accumulate l r.2) = some w') :
    (LibAt.urcDispatch invoke' l w).map (fun r => if r.1 then r.2 else accumulate l r.2) =
      some w' ∧ D.rest w' := by
  obtain ⟨⟨taken, w₁⟩, hu, hret⟩ := Option.map_eq_some_iff.mp h
  obtain ⟨m, hm, hr⟩ := Option.bind_eq_some_iff.mp hu
  cases m with
  | none =>
    obtain ⟨rfl, rfl⟩ := Prod.mk.inj (Option.some.inj hr)
    obtain rfl : accumulate l w = w' := hret
    refine ⟨Option.map_eq_some_iff.mpr ⟨(false, w), ?_, rfl⟩, D.receive _ _ hw (.accumulate w l)⟩
    exact Option.bind_eq_some_iff.mpr ⟨none, hm, rfl⟩
  | some i =>
    obtain ⟨w₂, hi, hr⟩ := Option.bind_eq_some_iff.mp hr
    obtain ⟨rfl, rfl⟩ := Prod.mk.inj (Option.some.inj hr)
    obtain rfl : w₂ = w' := hret
    have hurc := D.receive _ _ hw (.urc w l i)
    obtain ⟨hi', hedits⟩ := hinv _ _ _ (D.rest_ok hurc) hi
    refine ⟨Option.map_eq_some_iff.mpr ⟨(true, w₂), ?_, rfl⟩, hedits.invariant D.rest_edit hurc⟩
    exact Option.bind_eq_some_iff.mpr ⟨some i, hm, Option.bind_eq_some_iff.mpr ⟨w₂, hi', rfl⟩⟩

/-- **A line.** The discipline's steps are put together as the source puts together the ways
through `engine_dispatch_line`. -/
theorem engineDispatchLine {l : List UInt8} (hw : D.rest w)
    (h : engineDispatchLine invoke env l w = some w') :
    LibAt.engineDispatchLine invoke' env l w = some w' ∧ D.rest w' := by
  rw [LibAt.engineDispatchLine] at h ⊢
  by_cases h0 : l.length = 0
  · rw [if_pos h0] at h ⊢
    obtain rfl := Option.some.inj h
    exact ⟨rfl, hw⟩
  rw [if_neg h0] at h ⊢
  cases he : isEcho w.eng l with
  | true =>
    rw [if_pos he] at h
    obtain rfl := Option.some.inj h
    exact ⟨rfl, D.receive _ _ hw (.echo w l)⟩
  | false =>
  rw [if_neg (by simp [he])] at h
  rw [if_neg (by simp)]
  cases hp : isPrompt w.eng l with
  | true =>
    have hs : w.eng.state = .waiting := isPrompt_waiting hp
    rw [if_pos hp] at h
    rw [if_pos rfl]
    dsimp only at h ⊢
    by_cases hb : (w.eng.queue w.eng.qTail).prompt = .sms ∧ (w.eng.queue w.eng.qTail).hasBody
    · rw [if_pos hb] at h ⊢
      rcases ha : answerPrompt env (w.eng.queue w.eng.qTail)
          (w.emit (.line (.prompt true) l)) with ⟨_ | _, w₁⟩ <;> rw [ha] at h
      · obtain ⟨h', hrest, -⟩ := D.engineFinalize hinv (D.failed env w w₁ l hw hs ha) h
        exact ⟨h', hrest⟩
      · obtain rfl := Option.some.inj h
        exact ⟨rfl, D.answered env w w₁ l hw hs ha⟩
    · rw [if_neg hb] at h ⊢
      obtain rfl := Option.some.inj h
      exact ⟨rfl, D.receive _ _ hw (.ignored w l)⟩
  | false =>
  rw [if_neg (by simp [hp])] at h
  rw [if_neg (by simp)]
  by_cases hs : w.eng.state = .waiting
  · rw [if_pos hs] at h ⊢
    cases hfin : engineIsFinal l with
    | some r =>
      rw [hfin] at h
      obtain ⟨h', hrest, -⟩ := D.engineFinalize hinv (D.final w l r.1 r.2 hw hs hfin) h
      exact ⟨h', hrest⟩
    | none =>
      rw [hfin] at h
      exact D.urcDispatch hinv hw h
  · rw [if_neg hs] at h ⊢
    exact D.urcDispatch hinv hw h

/-! ### `at_process` -/

theorem processByte {b : UInt8} (hw : D.rest w) (h : processByte invoke env b w = some w') :
    LibAt.processByte invoke' env b w = some w' ∧ D.rest w' := by
  rw [LibAt.processByte] at h ⊢
  cases hb : lfsmByte b w.eng with
  | more g =>
    rw [hb] at h
    obtain rfl := Option.some.inj h
    exact ⟨rfl, D.receive _ _ hw (.byte w b g hb)⟩
  | line l =>
    rw [hb] at h
    obtain ⟨w₁, hd, rfl⟩ := Option.map_eq_some_iff.mp h
    obtain ⟨hd', hw₁⟩ := D.engineDispatchLine hinv hw hd
    exact ⟨Option.map_eq_some_iff.mpr ⟨w₁, hd', rfl⟩, D.receive _ _ hw₁ (.lineDone w₁)⟩

/-- **The drain loop**, by induction on its rounds. -/
theorem drainRx {fuel : Nat} : ∀ {w : World cfg σ}, D.rest w →
    drainRx invoke env fuel w = some w' →
      drainRxIf D.ok invoke' env fuel w = some w' ∧ D.rest w' := by
  induction fuel with
  | zero => intro w _ h; cases h
  | succ fuel ih =>
    intro w hw h
    rw [LibAt.drainRx] at h
    rw [drainRxIf, if_pos (D.rest_ok hw)]
    rcases hp : rxringPop w.eng.rx with _ | ⟨b, rx⟩ <;> rw [hp] at h
    · obtain rfl := Option.some.inj h
      exact ⟨rfl, hw⟩
    · obtain ⟨w₁, hb, h⟩ := Option.bind_eq_some_iff.mp h
      obtain ⟨hb', hw₁⟩ := D.processByte hinv (D.receive _ _ hw (.pop w b rx hp)) hb
      obtain ⟨h', hw'⟩ := ih hw₁ h
      exact ⟨Option.bind_eq_some_iff.mpr ⟨w₁, hb', h'⟩, hw'⟩

theorem atProcess {fuel : Nat} (hw : D.rest w) (h : atProcess invoke env fuel w = some w') :
    atProcessIf D.ok invoke' env fuel w = some w' ∧ D.rest w' := by
  obtain ⟨w₁, h₁, h⟩ := Option.bind_eq_some_iff.mp h
  obtain ⟨w₂, h₂, h₃⟩ := Option.bind_eq_some_iff.mp h
  obtain ⟨h₁', hw₁⟩ := D.drainRx hinv hw h₁
  obtain ⟨h₂', hw₂⟩ : checkTimeout invoke' w₁ = some w₂ ∧ D.rest w₂ := by
    rw [checkTimeout] at h₂ ⊢
    split at h₂
    · rename_i hs
      rw [if_pos hs]
      have hne : w₁.eng.state ≠ .idle := by rcases hs.1 with hs | hs <;> simp [hs]
      obtain ⟨h', hrest, -⟩ := D.engineFinalize hinv (D.cancel w₁ _ hw₁ hne (.inl rfl)) h₂
      exact ⟨h', hrest⟩
    · rename_i hs
      obtain rfl := Option.some.inj h₂
      exact ⟨if_neg hs, hw₁⟩
  obtain ⟨h₃', hw₃⟩ : startIfIdle invoke' env w₂ = some w' ∧ D.rest w' := by
    rw [startIfIdle] at h₃ ⊢
    split at h₃
    · rename_i hs
      rw [if_pos hs]
      exact D.engineStartNext hinv hw₂ hs.1 hs.2 h₃
    · rename_i hs
      obtain rfl := Option.some.inj h₃
      exact ⟨if_neg hs, hw₂⟩
  exact ⟨Option.bind_eq_some_iff.mpr ⟨w₁, h₁', Option.bind_eq_some_iff.mpr ⟨w₂, h₂', h₃'⟩⟩, hw₃⟩

/-! ### `at_abort` and `at_reset` -/

theorem atAbort (hw : D.rest w) (h : atAbort invoke w = some w') :
    LibAt.atAbort invoke' w = some w' ∧ D.rest w' := by
  rw [LibAt.atAbort] at h ⊢
  split at h
  · rename_i hs
    rw [if_pos hs]
    have hne : w.eng.state ≠ .idle := by rcases hs with hs | hs <;> simp [hs]
    obtain ⟨h', hrest, -⟩ := D.engineFinalize hinv (D.cancel w _ hw hne (.inr rfl)) h
    exact ⟨h', hrest⟩
  · rename_i hs
    obtain rfl := Option.some.inj h
    exact ⟨if_neg hs, hw⟩

theorem drainQueue {fuel : Nat} : ∀ {w : World cfg σ}, D.rest w → w.eng.state = .idle →
    drainQueue invoke fuel w = some w' →
      LibAt.drainQueue invoke' fuel w = some w' ∧ D.rest w' ∧ w'.eng.state = .idle ∧
        w'.eng.qCount = 0 := by
  induction fuel with
  | zero => intro w _ _ h; cases h
  | succ fuel ih =>
    intro w hw hs h
    rw [LibAt.drainQueue] at h ⊢
    split at h
    · rename_i hq
      obtain ⟨w₁, hd, h⟩ := Option.bind_eq_some_iff.mp h
      obtain ⟨w₂, hn, hret⟩ := Option.bind_eq_some_iff.mp hd
      obtain rfl := Option.some.inj hret
      obtain ⟨hn', hw₂⟩ := D.notify hinv D.notifying_ok (D.notifying_edit _)
        (D.drainNotify w hw hs hq) hn
      obtain ⟨hw₁, hs₁⟩ := D.drainNext w₂ _ hw₂
      obtain ⟨h', hrest⟩ := ih hw₁ hs₁ h
      rw [if_pos hq]
      refine ⟨Option.bind_eq_some_iff.mpr ⟨_, ?_, h'⟩, hrest⟩
      exact Option.bind_eq_some_iff.mpr ⟨w₂, hn', rfl⟩
    · rename_i hq
      obtain rfl := Option.some.inj h
      exact ⟨if_neg hq, hw, hs, by omega⟩

/-- **A reset**, with the rounds of its drain loop. -/
theorem atReset {fuel : Nat} (hw : D.rest w) (h : atReset invoke fuel w = some w') :
    LibAt.atReset invoke' fuel w = some w' ∧ D.rest w' ∧ w'.eng.state = .idle ∧
      w'.eng.qCount = 0 := by
  obtain ⟨w₁, h₁, h⟩ := Option.bind_eq_some_iff.mp h
  obtain ⟨w₂, h₂, hret⟩ := Option.bind_eq_some_iff.mp h
  obtain rfl := Option.some.inj hret
  obtain ⟨h₁', hw₁, hs₁⟩ : abortActive invoke' w = some w₁ ∧ D.rest w₁ ∧ w₁.eng.state = .idle := by
    rw [abortActive] at h₁ ⊢
    split at h₁
    · rename_i hs
      rw [if_pos hs]
      exact D.engineFinalize hinv (D.cancel w _ hw hs.1 (.inr rfl)) h₁
    · rename_i hs
      obtain rfl := Option.some.inj h₁
      refine ⟨if_neg hs, hw, ?_⟩
      by_contra hne
      exact hs ⟨hne, D.active hw hne⟩
  obtain ⟨h₂', hw₂, hs₂, h0⟩ := D.drainQueue hinv hw₁ hs₁ h₂
  refine ⟨?_, D.reset w₂ hw₂ hs₂ h0, rfl, h0⟩
  exact Option.bind_eq_some_iff.mpr ⟨w₁, h₁', Option.bind_eq_some_iff.mpr ⟨w₂, h₂', rfl⟩⟩

end

/-- **The rule.** A call from a place where the assertion for rest holds ends
in one, and runs foreign code and takes bytes only where `ok` holds. -/
theorem exec (henv : env.Respects NotCancelling) {fuel : Nat} {call : TopCall} {r : ApiRet}
    (hw : D.rest w) (h : exec env fuel call w = some (r, w')) :
    D.rest w' ∧ execIf D.ok env fuel call w = some (r, w') := by
  have hinv := invokeIf_follow henv D.ok fuel
  cases call with
  | process =>
    obtain ⟨w₁, h₁, hret⟩ := Option.map_eq_some_iff.mp h
    obtain ⟨rfl, rfl⟩ := Prod.mk.inj hret
    obtain ⟨h', hrest⟩ := D.atProcess hinv hw h₁
    exact ⟨hrest, Option.map_eq_some_iff.mpr ⟨w₁, h', rfl⟩⟩
  | setTraceHook hook =>
    obtain ⟨rfl, rfl⟩ := Prod.mk.inj (Option.some.inj h)
    exact ⟨D.traceHook w hook hw, rfl⟩
  | deinit =>
    obtain ⟨w₁, h₁, hret⟩ := Option.map_eq_some_iff.mp h
    obtain ⟨rfl, rfl⟩ := Prod.mk.inj hret
    obtain ⟨h', hrest, hs, h0⟩ := D.atReset hinv hw h₁
    exact ⟨D.deinit w₁ hrest hs h0, Option.map_eq_some_iff.mpr ⟨w₁, h', rfl⟩⟩
  | api c =>
    by_cases habort : c = .abort
    · subst habort
      obtain ⟨w₁, h₁, hret⟩ := Option.map_eq_some_iff.mp h
      obtain ⟨rfl, rfl⟩ := Prod.mk.inj hret
      obtain ⟨h', hrest⟩ := D.atAbort hinv hw h₁
      exact ⟨hrest, Option.map_eq_some_iff.mpr ⟨w₁, h', rfl⟩⟩
    by_cases hreset : c = .reset
    · subst hreset
      obtain ⟨w₁, h₁, hret⟩ := Option.map_eq_some_iff.mp h
      obtain ⟨rfl, rfl⟩ := Prod.mk.inj hret
      obtain ⟨h', hrest, -⟩ := D.atReset hinv hw h₁
      exact ⟨hrest, Option.map_eq_some_iff.mpr ⟨w₁, h', rfl⟩⟩
    obtain ⟨hedits, h'⟩ := apiCall_edits .handler ⟨habort, hreset⟩ h
    exact ⟨hedits.invariant D.rest_edit hw, h' _⟩

/-- **The rule for runs.** -/
theorem reachable {P : Env σ → TopCall → Prop}
    (hP : ∀ env call, P env call → env.Respects NotCancelling)
    (hinit : ∀ s, D.rest ⟨atInit cfg, s, []⟩) (h : Reachable P w) : D.rest w := by
  induction h with
  | init s => exact hinit s
  | step s _ hp hx ih =>
    exact (D.exec (hP _ _ hp) (D.rest_edit _ _ ih (.app _ s)) hx).1

/-- The assertion for rest holds between the rounds of a drain loop. -/
theorem rounds (henv : env.Respects NotCancelling) {n : Nat} {v : World cfg σ} (hw : D.rest w)
    (h : Rounds (LibAt.invoke env n) env w v) : D.rest v := by
  induction h with
  | start => exact hw
  | @round v v' b rx _ hpop hb ih =>
    exact (D.processByte (invokeIf_follow henv D.ok n) (D.receive _ _ ih (.pop v b rx hpop)) hb).2

/-- It holds however the run goes on. -/
theorem onward (henv : env.Respects NotCancelling) {n : Nat} {v : World cfg σ} (hv : D.rest v)
    (h : Onward env n v w) : D.rest w := by
  induction h with
  | process hx => exact (D.atProcess (invokeIf_follow henv D.ok n) hv hx).2
  | call s _ henv' hx ih => exact (D.exec henv' (D.rest_edit _ _ ih (.app _ s)) hx).1

end Discipline

end LibAt
