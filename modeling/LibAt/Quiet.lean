import LibAt.Consume
import LibAt.Sending

/-!
# Hooks that leave the library alone

When callbacks and handlers make no API call, all they do is change their own
state, and a call of the library is a function of the world it is called in.
`quiet` runs such hooks without a nesting depth, `Dispatches` says what one
line does, and an `at_process` is: consume what is in the ring, check the
timeout, start the next command.
-/

namespace LibAt

variable {cfg : Config} {σ : Type} {env : Env σ}

/-! ## Silent hooks -/

/-- Hooks that make no API call. -/
def Env.Silent (env : Env σ) : Prop := env.Respects fun _ _ => False

theorem Env.Silent.respects (h : env.Silent) {allowed : HookKind → ApiCall → Prop} :
    env.Respects allowed :=
  fun inv s => (h inv s).mono fun _ => False.elim

/-- The private state a silent hook leaves. -/
def Env.after (env : Env σ) (inv : Invocation) (s : σ) : σ :=
  match env.hook inv s with
  | .ret s' => s'
  | .call .. => s

/-- Run a silent hook. -/
def quiet (env : Env σ) (inv : Invocation) (w : World cfg σ) : Option (World cfg σ) :=
  some (w.putApp (env.after inv w.app))

/-- One level of nesting is enough for silent hooks. -/
theorem invoke_silent (henv : env.Silent) (n : Nat) :
    (invoke env (n + 1) : Invocation → World cfg σ → _) = quiet env := by
  funext inv w
  have hinv := henv inv w.app
  rw [invoke, quiet, Env.after]
  cases hh : env.hook inv w.app with
  | ret s => rfl
  | call c s k =>
    rw [hh] at hinv
    exact hinv.1.elim

theorem quiet_unnoticed (u : Engine cfg → Engine cfg) : Unnoticed (quiet env) u := fun _ _ => rfl

/-! ## Completion -/

/-- The private state after a notification. -/
def notifiedApp (env : Env σ) (e : CmdEntry cfg) (r : Response) (s : σ) : σ :=
  match e.cb with
  | none => s
  | some f => env.after (.completion f r e.user) s

theorem notify_quiet (e : CmdEntry cfg) (r : Response) (w : World cfg σ) :
    notify (quiet env) e r w = some ((w.fire e r).putApp (notifiedApp env e r w.app)) := by
  rw [notify, World.fire, notifiedApp]
  cases e.cb <;> rfl

/-- `engine_finalize` with a silent callback. -/
def finalized (env : Env σ) (status : AtResult) (c : Int) (w : World cfg σ) : World cfg σ :=
  let e := w.eng.queue w.eng.qTail
  let r := finalResponse status c w.eng
  ⟨dequeue w.eng.qTail (setResponse r w.eng), notifiedApp env e r w.app,
    w.log ++ e.notice r ++ [.completed e]⟩

theorem engineFinalize_quiet (status : AtResult) (c : Int) (w : World cfg σ) :
    engineFinalize (quiet env) status c w = some (finalized env status c w) := by
  simp only [engineFinalize, notify_quiet, Option.bind_eq_bind, Option.bind_some, finalized,
    Option.pure_def, World.emit, World.putEng, World.putApp, World.fire_eng, World.fire_log]

/-! ## Lines -/

/-- What the dispatch of the line `l` does, one constructor for each way
through `engine_dispatch_line`. -/
inductive Dispatches (env : Env σ) (l : List UInt8) : World cfg σ → World cfg σ → Prop
  | empty (w) : l = [] → Dispatches env l w w
  | echo (w) : isEcho w.eng l = true →
      Dispatches env l w ((w.putEng { w.eng with echoArmed := false }).emit (.line .echo l))
  | ignored (w) : isEcho w.eng l = false → isPrompt w.eng l = true →
      ¬((w.eng.queue w.eng.qTail).prompt = .sms ∧ (w.eng.queue w.eng.qTail).hasBody) →
      Dispatches env l w (w.emit (.line (.prompt false) l))
  | answered (w w') : isEcho w.eng l = false → isPrompt w.eng l = true →
      (w.eng.queue w.eng.qTail).prompt = .sms ∧ (w.eng.queue w.eng.qTail).hasBody →
      answerPrompt env (w.eng.queue w.eng.qTail) (w.emit (.line (.prompt true) l)) = (true, w') →
      Dispatches env l w w'
  | failed (w w') : isEcho w.eng l = false → isPrompt w.eng l = true →
      (w.eng.queue w.eng.qTail).prompt = .sms ∧ (w.eng.queue w.eng.qTail).hasBody →
      answerPrompt env (w.eng.queue w.eng.qTail) (w.emit (.line (.prompt true) l)) = (false, w') →
      Dispatches env l w (finalized env .errIo 0 w')
  | final (w status c) : isEcho w.eng l = false → isPrompt w.eng l = false →
      w.eng.state = .waiting → engineIsFinal l = some (status, c) →
      Dispatches env l w (finalized env status c (w.emit (.line .final l)))
  | urc (w i) : isEcho w.eng l = false → isPrompt w.eng l = false →
      (w.eng.state = .waiting → engineIsFinal l = none) → urcMatch l w.eng = some (some i) →
      Dispatches env l w
        (((w.emit (.line .urc l)).emit (.urc (w.eng.urcTable i).cb (w.eng.urcTable i).user l)).putApp
          (env.after (.handler (w.eng.urcTable i).cb l (w.eng.urcTable i).user) w.app))
  | other (w) : isEcho w.eng l = false → isPrompt w.eng l = false →
      (w.eng.state = .waiting → engineIsFinal l = none) → urcMatch l w.eng = some none →
      Dispatches env l w (accumulate l w)

/-- `urc_dispatch` and what follows it. -/
theorem urcDispatch_quiet (hfit : cfg.Fits) {l : List UInt8} {w : World cfg σ}
    (he : isEcho w.eng l = false) (hp : isPrompt w.eng l = false)
    (hf : w.eng.state = .waiting → engineIsFinal l = none) :
    ∃ w', (urcDispatch (quiet env) l w).map (fun r => if r.1 then r.2 else accumulate l r.2) =
      some w' ∧ Dispatches env l w w' := by
  obtain ⟨m, hm⟩ : ∃ m, urcMatch l w.eng = some m := urcSearch_isSome hfit _
  cases m with
  | none =>
    refine ⟨_, ?_, .other w he hp hf hm⟩
    rw [urcDispatch, hm]
    rfl
  | some i =>
    refine ⟨_, ?_, .urc w i he hp hf hm⟩
    rw [urcDispatch, hm]
    rfl

/-- **A line.** The dispatch of a line returns, and does what its kind says. -/
theorem engineDispatchLine_quiet (hfit : cfg.Fits) (l : List UInt8) (w : World cfg σ) :
    ∃ w', engineDispatchLine (quiet env) env l w = some w' ∧ Dispatches env l w w' := by
  rw [engineDispatchLine]
  by_cases h0 : l.length = 0
  · rw [if_pos h0]
    exact ⟨w, rfl, .empty w (List.length_eq_zero_iff.mp h0)⟩
  rw [if_neg h0]
  cases he : isEcho w.eng l with
  | true => exact ⟨_, rfl, .echo w he⟩
  | false =>
  rw [if_neg (by simp)]
  cases hp : isPrompt w.eng l with
  | true =>
    rw [if_pos rfl]
    dsimp only
    split
    · rename_i hb
      rcases ha : answerPrompt env (w.eng.queue w.eng.qTail) (w.emit (.line (.prompt true) l))
        with ⟨_ | _, w'⟩
      · exact ⟨_, engineFinalize_quiet .errIo 0 w', .failed w w' he hp hb ha⟩
      · exact ⟨w', rfl, .answered w w' he hp hb ha⟩
    · rename_i hb
      exact ⟨_, rfl, .ignored w he hp hb⟩
  | false =>
  rw [if_neg (by simp)]
  by_cases hs : w.eng.state = .waiting
  · rw [if_pos hs]
    cases hfin : engineIsFinal l with
    | some r => exact ⟨_, engineFinalize_quiet r.1 r.2 _, .final w r.1 r.2 he hp hs hfin⟩
    | none => exact urcDispatch_quiet hfit he hp fun _ => hfin
  · rw [if_neg hs]
    exact urcDispatch_quiet hfit he hp fun hw => absurd hw hs

/-- A line has nothing to do with the ring. -/
theorem Dispatches.rx {l : List UInt8} {w w' : World cfg σ} (h : Dispatches env l w w') :
    w'.eng.rx = w.eng.rx := by
  have heng := answerPrompt_eng env (w.eng.queue w.eng.qTail) (w.emit (.line (.prompt true) l))
  cases h with
  | answered w' _ _ _ ha =>
    rw [ha] at heng
    rw [heng]
    rfl
  | failed w₁ _ _ _ ha =>
    rw [ha] at heng
    change w₁.eng.rx = _
    rw [heng]
    rfl
  | other =>
    obtain ⟨pool, response, hacc⟩ := accumulate_eng l w
    rw [hacc]
  | _ => rfl

/-! ## Bytes -/

/-- **Consumption.** What every byte that moves the FSM and every line that is
dispatched preserve, any bytes preserve. -/
theorem consume_quiet (hfit : cfg.Fits) {I : World cfg σ → Prop}
    (hmore : ∀ b w g, I w → lfsmByte b w.eng = .more g → I (w.putEng g))
    (hline : ∀ b w w' l, I w → lfsmByte b w.eng = .line l → Dispatches env l w w' →
      I (lineDone w')) (bs : List UInt8) :
    ∀ {w : World cfg σ}, I w → ∃ w', consume (quiet env) env bs w = some w' ∧ I w' := by
  induction bs with
  | nil => exact fun {w} hw => ⟨w, rfl, hw⟩
  | cons b bs ih =>
    intro w hw
    rw [consume, processByte]
    cases hb : lfsmByte b w.eng with
    | more g => exact ih (hmore b w g hw hb)
    | line l =>
      obtain ⟨w₁, hd, hdis⟩ : ∃ w₁, engineDispatchLine (quiet env) env l w = some w₁ ∧
        Dispatches env l w w₁ := engineDispatchLine_quiet hfit l w
      dsimp only
      rw [hd]
      exact ih (hline b w w₁ l hw hb hdis)

/-! ## `at_process` -/

theorem execAll_append (env : Env σ) (fuel : Nat) (as bs : List TopCall) (w : World cfg σ) :
    execAll env fuel (as ++ bs) w = (execAll env fuel as w).bind (execAll env fuel bs) := by
  induction as generalizing w with
  | nil => rfl
  | cons a as ih =>
    rw [List.cons_append, execAll, execAll, Option.bind_assoc]
    exact Option.bind_congr fun r _ => ih r.2

/-- Phases 2 and 3 of `at_process`. -/
def afterDrain (env : Env σ) (w : World cfg σ) : Option (World cfg σ) :=
  (checkTimeout (quiet env) w).bind (startIfIdle (quiet env) env)

/-- The drain loop with silent hooks consumes what is in the ring. -/
theorem drainRx_silent (henv : env.Silent) {w : World cfg σ} {fuel : Nat}
    (hfuel : rxringUsed w.eng.rx < fuel) :
    drainRx (invoke env fuel) env fuel w =
      (consume (quiet env) env (rxringBytes w.eng.rx) w).map
        (World.mapEng (setRx w.eng.rx.drained)) := by
  obtain ⟨n, rfl⟩ := Nat.exists_eq_succ_of_ne_zero (Nat.ne_of_gt (Nat.zero_lt_of_lt hfuel))
  rw [Nat.succ_eq_add_one, invoke_silent henv]
  exact drainRx_eq_consume (fun r => quiet_unnoticed _) n w (by omega)

/-- **`at_process` with silent hooks.** It consumes what is in the ring, and
then looks at the timer and the queue. -/
theorem exec_process (henv : env.Silent) {w : World cfg σ} {fuel : Nat}
    (hfuel : rxringUsed w.eng.rx < fuel) :
    exec env fuel .process w =
      (((consume (quiet env) env (rxringBytes w.eng.rx) w).map
        (World.mapEng (setRx w.eng.rx.drained))).bind (afterDrain env)).map (ApiRet.unit, ·) := by
  rw [← drainRx_silent henv hfuel]
  obtain ⟨n, rfl⟩ := Nat.exists_eq_succ_of_ne_zero (Nat.ne_of_gt (Nat.zero_lt_of_lt hfuel))
  simp only [exec, atProcess, Nat.succ_eq_add_one, invoke_silent henv, Option.bind_eq_bind]
  rfl

end LibAt
