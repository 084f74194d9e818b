import LibAt.Discipline
import LibAt.Quiet
import LibAt.Upkeep

/-!
# Callbacks that use the library

When handlers make no API call, foreign code gets at the library from a
completion callback only, and with writes that succeed a received byte leads
to one in a single place: where a final result line completes the active
command. Anywhere else a line does what it does with silent hooks
(`processByte_cases`). A callback that cancels nothing returns, leaves the
state alone, and logs its calls and the commands it gets accepted
(`engineFinalize_callback`). It may feed bytes to the ring that is being
drained, but as the engine is idle by then they lead to no further callback,
and an `at_process` returns (`exec_process_returns`).
-/

namespace LibAt

variable {cfg : Config} {σ : Type} {env : Env σ}

/-! ## Writes that succeed -/

/-- A write hook that writes everything. -/
def Env.Delivers (env : Env σ) : Prop := ∀ s data, (env.write s data).1 = data.length

theorem writePair_delivers (henv : env.Delivers) (site₁ site₂ : WriteSite) (data : List UInt8)
    (term : UInt8) (w : World cfg σ) : (writePair env site₁ site₂ data term w).1 = true := by
  have hwrite (site : WriteSite) (data : List UInt8) (v : World cfg σ) :
      (atPlatformWrite env site data v).1 = data.length := henv v.app data
  rw [writePair]
  dsimp only
  split
  · rename_i h
    exact absurd (hwrite ..) h
  · split
    · rename_i h
      exact absurd (hwrite ..) h
    · rfl

theorem transmit_delivers (henv : env.Delivers) (w : World cfg σ) :
    (transmit env w).1 = true := by
  rw [transmit_eq]
  exact writePair_delivers henv ..

theorem answerPrompt_delivers (henv : env.Delivers) (e : CmdEntry cfg) (w : World cfg σ) :
    (answerPrompt env e w).1 = true := by
  rw [answerPrompt_eq]
  exact writePair_delivers henv ..

/-- Step 3 of `at_process` when the writes succeed. -/
def started (env : Env σ) (w : World cfg σ) : World cfg σ :=
  if w.eng.state = .idle ∧ w.eng.qCount > 0 then (transmit env w).2 else w

theorem startIfIdle_delivers (henv : env.Delivers)
    (invoke : Invocation → World cfg σ → Option (World cfg σ)) (w : World cfg σ) :
    startIfIdle invoke env w = some (started env w) := by
  rw [startIfIdle, started]
  split
  · have hdone := transmit_delivers henv w
    rw [engineStartNext]
    rcases ht : transmit env w with ⟨_ | _, v⟩ <;> rw [ht] at hdone
    cases hdone
  · rfl

/-- It leaves the engine idle only when there is nothing to start. -/
theorem started_idle {w : World cfg σ} (h : (started env w).eng.state = .idle) :
    (started env w).eng.qCount = 0 := by
  rw [started] at h ⊢
  split at h
  · rw [transmit_eng] at h
    dsimp only at h
    split at h <;> cases h
  · rename_i hno
    rw [if_neg hno]
    by_contra hne
    exact hno ⟨h, Nat.pos_of_ne_zero hne⟩

theorem started_rx (w : World cfg σ) : (started env w).eng.rx = w.eng.rx := by
  rw [started]
  split
  · rw [transmit_eng]
    rfl
  · rfl

/-- It logs the start, writes and traces. -/
theorem started_growsBy (env : Env σ) {p : Event cfg → Prop} (hstart : ∀ e, p (.start e))
    (hwrite : ∀ site data n, p (.write site data n)) (htrace : ∀ data, p (.trace data))
    (w : World cfg σ) : GrowsBy p w.log (started env w).log := by
  rw [started]
  split
  · obtain ⟨evs, hsent, hlog⟩ := transmit_sent env w
    refine ⟨_, hlog, List.forall_mem_cons.mpr ⟨hstart _, ?_⟩⟩
    exact hsent.forall (hwrite _) (hwrite _) htrace
  · exact .refl _

/-! ## Callbacks -/

/-- Hooks of which only callbacks call the API, and cancel nothing. -/
def CallbacksOnly (k : HookKind) (c : ApiCall) : Prop := k = .completion ∧ NotCancelling k c

theorem Env.Respects.notCancelling (henv : env.Respects CallbacksOnly) :
    env.Respects NotCancelling :=
  fun inv s => (henv inv s).mono fun _ => And.right

/-- A handler makes no call. -/
theorem invoke_handler (henv : env.Respects CallbacksOnly) (n : Nat) (f : Ptr) (l : List UInt8)
    (u : Ptr) (w : World cfg σ) :
    invoke env (n + 1) (.handler f l u) w = quiet env (.handler f l u) w := by
  have hinv := henv (.handler f l u) w.app
  rw [invoke, quiet, Env.after]
  cases hh : env.hook (.handler f l u) w.app with
  | ret s => rfl
  | call c s k =>
    rw [hh] at hinv
    cases hinv.1.1

/-- What such a hook logs: its calls, and the commands it gets accepted. -/
def Event.aside : Event cfg → Bool
  | .nested .. | .accepted _ => true
  | _ => false

theorem Edits.log {w w' : World cfg σ} (h : Edits w w') :
    GrowsBy (fun ev => ev.aside) w.log w'.log := by
  refine h.invariant (I := fun v => GrowsBy (fun ev => ev.aside) w.log v.log)
    (fun v v' hv he => ?_) (.refl _)
  cases he with
  | nested | send => exact hv.concat rfl
  | app | feed | tick | register | deregister => exact hv

/-- A call that cancels nothing returns, whatever is nested below. -/
theorem apiCall_returns (hfit : cfg.Fits) {k : HookKind} {c : ApiCall} (hc : NotCancelling k c)
    (w : World cfg σ) : ∃ a w', ∀ invoke fuel, apiCall invoke fuel c w = some (a, w') := by
  cases c with
  | abort => exact absurd rfl hc.1
  | reset => exact absurd rfl hc.2
  | registerUrc pre cb user =>
    obtain ⟨r, hr⟩ := atRegisterUrc_isSome hfit pre cb user w.eng
    exact ⟨_, _, fun _ _ => Option.map_eq_some_iff.mpr ⟨r, hr, rfl⟩⟩
  | deregisterUrc pre =>
    obtain ⟨r, hr⟩ := atDeregisterUrc_isSome hfit pre w.eng
    exact ⟨_, _, fun _ _ => Option.map_eq_some_iff.mpr ⟨r, hr, rfl⟩⟩
  | send | feed | tick | state | queueDepth => exact ⟨_, _, fun _ _ => rfl⟩

/-- **A hook that cancels nothing returns**, and one level of nesting is enough
for it. -/
theorem invoke_returns (hfit : cfg.Fits) (henv : env.Respects NotCancelling) (inv : Invocation)
    (w : World cfg σ) : ∃ w', ∀ n, invoke env (n + 1) inv w = some w' := by
  obtain ⟨w', hw', -⟩ : ∃ w', invoke env 1 inv w = some w' ∧ True := by
    refine Interaction.run_total (I := fun _ => True) (fun _ _ _ => trivial)
      (fun c v hc _ => ?_) (henv inv w.app) trivial
    obtain ⟨a, v', hcall⟩ := apiCall_returns hfit hc (v.emit (.nested inv.kind c v.eng.state))
    exact ⟨a, v', hcall _ _, trivial⟩
  refine ⟨w', fun n => ?_⟩
  rw [← hw']
  refine Interaction.run_congr (fun c v hc => ?_) (henv inv w.app) w
  obtain ⟨a, v', hcall⟩ := apiCall_returns hfit hc (v.emit (.nested inv.kind c v.eng.state))
  rw [hcall, hcall]

/-- Hooks of which only callbacks call the API, to neither cancel nor feed. -/
def CallbacksAside (k : HookKind) (c : ApiCall) : Prop := CallbacksOnly k c ∧ ∀ data, c ≠ .feed data

/-- Code that feeds nothing and resets nothing leaves the ring alone. -/
theorem rx_upkeep : Upkeep CallbacksAside fun w w' : World cfg σ => w'.eng.rx = w.eng.rx where
  refl _ := rfl
  trans h h' := h'.trans h
  app _ _ := rfl
  nested _ _ _ _ _ := rfl
  feed _ _ data hc := absurd rfl (hc.2 data)
  send w d g hd := by
    obtain ⟨-, -, rfl⟩ := atSend_ok hd
    rfl
  tick _ _ _ := rfl
  table _ _ := rfl
  finalize w s c := by
    rw [World.fire_eng]
    rfl
  dequeue _ _ _ := rfl
  drainNotify w e := by rw [World.fire_eng]
  drainNext _ _ := rfl
  reset hreset := by
    obtain ⟨k, hk⟩ := hreset
    exact absurd rfl hk.1.2.2

/-! ## Completion -/

/-- The log of a completion of `e`: its callback is told the response, makes its
calls, and the command leaves the queue. -/
def Concludes (e : CmdEntry cfg) (r : Response) (evs : List (Event cfg)) : Prop :=
  ∃ C : List (Event cfg), evs = e.notice r ++ (C ++ [.completed e]) ∧ ∀ ev ∈ C, ev.aside

/-- **Completion** with a callback that cancels nothing. -/
theorem engineFinalize_callback (henv : env.Respects NotCancelling) {n : Nat} {s : AtResult}
    {c : Int} {w w' : World cfg σ} (h : engineFinalize (invoke env n) s c w = some w') :
    ∃ evs, w'.log = w.log ++ evs ∧
      Concludes (w.eng.queue w.eng.qTail) (finalResponse s c w.eng) evs := by
  obtain ⟨w₁, hn, hret⟩ := Option.bind_eq_some_iff.mp h
  obtain rfl := Option.some.inj hret
  rw [notify] at hn
  rw [World.emit_log, World.putEng_log]
  cases hcb : (w.eng.queue w.eng.qTail).cb with
  | none =>
    simp only [hcb] at hn
    obtain rfl := Option.some.inj hn
    exact ⟨_, rfl, [], by rw [CmdEntry.notice, hcb]; rfl, fun _ h => by cases h⟩
  | some f =>
    simp only [hcb] at hn
    obtain ⟨C, hC, haside⟩ := (invokeIf_follow henv (fun _ => True) n _ _ _ trivial hn).2.log
    rw [hC, World.emit_log, List.append_assoc, List.append_assoc]
    exact ⟨_, rfl, C, by rw [CmdEntry.notice, hcb], haside⟩

theorem engineFinalize_returns (hfit : cfg.Fits) (henv : env.Respects NotCancelling)
    (s : AtResult) (c : Int) (w : World cfg σ) :
    ∃ w', ∀ n, engineFinalize (invoke env (n + 1)) s c w = some w' := by
  obtain ⟨w₁, hw₁⟩ : ∃ w₁, ∀ n, notify (invoke env (n + 1)) (w.eng.queue w.eng.qTail)
      (finalResponse s c w.eng) (w.putEng (setResponse (finalResponse s c w.eng) w.eng)) =
        some w₁ := by
    simp only [notify]
    cases (w.eng.queue w.eng.qTail).cb with
    | none => exact ⟨_, fun _ => rfl⟩
    | some f => exact invoke_returns hfit henv _ _
  exact ⟨_, fun n => Option.bind_eq_some_iff.mpr ⟨w₁, hw₁ n, rfl⟩⟩

theorem engineFinalize_rx (henv : env.Respects CallbacksAside) {n : Nat} {s : AtResult} {c : Int}
    {w w' : World cfg σ} (h : engineFinalize (invoke env n) s c w = some w') :
    w'.eng.rx = w.eng.rx :=
  rx_upkeep.engineFinalize (rx_upkeep.hooks henv n) h

/-! ## Lines and bytes -/

/-- The line `l` is the final result of the active command. -/
structure Completes (g : Engine cfg) (l : List UInt8) (s : AtResult) (c : Int) : Prop where
  state : g.state = .waiting
  final : engineIsFinal l = some (s, c)
  noEcho : isEcho g l = false
  noPrompt : isPrompt g l = false

/-- A final result line completes the active command. -/
theorem Completes.dispatch {l : List UInt8} {s : AtResult} {c : Int} {w : World cfg σ}
    (h : Completes w.eng l s c) (invoke : Invocation → World cfg σ → Option (World cfg σ)) :
    engineDispatchLine invoke env l w =
      engineFinalize invoke s c (w.emit (.line .final l)) := by
  have hlen : ¬l.length = 0 := by
    intro h0
    obtain rfl := List.length_eq_zero_iff.mp h0
    have hfin := h.final
    simp [engineIsFinal, strcmpEq, strncmpEq, ascii] at hfin
  rw [engineDispatchLine, if_neg hlen, if_neg (by simp [h.noEcho]), if_neg (by simp [h.noPrompt]),
    if_pos h.state, h.final]

/-- Any other line does what it does with silent hooks. -/
theorem engineDispatchLine_callbacks (henv : env.Respects CallbacksOnly) (hwrite : env.Delivers)
    {l : List UInt8} {w : World cfg σ} (h : ∀ s c, ¬Completes w.eng l s c) (n : Nat) :
    engineDispatchLine (invoke env (n + 1)) env l w = engineDispatchLine (quiet env) env l w := by
  have hurc : urcDispatch (invoke env (n + 1)) l w = urcDispatch (quiet env) l w := by
    rw [urcDispatch, urcDispatch]
    refine Option.bind_congr fun m _ => ?_
    cases m with
    | none => rfl
    | some i => simp only [invoke_handler henv]
  rw [engineDispatchLine, engineDispatchLine, hurc]
  by_cases he : isEcho w.eng l = true
  · simp only [he, if_true]
  by_cases hp : isPrompt w.eng l = true
  · have hdone := answerPrompt_delivers hwrite (w.eng.queue w.eng.qTail)
      (w.emit (.line (.prompt true) l))
    rcases ha : answerPrompt env (w.eng.queue w.eng.qTail) (w.emit (.line (.prompt true) l)) with
      ⟨_ | _, v⟩ <;> rw [ha] at hdone
    · cases hdone
    · simp only [hp, if_true, ha]
  by_cases hs : w.eng.state = .waiting
  · cases hfin : engineIsFinal l with
    | none => simp only [if_neg he, if_neg hp, if_pos hs]
    | some r =>
      exact absurd ⟨hs, hfin, Bool.eq_false_iff.mpr he, Bool.eq_false_iff.mpr hp⟩ (h r.1 r.2)
  · simp only [if_neg he, if_neg hp, if_neg hs]

/-- What a byte does that completes no command. -/
inductive Passes (env : Env σ) (b : UInt8) (w : World cfg σ) : World cfg σ → Prop
  | more (g) : lfsmByte b w.eng = .more g → Passes env b w (w.putEng g)
  | line (l v) : lfsmByte b w.eng = .line l → (∀ s c, ¬Completes w.eng l s c) →
      Dispatches env l w v → Passes env b w (lineDone v)

theorem Passes.rx {b : UInt8} {w w' : World cfg σ} (h : Passes env b w w') :
    w'.eng.rx = w.eng.rx := by
  cases h with
  | more g hb =>
    obtain ⟨line, lfsm, rfl⟩ := lfsmByte_eq hb
    rfl
  | line l v _ _ hd => exact hd.rx

/-- An idle engine stays idle. -/
theorem Passes.idle {b : UInt8} {w w' : World cfg σ} (h : Passes env b w w')
    (hs : w.eng.state = .idle) : w'.eng.state = .idle := by
  cases h with
  | more g hb =>
    obtain ⟨line, lfsm, rfl⟩ := lfsmByte_eq hb
    exact hs
  | line l v _ _ hd =>
    cases hd with
    | empty | echo | urc => exact hs
    | ignored _ hp | answered _ _ hp | failed _ _ hp =>
      rw [isPrompt_waiting hp] at hs
      cases hs
    | final _ _ _ _ hw =>
      rw [hw] at hs
      cases hs
    | other =>
      obtain ⟨pool, response, heng⟩ := accumulate_eng l w
      change (accumulate l w).eng.state = _
      rw [heng]
      exact hs

/-- **A byte** completes the active command, or it does what it does with silent
hooks. -/
theorem processByte_cases (hfit : cfg.Fits) (henv : env.Respects CallbacksOnly)
    (hwrite : env.Delivers) (b : UInt8) (w : World cfg σ) :
    (∃ l s c, lfsmByte b w.eng = .line l ∧ Completes w.eng l s c) ∨
    ∃ w', Passes env b w w' ∧ ∀ n, processByte (invoke env (n + 1)) env b w = some w' := by
  cases hb : lfsmByte b w.eng with
  | more g => exact .inr ⟨_, .more g hb, fun n => by rw [processByte, hb]⟩
  | line l =>
    by_cases hfin : ∃ s c, Completes w.eng l s c
    · obtain ⟨s, c, hc⟩ := hfin
      exact .inl ⟨l, s, c, rfl, hc⟩
    · have hnot (s : AtResult) (c : Int) : ¬Completes w.eng l s c := fun hc => hfin ⟨s, c, hc⟩
      obtain ⟨v, hv, hd⟩ : ∃ v, engineDispatchLine (quiet env) env l w = some v ∧
        Dispatches env l w v := engineDispatchLine_quiet hfit l w
      refine .inr ⟨_, .line l v hb hnot hd, fun n => ?_⟩
      rw [processByte, hb]
      dsimp only
      rw [engineDispatchLine_callbacks henv hwrite hnot, hv]
      rfl

theorem Completes.processByte {b : UInt8} {l : List UInt8} {s : AtResult} {c : Int}
    {w : World cfg σ} (h : Completes w.eng l s c) (hb : lfsmByte b w.eng = .line l)
    (invoke : Invocation → World cfg σ → Option (World cfg σ)) :
    processByte invoke env b w =
      (engineFinalize invoke s c (w.emit (.line .final l))).map lineDone := by
  rw [LibAt.processByte, hb, ← h.dispatch invoke]

/-! ## `at_process` -/

/-- **The drain loop.** What each round preserves holds when it ends, with the
ring empty. -/
theorem drainRx_run {invoke : Invocation → World cfg σ → Option (World cfg σ)}
    {I : World cfg σ → Prop}
    (hround : ∀ w w' b rx, I w → rxringPop w.eng.rx = some (b, rx) →
      processByte invoke env b (w.putEng { w.eng with rx := rx }) = some w' → I w')
    {fuel : Nat} : ∀ {w w' : World cfg σ}, drainRx invoke env fuel w = some w' → I w →
      I w' ∧ rxringBytes w'.eng.rx = [] := by
  induction fuel with
  | zero => intro w w' h; cases h
  | succ fuel ih =>
    intro w w' h hw
    rw [drainRx] at h
    rcases hp : rxringPop w.eng.rx with _ | ⟨b, rx⟩ <;> rw [hp] at h
    · obtain rfl := Option.some.inj h
      exact ⟨hw, (rxringPop_none hp).1⟩
    · obtain ⟨v, hb, h⟩ := Option.bind_eq_some_iff.mp h
      exact ih h (hround w v b rx hw hp hb)

/-- The three steps of an `at_process` whose writes succeed. -/
theorem exec_process_steps (hwrite : env.Delivers) {fuel : Nat} {w w' : World cfg σ} {r : ApiRet}
    (h : exec env fuel .process w = some (r, w')) :
    ∃ n u v, fuel = n + 1 ∧ drainRx (invoke env (n + 1)) env (n + 1) w = some u ∧
      checkTimeout (invoke env (n + 1)) u = some v ∧ w' = started env v := by
  obtain ⟨w₁, hw₁, hret⟩ := Option.map_eq_some_iff.mp h
  obtain ⟨-, rfl⟩ := Prod.mk.inj hret
  obtain ⟨u, hu, hw₁⟩ := Option.bind_eq_some_iff.mp hw₁
  obtain ⟨v, hv, hw₁⟩ := Option.bind_eq_some_iff.mp hw₁
  cases fuel with
  | zero => cases hu
  | succ n =>
    rw [startIfIdle_delivers hwrite] at hw₁
    exact ⟨n, u, v, rfl, hu, hv, (Option.some.inj hw₁).symm⟩

/-- An idle engine with an empty ring starts the next command: the call returns. -/
theorem exec_process_idle (hwrite : env.Delivers) {w : World cfg σ} (hidle : w.eng.state = .idle)
    (hcount : 0 < w.eng.qCount) (hring : rxringEmpty w.eng.rx) :
    ∀ fuel, 0 < fuel → exec env fuel .process w = some (.unit, (transmit env w).2) := by
  intro fuel hfuel
  obtain ⟨n, rfl⟩ := Nat.exists_eq_succ_of_ne_zero (Nat.ne_of_gt hfuel)
  have hnone : rxringPop w.eng.rx = none := if_pos hring
  have hdrain : drainRx (invoke env (n + 1)) env (n + 1) w = some w := by rw [drainRx, hnone]
  have hcheck : checkTimeout (invoke env (n + 1)) w = some w := by
    rw [checkTimeout, if_neg (by simp [hidle])]
  refine Option.map_eq_some_iff.mpr ⟨_, ?_, rfl⟩
  refine Option.bind_eq_some_iff.mpr ⟨w, hdrain, Option.bind_eq_some_iff.mpr ⟨w, hcheck, ?_⟩⟩
  rw [startIfIdle_delivers hwrite, started, if_pos ⟨hidle, hcount⟩]

/-- What such a call leaves. -/
theorem exec_process_starts (hwrite : env.Delivers) {fuel : Nat} {w w' : World cfg σ} {r : ApiRet}
    (hidle : w.eng.state = .idle) (hcount : 0 < w.eng.qCount) (hring : rxringEmpty w.eng.rx)
    (h : exec env fuel .process w = some (r, w')) :
    w' = (transmit env w).2 ∧ rxringBytes w'.eng.rx = [] := by
  obtain ⟨n, u, v, rfl, hu, hcheck, rfl⟩ := exec_process_steps hwrite h
  have hnone : rxringPop w.eng.rx = none := if_pos hring
  rw [drainRx, hnone] at hu
  obtain rfl := Option.some.inj hu
  rw [checkTimeout, if_neg (by simp [hidle])] at hcheck
  obtain rfl := Option.some.inj hcheck
  refine ⟨if_pos ⟨hidle, hcount⟩, ?_⟩
  rw [started_rx]
  exact rxringEmpty_iff.mp hring

/-- `f` returns `w` with enough fuel, whatever the nesting depth is. -/
def Returns (f : Nat → Nat → Option (World cfg σ)) : Prop :=
  ∃ k w, ∀ n m, k < m → f n m = some w

/-- One more round of the drain loop. -/
theorem Returns.round {w v : World cfg σ} {b : UInt8} {rx : RxRing cfg}
    (hp : rxringPop w.eng.rx = some (b, rx))
    (hb : ∀ n, processByte (invoke env (n + 1)) env b (w.putEng { w.eng with rx := rx }) = some v)
    (h : Returns fun n m => drainRx (invoke env (n + 1)) env m v) :
    Returns fun n m => drainRx (invoke env (n + 1)) env m w := by
  obtain ⟨k, w', hw'⟩ := h
  refine ⟨k + 1, w', fun n m hm => ?_⟩
  obtain ⟨m, rfl⟩ := Nat.exists_eq_succ_of_ne_zero (Nat.ne_of_gt (Nat.zero_lt_of_lt hm))
  simp only [drainRx, hp]
  exact Option.bind_eq_some_iff.mpr ⟨v, hb n, hw' n m (Nat.lt_of_succ_lt_succ hm)⟩

/-- The last round. -/
theorem Returns.last {w : World cfg σ} (hp : rxringPop w.eng.rx = none) :
    Returns fun n m => drainRx (invoke env (n + 1)) env m w := by
  refine ⟨0, w, fun n m hm => ?_⟩
  obtain ⟨m, rfl⟩ := Nat.exists_eq_succ_of_ne_zero (Nat.ne_of_gt hm)
  simp only [drainRx, hp]

section

variable (hfit : cfg.Fits) (henv : env.Respects CallbacksOnly) (hwrite : env.Delivers)

include hfit henv hwrite

/-- The drain loop of an idle engine returns, as nothing is fed meanwhile. -/
theorem drainRx_idle (w : World cfg σ) (hs : w.eng.state = .idle) :
    Returns fun n m => drainRx (invoke env (n + 1)) env m w := by
  induction hk : rxringUsed w.eng.rx using Nat.strong_induction_on generalizing w with
  | _ k ih =>
  cases hp : rxringPop w.eng.rx with
  | none => exact .last hp
  | some r =>
    obtain ⟨b, rx⟩ := r
    have hused := rxringUsed_pop hp
    rcases processByte_cases hfit henv hwrite b (w.putEng { w.eng with rx := rx }) with
      ⟨l, s, c, -, hc⟩ | ⟨v, hpass, hv⟩
    · rw [show w.eng.state = .waiting from hc.state] at hs
      cases hs
    · have hrx : v.eng.rx = rx := hpass.rx
      exact .round hp hv (ih (rxringUsed v.eng.rx) (by rw [hrx]; omega) v (hpass.idle hs) rfl)

/-- The drain loop returns: a byte that calls a callback leaves the engine
idle. -/
theorem drainRx_callbacks (w : World cfg σ) :
    Returns fun n m => drainRx (invoke env (n + 1)) env m w := by
  induction hk : rxringUsed w.eng.rx using Nat.strong_induction_on generalizing w with
  | _ k ih =>
  cases hp : rxringPop w.eng.rx with
  | none => exact .last hp
  | some r =>
    obtain ⟨b, rx⟩ := r
    have hused := rxringUsed_pop hp
    rcases processByte_cases hfit henv hwrite b (w.putEng { w.eng with rx := rx }) with
      ⟨l, s, c, hb, hc⟩ | ⟨v, hpass, hv⟩
    · obtain ⟨v, hv⟩ := engineFinalize_returns hfit henv.notCancelling s c
        ((w.putEng { w.eng with rx := rx }).emit (.line .final l))
      have hidle : v.eng.state = .idle := engineFinalize_idle (hv 0)
      refine .round (v := lineDone v) hp (fun n => ?_)
        (drainRx_idle hfit henv hwrite (lineDone v) hidle)
      rw [hc.processByte hb, hv]
      rfl
    · have hrx : v.eng.rx = rx := hpass.rx
      exact .round hp hv (ih (rxringUsed v.eng.rx) (by rw [hrx]; omega) v rfl)

/-- **`at_process` returns**, with enough fuel. -/
theorem exec_process_returns (w : World cfg σ) :
    ∃ k w', ∀ fuel, k < fuel → exec env fuel .process w = some (.unit, w') := by
  obtain ⟨k, u, hu⟩ := drainRx_callbacks hfit henv hwrite w
  obtain ⟨v, hv⟩ : ∃ v, ∀ n, checkTimeout (invoke env (n + 1)) u = some v := by
    simp only [checkTimeout]
    split
    · exact engineFinalize_returns hfit henv.notCancelling .errTimeout 0 u
    · exact ⟨u, fun _ => rfl⟩
  refine ⟨k, started env v, fun fuel hfuel => ?_⟩
  obtain ⟨n, rfl⟩ := Nat.exists_eq_succ_of_ne_zero (Nat.ne_of_gt (Nat.zero_lt_of_lt hfuel))
  refine Option.map_eq_some_iff.mpr ⟨started env v, ?_, rfl⟩
  refine Option.bind_eq_some_iff.mpr ⟨u, hu n _ hfuel, ?_⟩
  exact Option.bind_eq_some_iff.mpr ⟨v, hv n, startIfIdle_delivers hwrite _ v⟩

end

end LibAt
