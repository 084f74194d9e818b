import LibAt.Completion
import LibAt.Twin

/-!
# A reset is a fresh start

Behind an `at_reset` the engine is alike to one that has just been initialised
and given the same URC table and trace hook (`atReset_fresh`), although its
queue may start anywhere and most other fields hold what they held. No later
sequence of calls can tell the two apart, and if nothing sends from inside an `at_reset`
all calls return (`reset_fresh`).
-/

namespace LibAt

variable {cfg : Config} {σ : Type}

/-! ## Sessions -/

/-- A call from the application: its private state when it calls, the
environment the call runs in, and the fuel. -/
structure Visit (σ : Type) where
  app : σ
  env : Env σ
  call : TopCall
  fuel : Nat

/-- Several calls: what they return, and the world behind them. -/
def session : List (Visit σ) → World cfg σ → Option (List ApiRet × World cfg σ)
  | [], w => some ([], w)
  | x :: xs, w => (exec x.env x.fuel x.call (w.putApp x.app)).bind fun r =>
      (session xs r.2).map fun q => (r.1 :: q.1, q.2)

/-- All that is seen of a session that began behind `past`: the returned values,
the private state, the log, `at_state()` and `at_queue_depth()`. -/
def observed (past : List (Event cfg)) (q : List ApiRet × World cfg σ) :
    List ApiRet × σ × List (Event cfg) × AtState × Nat :=
  (q.1, q.2.app, past ++ q.2.log, q.2.eng.state, q.2.eng.qCount)

/-- **A session** is the same for twins. -/
theorem session_twin (hfit : cfg.Fits) {past past' : List (Event cfg)} {xs : List (Visit σ)}
    (hxs : ∀ x ∈ xs, x.env.Respects SendsOnly) : ∀ {w w' : World cfg σ}, Twin past past' w w' →
      Option.Rel (fun q q' => q'.1 = q.1 ∧ Twin past past' q.2 q'.2) (session xs w)
        (session xs w') := by
  induction xs with
  | nil => exact fun h => .some ⟨rfl, h⟩
  | cons x xs ih =>
    intro w w' h
    obtain ⟨hx, hxs⟩ := List.forall_mem_cons.mp hxs
    refine rel_bind (exec_twin hfit hx x.fuel x.call (h.putApp x.app)) fun r r' hr => ?_
    refine rel_map (ih hxs hr.2) fun q q' hq => ⟨?_, hq.2⟩
    rw [hr.1, hq.1]

/-- With enough fuel, a session of calls that send at most returns. -/
theorem session_returns (hfit : cfg.Fits) {calls : List (σ × Env σ × TopCall)}
    (hcalls : ∀ c ∈ calls, SendingCall c.2.1 c.2.2) : ∀ {w : World cfg σ},
      Reachable (fun env _ => env.Respects SendsOnly) w →
      ∃ xs : List (Visit σ), xs.map (fun x => (x.app, x.env, x.call)) = calls ∧
        (session xs w).isSome := by
  induction calls with
  | nil => exact fun _ => ⟨[], rfl, rfl⟩
  | cons c calls ih =>
    intro w hw
    obtain ⟨hc, hcalls⟩ := List.forall_mem_cons.mp hcalls
    obtain ⟨fuel, r, w₁, hx⟩ := exec_returns hfit hc (w := w.putApp c.1) hw.count_lt
    obtain ⟨xs, rfl, hxs⟩ := ih hcalls (.step c.1 hw hc.1 hx)
    refine ⟨⟨c.1, c.2.1, c.2.2, fuel⟩ :: xs, rfl, ?_⟩
    rw [session, hx, Option.bind_some, Option.isSome_map]
    exact hxs

/-! ## Behind a reset -/

/-- A freshly initialised engine with the URC table and the trace hook of `g`. -/
def fresh (g : Engine cfg) : Engine cfg :=
  { atInit cfg with urcTable := g.urcTable, traceHook := g.traceHook }

/-- The drain loop leaves nothing in the queue. -/
theorem drainQueue_empty {invoke : Invocation → World cfg σ → Option (World cfg σ)} {fuel : Nat} :
    ∀ {w w' : World cfg σ}, drainQueue invoke fuel w = some w' → w'.eng.qCount = 0 := by
  induction fuel with
  | zero => intro w w' h; cases h
  | succ fuel ih =>
    intro w w' h
    rw [drainQueue] at h
    split at h
    · obtain ⟨w₁, -, h⟩ := Option.bind_eq_some_iff.mp h
      exact ih h
    · rename_i h0
      obtain rfl := Option.some.inj h
      omega

/-- **Behind a reset** the engine is alike to a fresh one. -/
theorem atReset_fresh {invoke : Invocation → World cfg σ → Option (World cfg σ)} {fuel : Nat}
    {w v : World cfg σ} (h : atReset invoke fuel w = some v) (hok : QueueOk v.eng) :
    Alike v.eng (fresh v.eng) := by
  obtain ⟨w₁, -, h⟩ := Option.bind_eq_some_iff.mp h
  obtain ⟨w₂, h₂, hret⟩ := Option.bind_eq_some_iff.mp h
  obtain rfl := Option.some.inj hret
  have hcount : w₂.eng.qCount = 0 := drainQueue_empty h₂
  exact {
    ok := hok
    ok' := ⟨Nat.zero_le _, (Circular.slot_zero _).symm, fun hne => absurd rfl hne⟩
    pending := by
      change [] = Circular.window w₂.eng.queue w₂.eng.qTail w₂.eng.qCount
      rw [hcount, Circular.window_zero]
    rx := ⟨rfl, rfl, fun i hi => absurd hi (by simp [resetState, rxringUsed])⟩
    state := rfl
    timer := fun hne => absurd rfl hne
    pool := rfl
    lfsm := rfl
    line := rfl
    urcTable := rfl
    echoArmed := rfl
    echo := fun hf => by cases hf
    traceHook := rfl }

/-- **Reset is a fresh start.** In a run whose hooks only send, let `at_reset`
return. From there and from a freshly initialised engine with the same URC table
and trace hook, every sequence of calls whose hooks only send is seen to do the
same: the same returned values, writes, callbacks and handler calls with the same
contents in the same order, `at_state()` and `at_queue_depth()`. And it is seen to do
something: if no hook sends from inside an `at_reset`, all of the calls return. -/
theorem reset_fresh (hfit : cfg.Fits) {w v : World cfg σ}
    (hw : Reachable (fun env _ => env.Respects SendsOnly) w) {env : Env σ}
    (henv : env.Respects SendsOnly) {s : σ} {fuel : Nat} {r : ApiRet}
    (hreset : exec env fuel (.api .reset) (w.putApp s) = some (r, v)) :
    (∀ xs : List (Visit σ), (∀ x ∈ xs, x.env.Respects SendsOnly) →
      (session xs v).map (observed []) =
        (session xs ⟨fresh v.eng, v.app, []⟩).map (observed v.log)) ∧
    ∀ calls : List (σ × Env σ × TopCall), (∀ c ∈ calls, SendingCall c.2.1 c.2.2) →
      ∃ xs : List (Visit σ), xs.map (fun x => (x.app, x.env, x.call)) = calls ∧
        (session xs v).isSome := by
  have hv : Reachable (fun env _ => env.Respects SendsOnly) v := .step s hw henv hreset
  have hok : QueueOk v.eng := (hv.lifecycle hfit (hv.not_cancelled fun _ _ h => h)).queue
  refine ⟨fun xs hxs => ?_, fun calls hcalls => session_returns hfit hcalls hv⟩
  obtain ⟨v', hv', hret⟩ := Option.map_eq_some_iff.mp hreset
  obtain ⟨-, rfl⟩ := Prod.mk.inj hret
  have htwin : Twin v'.log [] v' ⟨fresh v'.eng, v'.app, []⟩ :=
    ⟨atReset_fresh hv' hok, rfl, [], (List.append_nil _).symm, rfl⟩
  have hsession := session_twin hfit hxs htwin
  generalize session xs v' = x at hsession ⊢
  generalize session xs ⟨fresh v'.eng, v'.app, []⟩ = y at hsession ⊢
  cases hsession with
  | none => rfl
  | some h =>
    obtain ⟨hret, htwin⟩ := h
    obtain ⟨evs, hlog, hlog'⟩ := htwin.log
    simp only [Option.map_some, observed, hret, htwin.app, htwin.eng.state, htwin.eng.qCount, hlog,
      hlog', List.nil_append]

/-- `probe`, answered with `OK`. -/
def probeVisits : List (Visit Unit) :=
  [.api (.send (some probe)), .process, .api (.feed (ascii "OK\r\n")), .process].map
    fun call => ⟨(), followUpEnv, call, 16⟩

/-- Behind two commands and a reset the queue starts at the third slot, and the
copy of an echo is left over. -/
theorem reset_fresh_rotated : ∃ v : World Config.default Unit,
    v.eng.qTail.val = 2 ∧ v.eng.echoLen = 2 ∧
      (session probeVisits v).map (observed []) =
        (session probeVisits ⟨fresh v.eng, v.app, []⟩).map (observed v.log) := by
  obtain ⟨w, hw, hp⟩ := Reachable.of_execAll (P := fun env _ => env.Respects SendsOnly)
    followUpEnv 16
    [.api (.send (some probe)), .process, .api (.feed (ascii "OK\r\n")), .process]
    () (fun _ => followUpEnv_sendsOnly)
    (fun w : World Config.default Unit => (exec followUpEnv 16 (.api .reset) (w.putApp ())).any
      fun a : ApiRet × World _ _ => decide (a.2.eng.qTail.val = 2 ∧ a.2.eng.echoLen = 2)) (by decide +kernel)
  obtain ⟨⟨r, v⟩, hreset, hv⟩ := (Option.any_eq_true _ _).mp hp
  obtain ⟨htail, hlen⟩ := of_decide_eq_true hv
  refine ⟨v, htail, hlen,
    (reset_fresh Config.default_fits hw followUpEnv_sendsOnly hreset).1 _ ?_⟩
  intro x hx
  obtain ⟨call, -, rfl⟩ := List.mem_map.mp hx
  exact followUpEnv_sendsOnly

end LibAt
