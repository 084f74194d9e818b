import LibAt.Discipline
import LibAt.Exchange

/-!
# What a callback can rely on

Each call of a completion callback, in any run, is explained by the log before it.
The reason of the status is its last entry (`Explains`): the line that is a final
result with this status and this code, or the write that was short; a timeout and
an abort have no code. This holds whatever the hooks do (`Reachable.explained`),
because every place that completes a command has just logged its reason.

The response is well formed in every run as well (`Reachable.sized`).

If no completion callback cancels, the call is also about the right command
(`AboutOldest`): the oldest one not completed, with its own user pointer, and, unless
the command was drained unsent, with the lines received since it was transmitted.
-/

namespace LibAt

variable {cfg : Config} {σ : Type}

/-! ## Callback calls in a log -/

/-- Every callback call in the log stands in the relation `p` to what is before it. -/
def EachCall (p : List (Event cfg) → Ptr → Ptr → Response → Prop) (log : List (Event cfg)) : Prop :=
  ∀ P f u r Q, log = P ++ .fired f u r :: Q → p P f u r

section

variable {p : List (Event cfg) → Ptr → Ptr → Response → Prop} {log log' : List (Event cfg)}

theorem eachCall_nil : EachCall p [] := fun P f u r Q h => by simp at h

/-- Other entries make no difference. -/
theorem EachCall.growsBy (h : EachCall p log)
    (hlog : GrowsBy (fun ev => ∀ f u r, ev ≠ .fired f u r) log log') : EachCall p log' := by
  obtain ⟨evs, rfl, hevs⟩ := hlog
  intro P f u r Q heq
  rcases append_split heq with ⟨Q', rfl⟩ | ⟨E, -, rfl⟩
  · exact h P f u r Q' rfl
  · exact absurd rfl (hevs (.fired f u r) (by simp) f u r)

/-- One more entry that is no callback call. -/
theorem EachCall.emit {w : World cfg σ} (h : EachCall p w.log) {ev : Event cfg}
    (hev : ∀ f u r, ev ≠ .fired f u r) : EachCall p (w.emit ev).log :=
  h.growsBy ⟨[ev], rfl, by simpa using hev⟩

/-- One more callback call. -/
theorem EachCall.fire {w : World cfg σ} (h : EachCall p w.log) {e : CmdEntry cfg} {r : Response}
    (hr : ∀ f u, e.note = some (f, u) → p w.log f u r) : EachCall p (w.fire e r).log := by
  rw [World.fire]
  cases hcb : e.cb with
  | none => exact h
  | some f =>
    intro P f' u' r' Q heq
    rcases append_split heq with ⟨Q', hP⟩ | ⟨E, rfl, hE⟩
    · exact h P f' u' r' Q' hP
    · obtain ⟨rfl, hE⟩ : E = [] ∧ _ := by
        cases E with
        | nil => exact ⟨rfl, hE⟩
        | cons => simp at hE
      obtain ⟨rfl, rfl, rfl⟩ := Event.fired.inj (List.cons.inj hE).1
      rw [List.append_nil]
      exact hr f e.user (by rw [CmdEntry.note, hcb]; rfl)

end

/-! ## Reasons -/

/-- The end of the log is the reason for completing a command with the status `s` and
the code `c`. -/
def Explains (P : List (Event cfg)) (s : AtResult) (c : Int) : Prop :=
  match s with
  | .ok | .errGeneric | .errCme | .errCms =>
    ∃ P' l, P = P' ++ [.line .final l] ∧ engineIsFinal l = some (s, c)
  | .errIo => c = 0 ∧ ∃ P' site data n, P = P' ++ [.write site data n] ∧ n ≠ data.length
  | .errTimeout | .errAborted => c = 0
  | .errBusy | .errParam | .errOverflow | .pending => False

/-- A final result line explains what it says. -/
theorem explains_final {l : List UInt8} {s : AtResult} {c : Int}
    (h : engineIsFinal l = some (s, c)) (P : List (Event cfg)) :
    Explains (P ++ [.line .final l]) s c := by
  have hs : FinalStatus s := engineIsFinal_status h
  have hne : s ≠ .errIo ∧ s ≠ .errTimeout ∧ s ≠ .errAborted := by
    rw [engineIsFinal] at h
    repeat' split at h
    all_goals first
      | (obtain ⟨rfl, -⟩ := Prod.mk.inj (Option.some.inj h); decide)
      | cases h
  cases s with
  | ok | errGeneric | errCme | errCms => exact ⟨P, l, rfl, h⟩
  | errIo => exact absurd rfl hne.1
  | errTimeout => exact absurd rfl hne.2.1
  | errAborted => exact absurd rfl hne.2.2
  | errBusy | errParam | errOverflow | pending => exact absurd hs (by decide)

/-- Where a pair of writes stopped. -/
theorem SentPair.short {hook : Bool} {site₁ site₂ : WriteSite} {data : List UInt8} {term : UInt8}
    {evs : List (Event cfg)} (h : SentPair hook site₁ site₂ data [term] false evs) :
    ∃ before site data' n, evs = before ++ [.write site data' n] ∧ n ≠ data'.length := by
  cases h with
  | shortData n hn => exact ⟨[], _, _, n, rfl, hn⟩
  | shortTerm n hn => exact ⟨[_], _, _, n, rfl, hn⟩

/-- A write that was short explains `AT_ERR_IO`. -/
theorem SentPair.explains {hook : Bool} {site₁ site₂ : WriteSite} {data : List UInt8}
    {term : UInt8} {evs P log : List (Event cfg)}
    (h : SentPair hook site₁ site₂ data [term] false evs) (hlog : log = P ++ evs) :
    Explains log .errIo 0 := by
  obtain ⟨before, site, data', n, rfl, hn⟩ := h.short
  exact ⟨rfl, P ++ before, site, data', n, by rw [hlog, List.append_assoc], hn⟩

/-- All callback calls so far had a reason. -/
abbrev Explained (log : List (Event cfg)) : Prop :=
  EachCall (fun P _ _ r => Explains P r.status r.errorCode) log

/-- Foreign code makes no unexplained calls. -/
def InvokeExplains (invoke : Invocation → World cfg σ → Option (World cfg σ)) : Prop :=
  ∀ inv w w', Explained w.log → invoke inv w = some w' → Explained w'.log

section

variable {invoke : Invocation → World cfg σ → Option (World cfg σ)} {env : Env σ}
  {w w' : World cfg σ} (hinv : InvokeExplains invoke)

include hinv

theorem Explained.notify {e : CmdEntry cfg} {r : Response} (hw : Explained w.log)
    (hr : Explains w.log r.status r.errorCode) (h : notify invoke e r w = some w') :
    Explained w'.log := by
  have hfire : Explained (w.fire e r).log := hw.fire fun _ _ _ => hr
  rw [LibAt.notify] at h
  rw [World.fire] at hfire
  cases hcb : e.cb with
  | none =>
    rw [hcb] at h
    obtain rfl := Option.some.inj h
    exact hw
  | some f =>
    rw [hcb] at h hfire
    exact hinv _ _ _ hfire h

theorem Explained.engineFinalize {s : AtResult} {c : Int} (hw : Explained w.log)
    (hr : Explains w.log s c) (h : engineFinalize invoke s c w = some w') :
    Explained w'.log := by
  obtain ⟨w₁, hn, hret⟩ := Option.bind_eq_some_iff.mp h
  obtain rfl := Option.some.inj hret
  have hw₁ : Explained w₁.log := Explained.notify hinv (r := finalResponse s c w.eng)
    (w := w.putEng (setResponse (finalResponse s c w.eng) w.eng)) hw hr hn
  exact EachCall.emit (w := w₁.putEng _) hw₁ (by simp)

theorem Explained.engineStartNext (hw : Explained w.log)
    (h : engineStartNext invoke env w = some w') : Explained w'.log := by
  obtain ⟨evs, hsent, hlog⟩ := transmit_sent env w
  have hquiet : Explained (transmit env w).2.log :=
    hw.growsBy ⟨_, hlog, List.forall_mem_cons.mpr
      ⟨by simp, hsent.forall (by simp) (by simp) (by simp)⟩⟩
  rw [LibAt.engineStartNext] at h
  rcases ht : transmit env w with ⟨_ | _, w₁⟩ <;> rw [ht] at h hquiet hsent hlog
  · have hlog' : w₁.log = (w.log ++ [.start (w.eng.queue w.eng.qTail)]) ++ evs := by
      simpa using hlog
    exact Explained.engineFinalize hinv hquiet (hsent.explains hlog') h
  · obtain rfl := Option.some.inj h
    exact hquiet

/-! ### Lines -/

theorem Explained.urcDispatch {l : List UInt8} (hw : Explained w.log)
    (h : (urcDispatch invoke l w).map (fun r => if r.1 then r.2 else accumulate l r.2) = some w') :
    Explained w'.log := by
  obtain ⟨⟨taken, w₁⟩, hu, hret⟩ := Option.map_eq_some_iff.mp h
  obtain ⟨m, hm, hr⟩ := Option.bind_eq_some_iff.mp hu
  cases m with
  | none =>
    obtain ⟨rfl, rfl⟩ := Prod.mk.inj (Option.some.inj hr)
    obtain rfl : accumulate l w = w' := hret
    exact hw.growsBy ⟨_, accumulate_log l w, by simp⟩
  | some i =>
    obtain ⟨w₂, hi, hr⟩ := Option.bind_eq_some_iff.mp hr
    obtain ⟨rfl, rfl⟩ := Prod.mk.inj (Option.some.inj hr)
    obtain rfl : w₂ = w' := hret
    exact hinv _ _ _ ((hw.emit (by simp)).emit (by simp)) hi

theorem Explained.engineDispatchLine {l : List UInt8} (hw : Explained w.log)
    (h : engineDispatchLine invoke env l w = some w') : Explained w'.log := by
  rw [LibAt.engineDispatchLine] at h
  by_cases h0 : l.length = 0
  · rw [if_pos h0] at h
    obtain rfl := Option.some.inj h
    exact hw
  rw [if_neg h0] at h
  by_cases he : isEcho w.eng l = true
  · rw [if_pos he] at h
    obtain rfl := Option.some.inj h
    exact EachCall.emit (w := w.putEng _) hw (by simp)
  rw [if_neg he] at h
  by_cases hp : isPrompt w.eng l = true
  · rw [if_pos hp] at h
    dsimp only at h
    split at h
    · -- an answer that is cut short is the reason for `AT_ERR_IO`
      have hw₀ : Explained (w.emit (.line (.prompt true) l)).log := hw.emit (by simp)
      obtain ⟨evs, hsent, hlog⟩ := answerPrompt_sent env (w.eng.queue w.eng.qTail)
        (w.emit (.line (.prompt true) l))
      have hquiet := hw₀.growsBy ⟨evs, hlog, hsent.forall (by simp) (by simp) (by simp)⟩
      rcases ha : answerPrompt env (w.eng.queue w.eng.qTail)
          (w.emit (.line (.prompt true) l)) with ⟨_ | _, w₁⟩ <;> rw [ha] at h hquiet hsent hlog
      · exact Explained.engineFinalize hinv hquiet (hsent.explains hlog) h
      · obtain rfl := Option.some.inj h
        exact hquiet
    · obtain rfl := Option.some.inj h
      exact hw.emit (by simp)
  rw [if_neg hp] at h
  split at h
  · rename_i s c hfin
    have hfinal : engineIsFinal l = some (s, c) := by
      split at hfin
      · exact hfin
      · cases hfin
    exact Explained.engineFinalize hinv (hw.emit (by simp)) (explains_final hfinal w.log) h
  · exact Explained.urcDispatch hinv hw h

theorem Explained.drainRx {fuel : Nat} : ∀ {w : World cfg σ}, Explained w.log →
    drainRx invoke env fuel w = some w' → Explained w'.log := by
  induction fuel with
  | zero => intro w _ h; cases h
  | succ fuel ih =>
    intro w hw h
    rw [LibAt.drainRx] at h
    rcases hp : rxringPop w.eng.rx with _ | ⟨b, rx⟩ <;> rw [hp] at h
    · obtain rfl := Option.some.inj h
      exact hw
    · obtain ⟨w₁, hb, h⟩ := Option.bind_eq_some_iff.mp h
      refine ih ?_ h
      rw [processByte] at hb
      split at hb
      · obtain rfl := Option.some.inj hb
        exact hw
      · obtain ⟨w₂, hd, rfl⟩ := Option.map_eq_some_iff.mp hb
        have hw₂ : Explained w₂.log :=
          Explained.engineDispatchLine hinv (w := w.putEng { w.eng with rx := rx }) hw hd
        exact hw₂

theorem Explained.atProcess {fuel : Nat} (hw : Explained w.log)
    (h : atProcess invoke env fuel w = some w') : Explained w'.log := by
  obtain ⟨w₁, h₁, h⟩ := Option.bind_eq_some_iff.mp h
  obtain ⟨w₂, h₂, h₃⟩ := Option.bind_eq_some_iff.mp h
  have hw₁ : Explained w₁.log := Explained.drainRx hinv hw h₁
  have hw₂ : Explained w₂.log := by
    rw [checkTimeout] at h₂
    split at h₂
    · exact Explained.engineFinalize hinv (s := .errTimeout) (c := 0) hw₁ rfl h₂
    · obtain rfl := Option.some.inj h₂
      exact hw₁
  rw [startIfIdle] at h₃
  split at h₃
  · exact Explained.engineStartNext hinv hw₂ h₃
  · obtain rfl := Option.some.inj h₃
    exact hw₂

/-! ### `at_abort` and `at_reset` -/

theorem Explained.atAbort (hw : Explained w.log) (h : atAbort invoke w = some w') :
    Explained w'.log := by
  rw [LibAt.atAbort] at h
  split at h
  · exact Explained.engineFinalize hinv (s := .errAborted) (c := 0) hw rfl h
  · obtain rfl := Option.some.inj h
    exact hw

theorem Explained.drainQueue {fuel : Nat} : ∀ {w : World cfg σ}, Explained w.log →
    drainQueue invoke fuel w = some w' → Explained w'.log := by
  induction fuel with
  | zero => intro w _ h; cases h
  | succ fuel ih =>
    intro w hw h
    rw [LibAt.drainQueue] at h
    split at h
    · obtain ⟨w₁, hd, h⟩ := Option.bind_eq_some_iff.mp h
      obtain ⟨w₂, hn, hret⟩ := Option.bind_eq_some_iff.mp hd
      obtain rfl := Option.some.inj hret
      have hw₂ : Explained w₂.log := Explained.notify hinv (r := abortedResponse) hw rfl hn
      exact ih (hw₂.growsBy ⟨[.completed _], rfl, by simp⟩) h
    · obtain rfl := Option.some.inj h
      exact hw

theorem Explained.atReset {fuel : Nat} (hw : Explained w.log)
    (h : atReset invoke fuel w = some w') : Explained w'.log := by
  obtain ⟨w₁, h₁, h⟩ := Option.bind_eq_some_iff.mp h
  obtain ⟨w₂, h₂, hret⟩ := Option.bind_eq_some_iff.mp h
  obtain rfl := Option.some.inj hret
  have hw₁ : Explained w₁.log := by
    rw [abortActive] at h₁
    split at h₁
    · exact Explained.engineFinalize hinv (s := .errAborted) (c := 0) hw rfl h₁
    · obtain rfl := Option.some.inj h₁
      exact hw
  have hw₂ : Explained w₂.log := Explained.drainQueue hinv hw₁ h₂
  exact hw₂

theorem Explained.apiCall {fuel : Nat} {c : ApiCall} {r : ApiRet} (hw : Explained w.log)
    (h : apiCall invoke fuel c w = some (r, w')) : Explained w'.log := by
  cases c with
  | send desc =>
    obtain ⟨-, rfl⟩ := Prod.mk.inj (Option.some.inj h)
    change Explained (w.send desc).2.log
    rcases w.send_cases desc with hsend | ⟨d, g, -, hsend⟩
    · rw [hsend]
      exact hw
    · rw [hsend]
      exact EachCall.emit (w := w.putEng g) hw (by simp)
  | abort =>
    obtain ⟨w₁, h₁, hret⟩ := Option.map_eq_some_iff.mp h
    obtain ⟨-, rfl⟩ := Prod.mk.inj hret
    exact Explained.atAbort hinv hw h₁
  | reset =>
    obtain ⟨w₁, h₁, hret⟩ := Option.map_eq_some_iff.mp h
    obtain ⟨-, rfl⟩ := Prod.mk.inj hret
    exact Explained.atReset hinv hw h₁
  | registerUrc | deregisterUrc =>
    obtain ⟨_, -, hret⟩ := Option.map_eq_some_iff.mp h
    obtain ⟨-, rfl⟩ := Prod.mk.inj hret
    exact hw
  | feed | tick | state | queueDepth =>
    obtain ⟨-, rfl⟩ := Prod.mk.inj (Option.some.inj h)
    exact hw

end

/-- Hooks make no unexplained calls, however deep they nest. -/
theorem invoke_explains (env : Env σ) (n : Nat) :
    InvokeExplains (fun inv (w : World cfg σ) => invoke env n inv w) := by
  induction n with
  | zero => exact fun _ _ _ _ h => by cases h
  | succ n ih =>
    intro inv w w' hw h
    change invoke env (n + 1) inv w = some w' at h
    rw [invoke] at h
    refine Interaction.run_invariant (I := fun v : World cfg σ => Explained v.log)
      (fun s v hv => by exact hv)
      (fun c v a v' _ hc hv => ?_) ((env.hook inv w.app).uses_true) h hw
    exact Explained.apiCall ih (hv.emit (by simp)) hc

/-- **Every status has its reason**, in every run, whatever the hooks do. -/
theorem Reachable.explained {P : Env σ → TopCall → Prop} {w : World cfg σ} (h : Reachable P w) :
    Explained w.log := by
  induction h with
  | init s => exact eachCall_nil
  | @step w w' env call fuel r s _ _ hx ih =>
    have hinv : InvokeExplains fun inv (v : World cfg σ) => invoke env fuel inv v :=
      invoke_explains env fuel
    cases call with
    | api c => exact Explained.apiCall hinv (w := w.putApp s) ih hx
    | process =>
      obtain ⟨w₁, h₁, hret⟩ := Option.map_eq_some_iff.mp hx
      obtain ⟨-, rfl⟩ := Prod.mk.inj hret
      exact Explained.atProcess hinv (w := w.putApp s) ih h₁
    | setTraceHook hook =>
      obtain ⟨-, rfl⟩ := Prod.mk.inj (Option.some.inj hx)
      exact ih
    | deinit =>
      obtain ⟨w₁, h₁, hret⟩ := Option.map_eq_some_iff.mp hx
      obtain ⟨-, rfl⟩ := Prod.mk.inj hret
      have hw₁ : Explained w₁.log := Explained.atReset hinv (w := w.putApp s) ih h₁
      exact hw₁

/-! ## Calls -/

/-- What calls a callback: `engine_finalize` for the active command, and the drain loop
of `at_reset` for the oldest one. -/
theorem Transition.calls {allowed : HookKind → ApiCall → Prop} {s t : Snapshot cfg σ}
    (ht : Transition allowed s t) :
    GrowsBy (fun ev => ∀ f u r, ev ≠ .fired f u r) s.2.log t.2.log ∨
    (s.2.eng.state ≠ .idle ∧ ∃ status c, t.2.log = (s.2.fire (s.2.eng.queue s.2.eng.qTail)
      (finalResponse status c s.2.eng)).log) ∨
    (∃ st, s.1 = .draining :: st ∧ 0 < s.2.eng.qCount ∧
      t.2.log = (s.2.fire (s.2.eng.queue s.2.eng.qTail) abortedResponse).log) := by
  have hq : GrowsBy (fun ev : Event cfg => ∀ f u r, ev ≠ .fired f u r) s.2.log s.2.log := .refl _
  cases ht with
  | nested | send | echo | promptIgnored | final | dequeue | drainNext =>
    exact .inl (hq.concat (by simp))
  | urc => exact .inl ((hq.concat (by simp)).concat (by simp))
  | accumulate w l =>
    rw [accumulate_log]
    exact .inl (hq.concat (by simp))
  | promptAnswered w l env =>
    exact .inl ((hq.concat (by simp)).trans (answerPrompt_growsBy (by simp) (by simp) env _ _))
  | transmit w env =>
    obtain ⟨evs, hsent, hlog⟩ := transmit_sent env w
    refine .inl ⟨_, hlog, List.forall_mem_cons.mpr ⟨by simp, ?_⟩⟩
    exact hsent.forall (by simp) (by simp) (by simp)
  | finalize st w status errCode hs =>
    refine .inr (.inl ⟨hs, status, errCode, ?_⟩)
    rw [World.fire_log, World.fire_log]
    rfl
  | drainNotify st w h0 => exact .inr (.inr ⟨st, rfl, h0, rfl⟩)
  | _ => exact .inl hq

/-- **Step.** What holds of the two ways to call a callback holds of every call. -/
theorem EachCall.step {p : List (Event cfg) → Ptr → Ptr → Response → Prop}
    {allowed : HookKind → ApiCall → Prop} {s t : Snapshot cfg σ} (ht : Transition allowed s t)
    (hfinal : s.2.eng.state ≠ .idle → ∀ status c f u,
      (s.2.eng.queue s.2.eng.qTail).note = some (f, u) →
        p s.2.log f u (finalResponse status c s.2.eng))
    (hdrain : ∀ st, s.1 = .draining :: st → 0 < s.2.eng.qCount → ∀ f u,
      (s.2.eng.queue s.2.eng.qTail).note = some (f, u) → p s.2.log f u abortedResponse)
    (h : EachCall p s.2.log) : EachCall p t.2.log := by
  rcases ht.calls with hq | ⟨hs, status, c, hlog⟩ | ⟨st, hst, h0, hlog⟩
  · exact h.growsBy hq
  · rw [hlog]
    exact h.fire (hfinal hs status c)
  · rw [hlog]
    exact h.fire (hdrain st hst h0)

/-! ## The lines -/

/-- A response has as many lines as it says, and no more than the pool. -/
def Response.Sized (cfg : Config) (r : Response) : Prop :=
  r.numLines = r.lines.length ∧ r.numLines ≤ cfg.respLinesMax

theorem Collecting.sized {w : World cfg σ} (h : Collecting w) (s : AtResult) (c : Int) :
    (finalResponse s c w.eng).Sized cfg := by
  have hcount := h.count_le
  exact ⟨by simp [finalResponse, RespPool.lines, hcount], hcount⟩

/-- **Every response is well formed**, in every run. -/
theorem Reachable.sized (hfit : cfg.Fits) {P : Env σ → TopCall → Prop} {w : World cfg σ}
    (h : Reachable P w) : EachCall (fun _ _ _ r => r.Sized cfg) w.log := by
  obtain ⟨s, hs⟩ := h.steps_any
  refine (hs.invariant (I := fun t => Collecting t.2 ∧ EachCall (fun _ _ _ r => r.Sized cfg) t.2.log)
    (fun s t ht ih => ⟨ih.1.step hfit ht, ?_⟩)
    ⟨⟨Nat.zero_le _, Nat.zero_le _, fun hne => absurd rfl hne, by simp [SeesFirstLines]⟩,
      eachCall_nil⟩).2
  exact EachCall.step ht (fun _ status c _ _ _ => ih.1.sized status c)
    (fun _ _ _ _ _ _ => ⟨rfl, Nat.zero_le _⟩) ih.2

/-! ## The command -/

/-- No command has been started that is not done. -/
def NoneStarted (P : List (Event cfg)) : Prop :=
  ∀ A e B, P = A ++ .start e :: B → completions B ≠ []

/-- The callback is called for the oldest command that is not done, with its user
pointer, and with the first lines received since the command was transmitted, or, when
it is drained before it was, with none. -/
def AboutOldest (P : List (Event cfg)) (f u : Ptr) (r : Response) : Prop :=
  ∃ e : CmdEntry cfg, e.note = some (f, u) ∧
    completions P ++ [e] <+: (acceptances P).map (cmdEntryOf cfg) ∧
    ((r = abortedResponse ∧ NoneStarted P) ∨
      ∃ A B, P = A ++ .start e :: B ∧ (∀ e', .start e' ∉ B) ∧
        r.lines = (payloads B).take cfg.respLinesMax)

theorem NoneStarted.growsBy {log log' : List (Event cfg)} (h : NoneStarted log)
    (hlog : GrowsBy (fun ev => ∀ e, ev ≠ .start e) log log') : NoneStarted log' := by
  obtain ⟨evs, rfl, hevs⟩ := hlog
  intro A e B heq
  rcases append_split heq with ⟨Q, hlog⟩ | ⟨E, -, rfl⟩
  · obtain rfl : B = Q ++ evs := by
      rw [hlog, List.append_assoc, List.cons_append] at heq
      exact (List.cons.inj (List.append_cancel_left heq)).2.symm
    rw [completions_append]
    exact List.append_ne_nil_of_left_ne_nil (h A e Q hlog) _
  · exact absurd rfl (hevs _ (by simp) e)

/-- Behind a completion. -/
theorem noneStarted_completed (log : List (Event cfg)) (e : CmdEntry cfg) :
    NoneStarted (log ++ [.completed e]) := by
  intro A e' B heq
  rcases append_split heq with ⟨Q, hlog⟩ | ⟨E, -, hE⟩
  · rw [hlog, List.append_assoc, List.cons_append] at heq
    rw [← (List.cons.inj (List.append_cancel_left heq)).2, completions_append]
    exact List.append_ne_nil_of_right_ne_nil _ (by simp [completions])
  · cases E <;> simp at hE

/-- **Step.** An idle engine has started nothing that is not done. -/
theorem noneStarted_step {allowed : HookKind → ApiCall → Prop} {s t : Snapshot cfg σ}
    (ht : Transition allowed s t) (hlife : Lifecycle s)
    (h : s.2.eng.state = .idle → NoneStarted s.2.log) :
    t.2.eng.state = .idle → NoneStarted t.2.log := by
  intro hidle
  have hq : GrowsBy (fun ev : Event cfg => ∀ e, ev ≠ .start e) s.2.log s.2.log := .refl _
  cases ht with
  | app | feed | traceHook | pop | lineDone | drain => exact h hidle
  | nested | echo | promptIgnored | final => exact (h hidle).growsBy (hq.concat (by simp))
  | urc => exact (h hidle).growsBy ((hq.concat (by simp)).concat (by simp))
  | dequeue | drainNext => exact noneStarted_completed _ _
  | send st w d g hd =>
    obtain ⟨-, -, rfl⟩ := atSend_ok hd
    exact (h hidle).growsBy (hq.concat (by simp))
  | tick st w ms =>
    obtain ⟨n, hn⟩ := atTick_eq ms w.eng
    rw [hn] at hidle ⊢
    exact h hidle
  | register st w pre cb user r g hr =>
    obtain ⟨table, rfl⟩ := atRegisterUrc_eq hr
    exact h hidle
  | deregister st w pre r g hr =>
    obtain ⟨table, rfl⟩ := atDeregisterUrc_eq hr
    exact h hidle
  | byte w b g hb =>
    obtain ⟨line, lfsm, rfl⟩ := lfsmByte_eq hb
    exact h hidle
  | promptAnswered w l env =>
    rw [answerPrompt_eng] at hidle
    dsimp only at hidle
    split at hidle <;> cases hidle
  | accumulate w l =>
    obtain ⟨pool, response, heng⟩ := accumulate_eng l w
    rw [heng] at hidle
    refine (h hidle).growsBy ?_
    rw [accumulate_log]
    exact hq.concat (by simp)
  | transmit w env =>
    rw [transmit_eng] at hidle
    dsimp only at hidle
    split at hidle <;> cases hidle
  | finalize st w status errCode hs =>
    rw [World.fire_eng] at hidle
    exact absurd hidle hs
  | drainNotify st w =>
    rw [World.fire_eng] at hidle
    refine (h hidle).growsBy ⟨_, World.fire_log _ _ _, fun ev hev e' heq => ?_⟩
    rw [CmdEntry.notice] at hev
    split at hev <;> simp [heq] at hev
  | deinit w hs => exact h hs
  | reset st w h0 =>
    have hs : w.eng.state = .idle := by
      by_contra hne
      have := hlife.queue.active hne
      dsimp only at this
      omega
    exact h hs

/-- The oldest command is the next one to be completed. -/
theorem Lifecycle.oldest {s : Snapshot cfg σ} (h : Lifecycle s) (h0 : 0 < s.2.eng.qCount) :
    completions s.2.log ++ [s.2.eng.queue s.2.eng.qTail] <+:
      (acceptances s.2.log).map (cmdEntryOf cfg) := by
  obtain ⟨rest, hrest⟩ := Engine.pending_eq_cons h0
  rw [h.accepted_eq, hrest]
  exact ⟨rest, by simp⟩

/-- **Step.** Without cancellation inside a callback, callbacks are called for the
oldest command. -/
theorem aboutOldest_step {allowed : HookKind → ApiCall → Prop} {s t : Snapshot cfg σ}
    (ht : Transition allowed s t) (hlife : Lifecycle s) (hpool : Collecting s.2)
    (hstarted : Started s.2) (hnone : s.2.eng.state = .idle → NoneStarted s.2.log)
    (h : EachCall AboutOldest s.2.log) : EachCall AboutOldest t.2.log := by
  -- the drain loop runs in an idle engine
  have hidle (st : List (Frame cfg)) (hst : s.1 = .draining :: st) : s.2.eng.state = .idle := by
    obtain ⟨_, hok, -⟩ := hlife.replay
    rw [hst] at hok
    cases st with
    | nil => exact hok.1
    | cons f st => exact absurd hok (by simp [StackOk])
  refine EachCall.step ht (fun hs status c f u hnote => ?_)
    (fun st hst h0 f u hnote => ⟨_, hnote, hlife.oldest h0, .inl ⟨rfl, hnone (hidle st hst)⟩⟩) h
  obtain ⟨A, B, hA, hB⟩ := hstarted hs
  refine ⟨_, hnote, hlife.oldest (hlife.queue.active hs), .inr ⟨A, B, hA, hB, ?_⟩⟩
  change s.2.eng.pool.lines = _
  rw [hpool.pool hs, hA, received_exchange A _ hB]

/-- **Run.** -/
theorem Reachable.aboutOldest (hfit : cfg.Fits) {P : Env σ → TopCall → Prop} {w : World cfg σ}
    (h : Reachable P w) (hc : ¬Cancelled w.log) : EachCall AboutOldest w.log := by
  obtain ⟨s, hs⟩ := h.steps_any
  have hrun := hs.invariant (I := fun t => Collecting t.2 ∧ (¬Cancelled t.2.log →
      Lifecycle t ∧ Started t.2 ∧ (t.2.eng.state = .idle → NoneStarted t.2.log) ∧
        EachCall AboutOldest t.2.log))
    (fun s t ht ih => ⟨ih.1.step hfit ht, fun hct => by
      obtain ⟨hlife, hstarted, hnone, hcalls⟩ := ih.2 fun hcs => hct (hcs.mono ht.log_mono)
      exact ⟨hlife.step hfit ht hct, hstarted.step hfit ht hlife, noneStarted_step ht hlife hnone,
        aboutOldest_step ht hlife ih.1 hstarted hnone hcalls⟩⟩)
    ⟨⟨Nat.zero_le _, Nat.zero_le _, fun hne => absurd rfl hne, by simp [SeesFirstLines]⟩,
      fun _ => ⟨Lifecycle.init s, fun hne => absurd rfl hne, fun _ => by simp [NoneStarted],
        eachCall_nil⟩⟩
  exact (hrun.2 hc).2.2.2

/-- **The contract of a callback.** In every run, each callback is told a status and a
code for which the log ends in the reason, and a response that is well formed. If no
completion callback has cancelled a command, it is called for the oldest command that is
not done, with its user pointer, and with the first lines received since the command was
transmitted; a command that is drained before it was is told of the abort. -/
theorem callback_contract (hfit : cfg.Fits) {P : Env σ → TopCall → Prop} {w : World cfg σ}
    (h : Reachable P w) :
    EachCall (fun P _ _ r => Explains P r.status r.errorCode ∧ r.Sized cfg) w.log ∧
      (¬Cancelled w.log → EachCall AboutOldest w.log) :=
  ⟨fun A f u r B heq => ⟨h.explained A f u r B heq, h.sized hfit A f u r B heq⟩,
    h.aboutOldest hfit⟩

/-- An answer, an error with a code, a command that is aborted, and one that is drained. -/
theorem callback_contract_four : ∃ w : World Config.default Unit,
    (w.log.filterMap fun | .fired _ _ r => some r | _ => none) =
      [⟨.ok, 0, 1, [ascii "+X: 1"]⟩, ⟨.errCme, 30, 0, []⟩, abortedResponse, abortedResponse] ∧
    EachCall (fun P _ _ r => Explains P r.status r.errorCode ∧ r.Sized Config.default) w.log ∧
      EachCall AboutOldest w.log := by
  obtain ⟨w, hw, hp⟩ := Reachable.of_execAll (P := fun env _ => env.Respects NotCancelling)
    plainEnv 32
    [.api (.send (some probe)), .api (.send (some probe)), .process,
      .api (.feed (ascii "+X: 1\r\nOK\r\n")), .process,
      .api (.feed (ascii "+CME ERROR: 30\r\n")), .process,
      .api (.send (some probe)), .process, .api (.send (some probe)), .api .reset]
    () (fun _ => plainEnv_respects _)
    (fun w : World Config.default Unit =>
      decide ((w.log.filterMap fun | .fired _ _ r => some r | _ => none) =
        [⟨.ok, 0, 1, [ascii "+X: 1"]⟩, ⟨.errCme, 30, 0, []⟩, abortedResponse, abortedResponse]))
    (by decide +kernel)
  obtain ⟨hreasons, holdest⟩ := callback_contract Config.default_fits hw
  exact ⟨w, of_decide_eq_true hp, hreasons, holdest (hw.notCancelled fun _ _ henv => henv)⟩

end LibAt
