import LibAt.Lifecycle
import LibAt.RxRing

/-!
# Hooks that only send

A hook that does nothing but send commands and look at the engine always
returns, touches nothing but the command queue, and raises the queue counter
by the number of commands it gets accepted (`SentOnly`, `invoke_sends`). Hence
every call of the API returns when the hooks only send, except that `at_reset`
may go on draining what its callbacks send (`LibAt.Reset`).
-/

namespace LibAt

variable {cfg : Config} {σ : Type} {env : Env σ}

/-- Hooks that do nothing but send commands and look at the engine. -/
def SendsOnly (_ : HookKind) : ApiCall → Prop
  | .send _ | .state | .queueDepth => True
  | _ => False

/-- The number of commands accepted so far. -/
def acceptedCount (w : World cfg σ) : Nat := (acceptances w.log).length

/-- `w` came from `w₀` by sends and changes outside the library. -/
structure SentOnly (w₀ w : World cfg σ) : Prop where
  /-- only the queue is different -/
  eng : { w.eng with queue := w₀.eng.queue, qHead := w₀.eng.qHead, qCount := w₀.eng.qCount } =
    w₀.eng
  count : w.eng.qCount + acceptedCount w₀ = w₀.eng.qCount + acceptedCount w
  mono : acceptedCount w₀ ≤ acceptedCount w
  fits : w₀.eng.qCount < 256 → w.eng.qCount < 256

theorem SentOnly.refl (w : World cfg σ) : SentOnly w w := ⟨rfl, rfl, Nat.le_refl _, id⟩

/-- Sending twice is sending. -/
theorem SentOnly.trans {w₀ w₁ w₂ : World cfg σ} (h₁ : SentOnly w₀ w₁) (h₂ : SentOnly w₁ w₂) :
    SentOnly w₀ w₂ where
  eng := by
    rw [← h₁.eng, ← h₂.eng]
  count := by
    have := h₁.count
    have := h₂.count
    omega
  mono := h₁.mono.trans h₂.mono
  fits := h₂.fits ∘ h₁.fits

/-- The fields that a callback which sends does not touch: the state, -/
theorem SentOnly.state {w₀ w : World cfg σ} (h : SentOnly w₀ w) : w.eng.state = w₀.eng.state  := by
  have h := congrArg Engine.state h.eng
  exact h

/-- the ring, -/
theorem SentOnly.rx {w₀ w : World cfg σ} (h : SentOnly w₀ w) : w.eng.rx = w₀.eng.rx  := by
  have h := congrArg Engine.rx h.eng
  exact h

/-- and the oldest command. -/
theorem SentOnly.qTail {w₀ w : World cfg σ} (h : SentOnly w₀ w) : w.eng.qTail = w₀.eng.qTail  := by
  have h := congrArg Engine.qTail h.eng
  exact h

theorem SentOnly.putApp (w : World cfg σ) (s : σ) : SentOnly w (w.putApp s) :=
  ⟨rfl, rfl, Nat.le_refl _, id⟩

/-- An entry that is no acceptance does not count. -/
theorem SentOnly.emit (w : World cfg σ) {ev : Event cfg} (hev : acceptances [ev] = []) :
    SentOnly w (w.emit ev) := by
  have h : acceptedCount (w.emit ev) = acceptedCount w := by
    simp only [acceptedCount, acceptances] at *
    rw [World.emit_log, List.filterMap_append, hev, List.append_nil]
  exact ⟨rfl, by rw [h]; rfl, Nat.le_of_eq h.symm, id⟩

/-- A command that is accepted goes behind the others. -/
theorem SentOnly.send (hfit : cfg.Fits) (w : World cfg σ) (desc : Option CmdDesc) :
    SentOnly w (w.send desc).2 := by
  have hdepth := hfit.depth
  rcases w.send_cases desc with hw | ⟨d, g, hd, hw⟩
  · rw [hw]
    exact .refl w
  · obtain ⟨-, hlt, rfl⟩ := atSend_ok hd
    rw [hw]
    have hacc : acceptedCount ((w.putEng { w.eng with
        queue := Function.update w.eng.queue w.eng.qHead (cmdEntryOf cfg d)
        qHead := nextSlot w.eng.qHead
        qCount := (w.eng.qCount + 1) % 256 }).emit (.accepted d)) = acceptedCount w + 1 := by
      simp [acceptedCount, acceptances]
    refine ⟨rfl, ?_, ?_, fun _ => ?_⟩
    · rw [hacc]
      change (w.eng.qCount + 1) % 256 + _ = _
      omega
    · exact (Nat.le_succ _).trans (Nat.le_of_eq hacc.symm)
    · exact Nat.mod_lt _ (by decide)

/-- What a hook that only sends calls returns, whatever is nested below. -/
theorem apiCall_sends (hfit : cfg.Fits) {k : HookKind} {c : ApiCall} (hc : SendsOnly k c)
    (w : World cfg σ) :
    ∃ a w', SentOnly w w' ∧ ∀ invoke fuel, apiCall invoke fuel c w = some (a, w') := by
  match c, hc with
  | .send desc, _ => exact ⟨_, _, .send hfit w desc, fun _ _ => rfl⟩
  | .state, _ => exact ⟨_, _, .refl w, fun _ _ => rfl⟩
  | .queueDepth, _ => exact ⟨_, _, .refl w, fun _ _ => rfl⟩

/-- **A hook that only sends returns**, and one level of nesting is enough for
it. -/
theorem invoke_sends (hfit : cfg.Fits) (inv : Invocation) (w : World cfg σ)
    (hinv : (env.hook inv w.app).Uses (SendsOnly inv.kind)) :
    ∃ w', SentOnly w w' ∧ ∀ n, invoke env (n + 1) inv w = some w' := by
  have htotal : ∃ w', invoke env 1 inv w = some w' ∧ SentOnly w w' := by
    refine Interaction.run_total (I := SentOnly w) (fun s w' h => h.trans (.putApp w' s))
      (fun c w' hc h => ?_) hinv (.refl w)
    obtain ⟨a, w₁, hs, hcall⟩ := apiCall_sends hfit hc (w'.emit (.nested inv.kind c w'.eng.state))
    exact ⟨a, w₁, hcall _ _, h.trans ((SentOnly.emit w' rfl).trans hs)⟩
  obtain ⟨w', hw', hs⟩ := htotal
  refine ⟨w', hs, fun n => ?_⟩
  rw [← hw']
  refine Interaction.run_congr (fun c w' hc => ?_) hinv w
  obtain ⟨a, w₁, -, hcall⟩ := apiCall_sends hfit hc (w'.emit (.nested inv.kind c w'.eng.state))
  rw [hcall, hcall]

/-! ## Completion -/

/-- A callback that only sends, on a given response. -/
theorem notify_sends (hfit : cfg.Fits) (e : CmdEntry cfg) (r : Response)
    (henv : ∀ f s, (env.completion f r e.user s).Uses (SendsOnly .completion)) (w : World cfg σ) :
    ∃ w', SentOnly w w' ∧ ∀ n, notify (invoke env (n + 1)) e r w = some w' := by
  simp only [notify]
  cases e.cb with
  | none => exact ⟨w, .refl w, fun _ => rfl⟩
  | some f =>
    obtain ⟨w', hs, hw'⟩ := invoke_sends hfit (.completion f r e.user)
      (w.emit (.fired f e.user r)) (henv f _)
    exact ⟨w', (SentOnly.emit w rfl).trans hs, hw'⟩

/-- `engine_finalize` returns when the callback only sends. -/
theorem engineFinalize_sends (hfit : cfg.Fits) (status : AtResult) (c : Int) (w : World cfg σ)
    (henv : ∀ f r u s, r.status = status →
      (env.completion f r u s).Uses (SendsOnly .completion)) :
    ∃ w', (∀ n, engineFinalize (invoke env (n + 1)) status c w = some w') ∧
      w'.eng.rx = w.eng.rx ∧ w'.eng.qCount < 256 ∧ acceptedCount w ≤ acceptedCount w' := by
  obtain ⟨w₁, hs, hw₁⟩ := notify_sends hfit (w.eng.queue w.eng.qTail)
    (finalResponse status c w.eng) (fun f s => henv f _ _ s rfl)
    (w.putEng (setResponse (finalResponse status c w.eng) w.eng))
  refine ⟨(w₁.putEng (dequeue w.eng.qTail w₁.eng)).emit
    (.completed (w.eng.queue w.eng.qTail)), fun n => ?_, hs.rx, Nat.mod_lt _ (by decide), ?_⟩
  · exact Option.bind_eq_some_iff.mpr ⟨w₁, hw₁ n, rfl⟩
  · exact hs.mono.trans (SentOnly.emit (w₁.putEng (dequeue w.eng.qTail w₁.eng)) rfl).mono

/-! ## `at_process` returns -/

/-- The URC search comes to an end, because the table is smaller than the range
of its 8-bit index. -/
theorem uint8Search_isSome {n : Nat} (hn : n ≤ 255) (p : Fin n → Bool) (rounds : Nat) :
    ∀ i, i ≤ n → n < i + rounds → ∃ r, uint8Search p rounds i = some r := by
  induction rounds with
  | zero => intro i hi hlt; omega
  | succ rounds ih =>
    intro i hi hlt
    rw [uint8Search]
    split
    · rename_i h
      split
      · exact ⟨_, rfl⟩
      · exact ih _ (by omega) (by omega)
    · exact ⟨_, rfl⟩

/-- The search of the URC table ends, since its `uint8_t` index can pass the last entry. -/
theorem urcSearch_isSome (hfit : cfg.Fits) (p : Fin cfg.urcTableSize → Bool) :
    ∃ r, urcSearch p = some r := by
  have hurc := hfit.urc
  exact uint8Search_isSome hurc p 256 0 (Nat.zero_le _) (by omega)

theorem atRegisterUrc_isSome (hfit : cfg.Fits) (pre : Option (List UInt8)) (cb : Option Ptr)
    (user : Ptr) (g : Engine cfg) : ∃ r, atRegisterUrc pre cb user g = some r := by
  simp only [atRegisterUrc]
  split
  · rename_i p f
    obtain ⟨m, hm⟩ := urcSearch_isSome hfit fun i => (g.urcTable i).registered p
    obtain ⟨m', hm'⟩ := urcSearch_isSome hfit fun i => !(g.urcTable i).active
    rw [hm, hm']
    cases m <;> cases m' <;> exact ⟨_, rfl⟩
  · exact ⟨_, rfl⟩

theorem atDeregisterUrc_isSome (hfit : cfg.Fits) (pre : Option (List UInt8)) (g : Engine cfg) :
    ∃ r, atDeregisterUrc pre g = some r := by
  simp only [atDeregisterUrc]
  split
  · exact ⟨_, rfl⟩
  · rename_i p
    obtain ⟨m, hm⟩ := urcSearch_isSome hfit fun i => (g.urcTable i).registered p
    rw [hm]
    cases m <;> exact ⟨_, rfl⟩

variable (hfit : cfg.Fits) (henv : env.Respects SendsOnly)

include hfit henv in
/-- A completion returns, and leaves the ring alone. -/
theorem finalize_returns (status : AtResult) (c : Int) (w : World cfg σ) :
    ∃ w', (∀ n, engineFinalize (invoke env (n + 1)) status c w = some w') ∧
      w'.eng.rx = w.eng.rx := by
  obtain ⟨w', hw', hrx, -, -⟩ := engineFinalize_sends hfit status c w
    fun f r u s _ => henv (.completion f r u) s
  exact ⟨w', hw', hrx⟩

include hfit henv in
theorem urcDispatch_returns (l : List UInt8) (w : World cfg σ) :
    ∃ r, (∀ n, urcDispatch (invoke env (n + 1)) l w = some r) ∧ r.2.eng.rx = w.eng.rx := by
  obtain ⟨m, hm⟩ : ∃ m, urcMatch l w.eng = some m := urcSearch_isSome hfit _
  cases m with
  | none => exact ⟨(false, w), fun n => Option.bind_eq_some_iff.mpr ⟨_, hm, rfl⟩, rfl⟩
  | some i =>
    obtain ⟨w', hs, hw'⟩ := invoke_sends hfit
      (.handler (w.eng.urcTable i).cb l (w.eng.urcTable i).user)
      ((w.emit (.line .urc l)).emit (.urc (w.eng.urcTable i).cb (w.eng.urcTable i).user l))
      (henv _ _)
    exact ⟨(true, w'), fun n => Option.bind_eq_some_iff.mpr ⟨_, hm,
      Option.bind_eq_some_iff.mpr ⟨w', hw' n, rfl⟩⟩, hs.rx⟩

include hfit henv in
/-- So does the dispatch of a line, -/
theorem engineDispatchLine_returns (l : List UInt8) (w : World cfg σ) :
    ∃ w', (∀ n, engineDispatchLine (invoke env (n + 1)) env l w = some w') ∧
      w'.eng.rx = w.eng.rx := by
  unfold engineDispatchLine
  split
  · exact ⟨w, fun _ => rfl, rfl⟩
  split
  · exact ⟨_, fun _ => rfl, rfl⟩
  split
  · dsimp only
    split
    · have hrx := congrArg Engine.rx (answerPrompt_eng env (w.eng.queue w.eng.qTail)
        (w.emit (.line (.prompt true) l)))
      rcases ha : answerPrompt env (w.eng.queue w.eng.qTail) (w.emit (.line (.prompt true) l)) with
        ⟨_ | _, w₁⟩ <;> rw [ha] at hrx
      · obtain ⟨w', hw', hrx'⟩ := finalize_returns hfit henv .errIo 0 w₁
        exact ⟨w', hw', hrx'.trans hrx⟩
      · exact ⟨w₁, fun _ => rfl, hrx⟩
    · exact ⟨_, fun _ => rfl, rfl⟩
  cases if w.eng.state = .waiting then engineIsFinal l else none with
  | some r =>
    obtain ⟨w', hw', hrx⟩ := finalize_returns hfit henv r.1 r.2 (w.emit (.line .final l))
    exact ⟨w', hw', hrx⟩
  | none =>
    obtain ⟨⟨taken, w₁⟩, hw₁, hrx⟩ := urcDispatch_returns hfit henv l w
    refine ⟨if taken then w₁ else accumulate l w₁,
      fun n => Option.map_eq_some_iff.mpr ⟨_, hw₁ n, rfl⟩, ?_⟩
    cases taken
    · obtain ⟨pool, response, heng⟩ := accumulate_eng l w₁
      change (accumulate l w₁).eng.rx = w.eng.rx
      rw [heng]
      exact hrx
    · exact hrx

include hfit henv in
/-- and of a byte. -/
theorem processByte_returns (b : UInt8) (w : World cfg σ) :
    ∃ w', (∀ n, processByte (invoke env (n + 1)) env b w = some w') ∧ w'.eng.rx = w.eng.rx := by
  simp only [processByte]
  cases hb : lfsmByte b w.eng with
  | more g =>
    obtain ⟨line, lfsm, rfl⟩ := lfsmByte_eq hb
    exact ⟨_, fun _ => rfl, rfl⟩
  | line l =>
    obtain ⟨w₁, hw₁, hrx⟩ := engineDispatchLine_returns hfit henv l w
    exact ⟨lineDone w₁, fun n => Option.map_eq_some_iff.mpr ⟨w₁, hw₁ n, rfl⟩, hrx⟩

include hfit henv in
/-- The drain loop of `at_process` takes one round for each byte in the
ring. -/
theorem drainRx_returns (k : Nat) : ∀ w : World cfg σ, rxringUsed w.eng.rx ≤ k →
    ∃ w', ∀ n, drainRx (invoke env (n + 1)) env (k + 1) w = some w' := by
  induction k with
  | zero =>
    intro w hk
    refine ⟨w, fun n => ?_⟩
    rw [drainRx]
    cases hp : rxringPop w.eng.rx with
    | none => rfl
    | some r => exact absurd (rxringUsed_pop hp) (by omega)
  | succ k ih =>
    intro w hk
    cases hp : rxringPop w.eng.rx with
    | none => exact ⟨w, fun n => by rw [drainRx, hp]⟩
    | some r =>
      obtain ⟨b, rx⟩ := r
      have hused := rxringUsed_pop hp
      obtain ⟨w₁, hw₁, hrx⟩ := processByte_returns hfit henv b (w.putEng { w.eng with rx := rx })
      obtain ⟨w', hw'⟩ := ih w₁ (by
        rw [hrx]
        change rxringUsed rx ≤ k
        omega)
      refine ⟨w', fun n => ?_⟩
      rw [drainRx, hp]
      exact Option.bind_eq_some_iff.mpr ⟨w₁, hw₁ n, hw' n⟩

include hfit henv in
theorem engineStartNext_returns (w : World cfg σ) :
    ∃ w', ∀ n, engineStartNext (invoke env (n + 1)) env w = some w' := by
  simp only [engineStartNext]
  rcases transmit env w with ⟨_ | _, w₁⟩
  · obtain ⟨w', hw', -⟩ := finalize_returns hfit henv .errIo 0 w₁
    exact ⟨w', hw'⟩
  · exact ⟨w₁, fun _ => rfl⟩

include hfit henv in
/-- `at_process` returns. -/
theorem atProcess_returns (w : World cfg σ) :
    ∃ n w', atProcess (invoke env (n + 1)) env (n + 1) w = some w' := by
  obtain ⟨w₁, hw₁⟩ := drainRx_returns hfit henv (rxringUsed w.eng.rx) w (Nat.le_refl _)
  obtain ⟨w₂, hw₂⟩ : ∃ w', ∀ n, checkTimeout (invoke env (n + 1)) w₁ = some w' := by
    simp only [checkTimeout]
    split
    · obtain ⟨w', hw', -⟩ := finalize_returns hfit henv .errTimeout 0 w₁
      exact ⟨w', hw'⟩
    · exact ⟨w₁, fun _ => rfl⟩
  obtain ⟨w₃, hw₃⟩ : ∃ w', ∀ n, startIfIdle (invoke env (n + 1)) env w₂ = some w' := by
    simp only [startIfIdle]
    split
    · exact engineStartNext_returns hfit henv w₂
    · exact ⟨w₂, fun _ => rfl⟩
  refine ⟨rxringUsed w.eng.rx, w₃, Option.bind_eq_some_iff.mpr ⟨w₁, hw₁ _, ?_⟩⟩
  exact Option.bind_eq_some_iff.mpr ⟨w₂, hw₂ _, hw₃ _⟩

include hfit henv in
/-- `at_abort` returns. -/
theorem atAbort_returns (w : World cfg σ) :
    ∃ w', ∀ n, atAbort (invoke env (n + 1)) w = some w' := by
  simp only [atAbort]
  split
  · obtain ⟨w', hw', -⟩ := finalize_returns hfit henv .errAborted 0 w
    exact ⟨w', hw'⟩
  · exact ⟨w, fun _ => rfl⟩

/-! ## A callback that sends once more -/

/-- A descriptor for the shortest command, with callback 1 and user pointer
7. -/
def probe : CmdDesc := ⟨some (ascii "AT"), none, 0, .none, some 1, 7⟩

/-- The callback sends `probe` again the first time it is called; the private
state remembers that it has been. -/
def resendEnv : Env Bool where
  write s data := (data.length, s)
  completion _ _ _ s := if s then .ret s else .call (.send (some probe)) true fun _ s => .ret s
  handler _ _ _ s := .ret s

theorem resendEnv_sendsOnly : resendEnv.Respects SendsOnly := by
  rintro (⟨f, r, u⟩ | ⟨f, l, u⟩) s
  · cases s
    · exact ⟨trivial, fun _ _ => trivial⟩
    · trivial
  · trivial

end LibAt
