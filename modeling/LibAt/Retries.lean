import LibAt.Sending
import Mathlib.Data.ENat.Lattice
import Mathlib.Order.CompletePartialOrder

/-!
# What callbacks send when they are told of an abort

A callback that is told of an abort may send commands, whose callbacks are told of an
abort in turn. What comes of this depends on the callbacks alone and on what they are
shown: the room in the queue and the state of the engine (`Backlog.react`, which is
compared with the engine in `notify_told`).

Whether there is an end to it is a matter of what the sends are paid from. An allowance
is a number for each backlog, possibly infinite, that covers the sends of every single
notification (`Pays`); the sends are bounded from a backlog on if and only if some
allowance is finite there (`bounded_iff_pays`).
-/

namespace LibAt

/-! ## Allowances -/

section Allowance

variable {α : Type} (going : α → Prop) [DecidablePred going] (next : α → α) (cost : α → Nat)

/-- What `k` steps cost. -/
def spent : Nat → α → Nat
  | 0, _ => 0
  | k + 1, a => if going a then cost a + spent k (next a) else 0

/-- An allowance: each step is paid for, and the rest is left for the steps behind it. -/
def Pays (allowance : α → ℕ∞) : Prop :=
  ∀ a, going a → cost a + allowance (next a) ≤ allowance a

variable {going next cost}

/-- **What is spent was there.** -/
theorem spent_le {allowance : α → ℕ∞} (h : Pays going next cost allowance) (k : Nat) :
    ∀ a, (spent going next cost k a : ℕ∞) ≤ allowance a := by
  induction k with
  | zero => exact fun a => bot_le
  | succ k ih =>
    intro a
    rw [spent]
    split
    · next hgoing =>
      rw [Nat.cast_add]
      exact (add_le_add_right (ih (next a)) _).trans (h a hgoing)
    · exact bot_le

/-- All that will ever be spent is an allowance. -/
theorem pays_spent : Pays going next cost fun a => ⨆ k, (spent going next cost k a : ℕ∞) := by
  intro a hgoing
  rw [ENat.add_iSup]
  refine iSup_le fun k => ?_
  refine le_iSup_of_le (k + 1) ?_
  rw [spent, if_pos hgoing, Nat.cast_add]

/-- **There is a bound** if and only if there is an allowance that is finite. -/
theorem bounded_iff_pays (a : α) : (∃ bound, ∀ k, spent going next cost k a ≤ bound) ↔
    ∃ allowance, Pays going next cost allowance ∧ allowance a ≠ ⊤ := by
  constructor
  · rintro ⟨bound, hbound⟩
    refine ⟨_, pays_spent, ne_top_of_le_ne_top (ENat.natCast_ne_top bound) ?_⟩
    exact iSup_le fun k => Nat.cast_le.mpr (hbound k)
  · rintro ⟨allowance, hpays, hfinite⟩
    obtain ⟨bound, hbound⟩ := ENat.ne_top_iff_exists.mp hfinite
    refine ⟨bound, fun k => ?_⟩
    have hle := spent_le hpays k a
    rw [← hbound] at hle
    exact Nat.cast_le.mp hle

end Allowance

variable {cfg : Config} {σ : Type} {env : Env σ}

/-! ## Callbacks and the room in the queue -/

/-- What callbacks can depend on: whom each slot of the queue names, with the user
pointer, the indices and the counter, and the state of the application. -/
structure Backlog (cfg : Config) (σ : Type) where
  target : Fin cfg.cmdQueueDepth → Option Ptr × Ptr
  head : Fin cfg.cmdQueueDepth
  tail : Fin cfg.cmdQueueDepth
  count : Nat
  app : σ

namespace Backlog

/-- The answer of `at_send`. -/
def answer (desc : Option CmdDesc) (b : Backlog cfg σ) : AtResult :=
  match desc with
  | none => .errParam
  | some d =>
    if cstr (d.cmd.getD []) = [] then .errParam
    else if b.count ≥ cfg.cmdQueueDepth then .errBusy
    else .ok

/-- A command is accepted. -/
def accept (d : CmdDesc) (b : Backlog cfg σ) : Backlog cfg σ :=
  { b with
    target := Function.update b.target b.head (d.cb, d.user)
    head := nextSlot b.head
    count := (b.count + 1) % 256 }

/-- The backlog that a hook leaves, and the number of its sends that were accepted, where
`at_state` answers `st`. -/
def react (st : AtState) : Hook σ → Backlog cfg σ → Backlog cfg σ × Nat
  | .ret s, b => ({ b with app := s }, 0)
  | .call (.send desc) s k, b =>
    match b.answer desc, desc with
    | .ok, some d =>
      let r := react st (k (.result .ok) s) ({ b with app := s }.accept d)
      (r.1, r.2 + 1)
    | a, _ => react st (k (.result a) s) { b with app := s }
  | .call .state s k, b => react st (k (.state st) s) { b with app := s }
  | .call .queueDepth s k, b => react st (k (.depth b.count) s) { b with app := s }
  | .call _ s _, b => ({ b with app := s }, 0)

variable {st : AtState} {s : σ} {k : ApiRet → σ → Hook σ} {b : Backlog cfg σ}

theorem react_accepted {d : CmdDesc} (h : b.answer (some d) = .ok) :
    b.react st (.call (.send (some d)) s k) =
      let r := ({ b with app := s }.accept d).react st (k (.result .ok) s)
      (r.1, r.2 + 1) := by
  rw [react]
  exact h

theorem react_refused {desc : Option CmdDesc} (h : b.answer desc ≠ .ok) :
    b.react st (.call (.send desc) s k) =
      { b with app := s }.react st (k (.result (b.answer desc)) s) := by
  rw [react]
  exact fun _ hok _ => h hok

/-- The oldest command's callback is told of a response. -/
def tell (env : Env σ) (st : AtState) (r : Response) (b : Backlog cfg σ) : Backlog cfg σ × Nat :=
  match (b.target b.tail).1 with
  | none => (b, 0)
  | some f => b.react st (env.completion f r (b.target b.tail).2 b.app)

/-- The oldest command is dropped. -/
def drop (b : Backlog cfg σ) : Backlog cfg σ :=
  { b with
    tail := nextSlot b.tail
    count := (b.count + 255) % 256 }

/-- What the callback of the oldest command sends when it is told of an abort, -/
def sends (env : Env σ) (b : Backlog cfg σ) : Nat := (b.tell env .idle abortedResponse).2

/-- and the backlog behind it. -/
def next (env : Env σ) (b : Backlog cfg σ) : Backlog cfg σ :=
  (b.tell env .idle abortedResponse).1.drop

end Backlog

/-- What a queue entry is to its callback. -/
def CmdEntry.toTarget (e : CmdEntry cfg) : Option Ptr × Ptr := (e.cb, e.user)

/-- The backlog of an engine. -/
def World.backlog (w : World cfg σ) : Backlog cfg σ :=
  ⟨fun i => (w.eng.queue i).toTarget, w.eng.qHead, w.eng.qTail, w.eng.qCount, w.app⟩

/-- The backlog when the active command, if there is one, has been aborted: its callback
has been told, with what was received so far, and its slot is cleared. -/
def World.aborted (env : Env σ) (w : World cfg σ) : Backlog cfg σ :=
  if w.eng.state ≠ .idle ∧ w.eng.qCount > 0 then
    let b := (w.backlog.tell env w.eng.state (finalResponse .errAborted 0 w.eng)).1
    { b.drop with target := Function.update b.target w.eng.qTail (none, 0) }
  else w.backlog

/-! ## The engine does so -/

/-- A send that is refused. -/
theorem send_refused {desc : Option CmdDesc} {w : World cfg σ}
    (h : w.backlog.answer desc ≠ .ok) : w.send desc = (w.backlog.answer desc, w) := by
  rcases desc with _ | d
  · rfl
  by_cases hcmd : cstr (d.cmd.getD []) = []
  · have hans : w.backlog.answer (some d) = .errParam := if_pos hcmd
    rw [World.send, atSend, if_pos hcmd, hans]
    rfl
  by_cases hfull : w.eng.qCount ≥ cfg.cmdQueueDepth
  · have hans : w.backlog.answer (some d) = .errBusy := (if_neg hcmd).trans (if_pos hfull)
    rw [World.send, atSend, if_neg hcmd, if_pos hfull, hans]
    rfl
  · exact absurd ((if_neg hcmd).trans (if_neg hfull)) h

/-- A send that is accepted. -/
theorem send_accepted {desc : Option CmdDesc} {w : World cfg σ} (h : w.backlog.answer desc = .ok) :
    ∃ d, desc = some d ∧ (w.send desc).1 = .ok ∧ (w.send desc).2.app = w.app ∧
      (w.send desc).2.backlog = w.backlog.accept d ∧
      acceptedCount (w.send desc).2 = acceptedCount w + 1 ∧
      (w.send desc).2.eng.state = w.eng.state := by
  rcases desc with _ | d
  · cases h
  by_cases hcmd : cstr (d.cmd.getD []) = []
  · rw [Backlog.answer, if_pos hcmd] at h
    cases h
  by_cases hfull : w.eng.qCount ≥ cfg.cmdQueueDepth
  · exact absurd (((if_neg hcmd).trans (if_pos hfull)).symm.trans h) (by decide)
  refine ⟨d, rfl, ?_⟩
  rw [World.send, atSend, if_neg hcmd, if_neg hfull]
  refine ⟨rfl, rfl, ?_, ?_, rfl⟩
  · rw [World.backlog, Backlog.accept]
    congr 1
    funext i
    change (Function.update w.eng.queue w.eng.qHead (cmdEntryOf cfg d) i).toTarget =
      Function.update w.backlog.target w.eng.qHead (d.cb, d.user) i
    by_cases hi : i = w.eng.qHead
    · subst hi
      rw [Function.update_self, Function.update_self]
      rfl
    · rw [Function.update_of_ne hi, Function.update_of_ne hi]
      rfl
  · simp [acceptedCount, acceptances]

/-- An entry of the log that is no acceptance. -/
theorem acceptedCount_nested (k : HookKind) (c : ApiCall) (st : AtState) (w : World cfg σ) :
    acceptedCount (w.emit (.nested k c st)) = acceptedCount w := by
  simp [acceptedCount, acceptances]

/-- One call of a hook that only sends, in the engine and on the backlog. -/
theorem apiCall_react (env : Env σ) {k : HookKind} {c : ApiCall} (hc : SendsOnly k c) (w : World cfg σ) :
    ∃ a w' m, (∀ n, apiCall (invoke env n) n c w = some (a, w')) ∧ w'.app = w.app ∧
      w'.eng.state = w.eng.state ∧ acceptedCount w' = acceptedCount w + m ∧
      ∀ (b : Backlog cfg σ) s next, { b with app := s } = w.backlog →
        b.react w.eng.state (.call c s next) =
          ((w'.backlog.react w.eng.state (next a s)).1,
            (w'.backlog.react w.eng.state (next a s)).2 + m) := by
  match c, hc with
  | .send desc, _ =>
    by_cases hans : w.backlog.answer desc = .ok
    · obtain ⟨d, rfl, hres, happ, hback, hcount, hstate⟩ := send_accepted hans
      refine ⟨.result (w.send (some d)).1, (w.send (some d)).2, 1, fun _ => rfl, happ, hstate, hcount,
        fun b s next hb => ?_⟩
      have hans' : b.answer (some d) = .ok := by
        rw [← hb] at hans
        exact hans
      rw [Backlog.react_accepted hans', hres, hback, ← hb]
    · have hsend := send_refused hans
      refine ⟨.result (w.backlog.answer desc), w, 0, fun _ => ?_, rfl, rfl, rfl, fun b s next hb => ?_⟩
      · rw [apiCall, hsend]
      · have hsame : b.answer desc = w.backlog.answer desc := by rw [← hb]; rfl
        rw [Backlog.react_refused (hsame ▸ hans), hsame, hb]
        rfl
  | .state, _ =>
    refine ⟨_, w, 0, fun _ => rfl, rfl, rfl, rfl, fun b s next hb => ?_⟩
    rw [Backlog.react, hb]
    rfl
  | .queueDepth, _ =>
    refine ⟨_, w, 0, fun _ => rfl, rfl, rfl, rfl, fun b s next hb => ?_⟩
    have hcount : b.count = w.eng.qCount := congrArg Backlog.count hb
    rw [Backlog.react, hb, hcount]
    rfl

/-- **A hook that only sends**, in the engine and on the backlog. -/
theorem run_react (env : Env σ) {k : HookKind} {p : Hook σ} (hp : p.Uses (SendsOnly k)) :
    ∀ w : World cfg σ, ∃ w', (∀ n, p.run World.app World.putApp
        (fun c w => apiCall (invoke env n) n c (w.emit (.nested k c w.eng.state))) w = some w') ∧
      w'.backlog = (w.backlog.react w.eng.state p).1 ∧
      acceptedCount w' = acceptedCount w + (w.backlog.react w.eng.state p).2 ∧
      w'.eng.state = w.eng.state := by
  induction p with
  | ret s => exact fun w => ⟨w.putApp s, fun _ => rfl, rfl, rfl, rfl⟩
  | call c s next ih =>
    intro w
    obtain ⟨a, w₁, m, hcall, happ, hstate, hcount, hreact⟩ := apiCall_react env hp.1
      ((w.putApp s).emit (.nested k c w.eng.state))
    rw [acceptedCount_nested] at hcount
    obtain ⟨w', hrun, hback, hcount', hstate'⟩ := ih a s (hp.2 a s) w₁
    refine ⟨w', fun n => ?_, ?_, ?_, hstate'.trans hstate⟩
    · rw [Interaction.run]
      refine Option.bind_eq_some_iff.mpr ⟨(a, w₁), hcall n, ?_⟩
      dsimp only
      rw [happ]
      exact hrun n
    · have hr := hreact w.backlog s next rfl
      rw [hstate] at hback
      exact hback.trans (congrArg Prod.fst hr).symm
    · have hr := hreact w.backlog s next rfl
      rw [hstate] at hcount'
      refine (hcount'.trans ?_).trans (congrArg (acceptedCount w + ·) (congrArg Prod.snd hr)).symm
      rw [hcount]
      change acceptedCount w + m + _ = acceptedCount w + (_ + m)
      rw [Nat.add_assoc, Nat.add_comm m]

/-- **Telling a callback**, in the engine and on the backlog. -/
theorem notify_told (env : Env σ) {r : Response} {w : World cfg σ}
    (henv : ∀ f s, (env.completion f r (w.eng.queue w.eng.qTail).user s).Uses (SendsOnly .completion)) :
    ∃ w', (∀ n, notify (invoke env (n + 1)) (w.eng.queue w.eng.qTail) r w = some w') ∧
      w'.backlog = (w.backlog.tell env w.eng.state r).1 ∧
      acceptedCount w' = acceptedCount w + (w.backlog.tell env w.eng.state r).2 ∧
      w'.eng.state = w.eng.state := by
  simp only [notify, Backlog.tell]
  have htarget : w.backlog.target w.backlog.tail = (w.eng.queue w.eng.qTail).toTarget := rfl
  rw [htarget, CmdEntry.toTarget]
  cases (w.eng.queue w.eng.qTail).cb with
  | none => exact ⟨w, fun _ => rfl, rfl, rfl, rfl⟩
  | some f =>
    obtain ⟨w', hrun, hback, hcount, hstate⟩ := run_react env (henv f w.app)
      (w.emit (.fired f (w.eng.queue w.eng.qTail).user r))
    refine ⟨w', hrun, hback, hcount.trans ?_, hstate⟩
    have hacc : acceptedCount (w.emit (.fired f (w.eng.queue w.eng.qTail).user r)) =
        acceptedCount w := by
      simp [acceptedCount, acceptances]
    rw [hacc]
    rfl

end LibAt
