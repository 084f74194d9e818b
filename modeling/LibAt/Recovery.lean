import LibAt.ClosedLoop
import LibAt.Progress

/-!
# Starting over

Whatever has come in and gone out so far, a modem that has answered nothing, too much or
only half a line, an application can start over without a reset: it lets the time of its
commands pass (`roundsCalls`) and ends the line that may have begun. Behind these calls
nothing is open, and the loop with a modem that answers what it is asked goes as if
nothing had been wrong (`recovers`).
-/

namespace LibAt

variable {cfg : Config} {σ : Type} {env : Env σ}

/-- `n` rounds of waiting, and the end of a line. -/
def recoveryCalls (n : Nat) : List TopCall := roundsCalls n ++ [.api (.feed [10]), .process]

/-! ## Handlers stay registered -/

/-- A line does not touch the URC table when the hooks call nothing. -/
theorem Dispatches.urcTable {l : List UInt8} {w w' : World cfg σ} (h : Dispatches env l w w') :
    w'.eng.urcTable = w.eng.urcTable := by
  cases h with
  | answered _ _ _ _ ha =>
    have heng := answerPrompt_eng env (w.eng.queue w.eng.qTail) (w.emit (.line (.prompt true) l))
    rw [ha] at heng
    rw [heng]
    rfl
  | failed w₁ _ _ _ ha =>
    have heng := answerPrompt_eng env (w.eng.queue w.eng.qTail) (w.emit (.line (.prompt true) l))
    rw [ha] at heng
    change w₁.eng.urcTable = _
    rw [heng]
    rfl
  | other =>
    obtain ⟨pool, response, heng⟩ := accumulate_eng l w
    rw [heng]
  | _ => rfl

theorem consume_urcTable (hfit : cfg.Fits) (bs : List UInt8) {w w' : World cfg σ}
    (h : consume (quiet env) env bs w = some w') : w'.eng.urcTable = w.eng.urcTable := by
  obtain ⟨v, hv, htable⟩ := consume_quiet hfit
    (I := fun v => v.eng.urcTable = w.eng.urcTable)
    (fun b v g hv hb => by
      obtain ⟨line, lfsm, rfl⟩ := lfsmByte_eq hb
      exact hv)
    (fun b v v' l hv _ hd => hd.urcTable.trans hv) bs rfl
  obtain rfl := Option.some.inj (hv.symm.trans h)
  exact htable

theorem afterDrain_urcTable {w w' : World cfg σ} (h : afterDrain env w = some w') :
    w'.eng.urcTable = w.eng.urcTable := by
  have hstart {v v' : World cfg σ} (hv : startIfIdle (quiet env) env v = some v') :
      v'.eng.urcTable = v.eng.urcTable := by
    rw [startIfIdle] at hv
    split at hv
    · have heng := transmit_eng env v
      rw [engineStartNext] at hv
      rcases ht : transmit env v with ⟨_ | _, u⟩ <;> rw [ht] at heng hv <;> dsimp only at heng hv
      · rw [engineFinalize_quiet] at hv
        obtain rfl := Option.some.inj hv
        change u.eng.urcTable = _
        rw [heng]
        rfl
      · obtain rfl := Option.some.inj hv
        rw [heng]
        rfl
    · rw [Option.some.inj hv]
  obtain ⟨v, hv, hw'⟩ := Option.bind_eq_some_iff.mp h
  rw [checkTimeout] at hv
  split at hv
  · rw [engineFinalize_quiet] at hv
    obtain rfl := Option.some.inj hv
    exact (hstart hw').trans rfl
  · obtain rfl := Option.some.inj hv
    exact hstart hw'

theorem process_urcTable (hfit : cfg.Fits) (henv : env.Silent) {fuel : Nat} {w w' : World cfg σ}
    {r : ApiRet} (hfuel : rxringUsed w.eng.rx < fuel)
    (h : exec env fuel .process w = some (r, w')) : w'.eng.urcTable = w.eng.urcTable := by
  rw [exec_process henv hfuel] at h
  obtain ⟨u, hu, hret⟩ := Option.map_eq_some_iff.mp h
  obtain ⟨-, rfl⟩ := Prod.mk.inj hret
  obtain ⟨v, hv, hu⟩ := Option.bind_eq_some_iff.mp hu
  obtain ⟨v₀, hv₀, rfl⟩ := Option.map_eq_some_iff.mp hv
  have hconsumed := consume_urcTable hfit _ hv₀
  exact (afterDrain_urcTable hu).trans hconsumed

/-! ## The end of a line -/

/-- An LF ends a line, or there is none. -/
theorem consume_lf {w w' : World cfg σ} (h : consume (quiet env) env [10] w = some w') :
    w'.eng.lfsm = .start := by
  obtain ⟨v, hv, hret⟩ := Option.bind_eq_some_iff.mp h
  obtain rfl := Option.some.inj hret
  rw [processByte] at hv
  cases hs : w.eng.lfsm with
  | start =>
    have hmore : lfsmByte 10 w.eng = .more w.eng := by
      rw [lfsmByte, hs]
      rfl
    rw [hmore] at hv
    obtain rfl := Option.some.inj hv
    exact hs
  | data | cr =>
    have hline : lfsmByte 10 w.eng = .line w.eng.line := by
      rw [lfsmByte, hs]
      rfl
    rw [hline] at hv
    obtain ⟨u, -, rfl⟩ := Option.map_eq_some_iff.mp hv
    rfl

theorem afterDrain_rest {w : World cfg σ} (hidle : w.eng.state = .idle) (h0 : w.eng.qCount = 0) :
    afterDrain env w = some w := by
  rw [afterDrain, checkTimeout, if_neg (by simp [hidle]), Option.bind_some, startIfIdle,
    if_neg (by simp [h0])]

theorem Advances.rest {w v : World cfg σ} (h : Advances w v) (h0 : w.eng.qCount = 0) :
    v.eng.qCount = 0 ∧ v.eng.state = .idle := by
  have hcount : v.eng.qCount = 0 := Nat.le_zero.mp (h0 ▸ h.served.count_le)
  refine ⟨hcount, ?_⟩
  by_contra hne
  have := h.ready.queue.active hne
  omega

/-! ## The rounds -/

section

variable (hfit : cfg.Fits) (hprompt : cfg.promptTimeoutMs < 2 ^ 32) (henv : env.Silent)
include hfit hprompt henv

omit hprompt in
theorem round_urcTable {fuel : Nat} {w w' : World cfg σ} (hfuel : rxringUsed w.eng.rx < fuel)
    (h : execAll env fuel roundCalls w = some w') : w'.eng.urcTable = w.eng.urcTable := by
  obtain ⟨n, hn⟩ := atTick_eq (2 ^ 32 - 1) w.eng
  have hrun : ((exec env fuel .process (w.putEng (atTick (2 ^ 32 - 1) w.eng))).bind
      fun r => some r.2) = some w' := h
  rw [hn] at hrun
  obtain ⟨⟨r, v⟩, hv, hret⟩ := Option.bind_eq_some_iff.mp hrun
  obtain rfl := Option.some.inj hret
  have htable := process_urcTable (w := w.putEng { w.eng with timerMs := n }) hfit henv hfuel hv
  exact htable

/-- Rounds leave the URC table alone, and an empty ring empty. -/
theorem rounds_rest {fuel : Nat} (n : Nat) : ∀ {w w' : World cfg σ}, Ready w →
    rxringBytes w.eng.rx = [] → 0 < fuel → execAll env fuel (roundsCalls n) w = some w' →
    w'.eng.urcTable = w.eng.urcTable ∧ rxringBytes w'.eng.rx = [] := by
  induction n with
  | zero =>
    intro w w' _ hring _ h
    obtain rfl := Option.some.inj h
    exact ⟨rfl, hring⟩
  | succ n ih =>
    intro w w' hready hring hfuel h
    have hused : rxringUsed w.eng.rx < fuel := by
      rw [← length_rxringBytes, hring]
      exact hfuel
    obtain ⟨v, hv, hadv, hempty, -, -⟩ := round_advances hfit hprompt henv hready hused
    rw [roundsCalls, List.replicate_succ, List.flatten_cons, execAll_append, hv,
      Option.bind_some] at h
    obtain ⟨htable, hrest⟩ := ih hadv.ready hempty hfuel h
    exact ⟨htable.trans (round_urcTable hfit henv hused hv), hrest⟩

/-- **Waiting** completes what is in the queue. -/
theorem wait_rests {fuel : Nat} {w : World cfg σ} (hready : Ready w)
    (hfuel : rxringUsed w.eng.rx < fuel) :
    ∃ v, execAll env fuel (roundsCalls (w.eng.qCount + 1)) w = some v ∧ Advances w v ∧
      v.eng.qCount = 0 ∧ rxringBytes v.eng.rx = [] ∧ v.eng.urcTable = w.eng.urcTable := by
  have hpos := Nat.zero_lt_of_lt hfuel
  obtain ⟨u, hu, hadv, hempty, hle, -⟩ := round_advances hfit hprompt henv hready hfuel
  obtain ⟨v, hv, hadv', h0⟩ :=
    rounds_advance hfit hprompt henv hpos w.eng.qCount hadv.ready hempty hle
  obtain ⟨htable, hring⟩ := rounds_rest hfit hprompt henv _ hadv.ready hempty hpos hv
  refine ⟨v, ?_, hadv.trans hadv', (hadv'.ready.of_rounds h0).1, hring,
    htable.trans (round_urcTable hfit henv hfuel hu)⟩
  rw [roundsCalls, List.replicate_succ, List.flatten_cons, execAll_append, hu]
  exact hv

/-- **The end of a line**, when no command is active: what may have begun is over. -/
theorem lineEnd_rests (hsize : cfg.rxBufSize ≤ 2 ^ 15) {fuel : Nat} {w : World cfg σ}
    (hready : Ready w) (h0 : w.eng.qCount = 0) (hring : rxringBytes w.eng.rx = [])
    (hfuel : 1 < fuel) :
    ∃ v, execAll env fuel [.api (.feed [10]), .process] w = some v ∧ Advances w v ∧
      v.eng.state = .idle ∧ rxringBytes v.eng.rx = [] ∧ v.eng.lfsm = .start ∧
      v.eng.urcTable = w.eng.urcTable := by
  have hused : rxringUsed w.eng.rx = 0 := by
    rw [← length_rxringBytes, hring]
    rfl
  have hpos := cfg.rx_pos
  have hone : rxringUsed w.eng.rx + [(10 : UInt8)].length = 1 := by
    rw [hused]
    rfl
  obtain ⟨hrx, hbytes⟩ := atFeed_fits [10] (g := w.eng) (by omega) (by omega)
  -- the LF is in the ring
  let w₁ := w.putEng (atFeed [10] w.eng)
  have hbytes₁ : rxringBytes w₁.eng.rx = [10] := by
    change rxringBytes (atFeed [10] w.eng).rx = _
    rw [hrx, hbytes, hring]
    rfl
  have hused₁ : rxringUsed w₁.eng.rx < fuel := by
    rw [← length_rxringBytes, hbytes₁]
    exact hfuel
  have hfed : Advances w w₁ := .of_quiet hready ⟨rfl, rfl, rfl, rfl⟩ rfl
    ⟨hready.times.timer, hready.times.queue⟩ (.refl _)
  obtain ⟨v, hv, hadv, hempty, -, -⟩ := process_advances hfit hprompt henv hfed.ready hused₁
  have htable := process_urcTable hfit henv hused₁ hv
  obtain ⟨-, hidle⟩ := (hfed.trans hadv).rest h0
  refine ⟨v, ?_, hfed.trans hadv, hidle, hempty, ?_, htable⟩
  · change (exec env fuel .process w₁).bind (fun r => some r.2) = _
    rw [hv]
    rfl
  · -- nothing is done behind the drain loop
    obtain ⟨u, hu, hadv'⟩ := consume_advances hfit hprompt env [10] hfed.ready
    obtain ⟨hcount, hidle'⟩ := (hfed.trans hadv').rest h0
    have hdrained : afterDrain env (u.mapEng (setRx w₁.eng.rx.drained)) =
        some (u.mapEng (setRx w₁.eng.rx.drained)) := afterDrain_rest hidle' hcount
    rw [exec_process henv hused₁, hbytes₁, hu, Option.map_some, Option.bind_some, hdrained] at hv
    obtain ⟨-, rfl⟩ := Prod.mk.inj (Option.some.inj hv)
    have hfsm := consume_lf hu
    exact hfsm

omit hprompt henv in
/-- Between calls the engine is ready. -/
theorem Reachable.ready (hprompt : cfg.promptTimeoutMs < 2 ^ 32) {w : World cfg σ}
    (h : Reachable (fun env _ => env.Respects NotCancelling) w)
    (htimes : ∀ d ∈ acceptances w.log, d.timeoutMs < 2 ^ 32) : Ready w := by
  obtain ⟨hqueue, cur, -, hstate⟩ :=
    (wireDiscipline (σ := σ) hfit).reachable (fun _ _ henv => henv) wireRest_init h
  exact ⟨hqueue, hstate.imp And.left And.left, h.times hprompt htimes⟩

/-- **Starting over.** From any state reachable with hooks that cancel nothing, whatever is
in the ring, on its way or half received, waiting and the end of a line complete every
command that is open, once each and in order. Then the loop with a modem that answers what
it is asked goes as it should, with the handlers that were registered. -/
theorem recovers (hsize : cfg.rxBufSize ≤ 2 ^ 15) (htx : cfg.txBufSize ≤ 2 ^ 16)
    (hecho : cfg.echoCancel = true) {w : World cfg σ}
    (h : Reachable (fun env _ => env.Respects NotCancelling) w)
    (htimes : ∀ d ∈ acceptances w.log, d.timeoutMs < 2 ^ 32) (s : σ) {fuel : Nat}
    (hfuel : rxringUsed w.eng.rx + 1 < fuel) :
    ∃ w₀, execAll env fuel (recoveryCalls (w.eng.qCount + 1)) (w.putApp s) = some w₀ ∧
      completions w₀.log = completions w.log ++ w.eng.pending ∧
      firings w₀.log = firings w.log ++ w.eng.pending.filterMap CmdEntry.note ∧
      ∀ out unfed w', Loop w.eng.urcTable w₀ out unfed w' →
        ∃ settled, Understood w.eng.urcTable w₀ out settled unfed w' := by
  have hready := h.ready hfit hprompt htimes
  have hready' : Ready (w.putApp s) := ⟨hready.queue, hready.rest, hready.times⟩
  obtain ⟨v, hv, hadv, hcount, hring, htable⟩ :=
    wait_rests hfit hprompt henv hready' (Nat.lt_of_succ_lt hfuel)
  obtain ⟨w₀, hw₀, hadv', hidle, hring', hfsm, htable'⟩ :=
    lineEnd_rests hfit hprompt henv hsize hadv.ready hcount hring
      (Nat.lt_of_le_of_lt (Nat.le_add_left 1 _) hfuel)
  have hrun : execAll env fuel (recoveryCalls (w.eng.qCount + 1)) (w.putApp s) = some w₀ := by
    rw [recoveryCalls, execAll_append, show execAll env fuel (roundsCalls (w.eng.qCount + 1))
      (w.putApp s) = some v from hv]
    exact hw₀
  obtain ⟨done, hpend, hcomp, hfire⟩ := (hadv.trans hadv').served
  have hnone : w₀.eng.pending = [] := by
    rw [Engine.pending, (hadv'.rest hcount).1, Circular.window_zero]
  rw [hnone, List.append_nil] at hpend
  obtain rfl : w.eng.pending = done := hpend
  refine ⟨w₀, hrun, hcomp, hfire, fun out unfed w' hloop => ?_⟩
  have hreach : Reachable (fun env _ => env.Respects NotCancelling) (w.putApp s) :=
    have hstate : exec env 0 (.api .state) (w.putApp s) =
      some (.state w.eng.state, w.putApp s) := rfl
    .step s h henv.respects hstate
  have hurcs : w₀.eng.urcTable = w.eng.urcTable := htable'.trans htable
  rw [← hurcs] at hloop ⊢
  exact hloop.understood hfit hsize htx hecho
    (hreach.of_calls (fun _ _ => henv.respects) hrun) hidle hring' hfsm

end

/-- Two commands, the first one waiting, a line begun and more of it in the ring. -/
theorem recovers_begun : ∃ w w₀ : World Config.default Unit,
    (w.eng.qCount = 2 ∧ w.eng.state = .waiting ∧ w.eng.lfsm = .data ∧
      rxringBytes w.eng.rx = ascii "Q: 1") ∧
    execAll plainEnv 16 (recoveryCalls 3) w = some w₀ ∧
    completions w₀.log = completions w.log ++ w.eng.pending ∧
    ∀ out unfed w', Loop w.eng.urcTable w₀ out unfed w' →
      ∃ settled, Understood w.eng.urcTable w₀ out settled unfed w' := by
  obtain ⟨w, hw, hp⟩ := Reachable.of_execAll (P := fun env _ => env.Respects NotCancelling)
    plainEnv 16
    [.api (.send (some probe)), .api (.send (some probe)), .process, .api (.feed (ascii "+CS")),
      .process, .api (.feed (ascii "Q: 1"))]
    () (fun _ => plainEnv_respects _)
    (fun w : World Config.default Unit => decide ((w.eng.qCount = 2 ∧ w.eng.state = .waiting ∧
      w.eng.lfsm = .data ∧ rxringBytes w.eng.rx = ascii "Q: 1") ∧
      (∀ d ∈ acceptances w.log, d.timeoutMs < 2 ^ 32) ∧ rxringUsed w.eng.rx + 1 < 16))
    (by decide +kernel)
  obtain ⟨hscene, htimes, hused⟩ := of_decide_eq_true hp
  obtain ⟨w₀, hrun, hcomp, -, hloop⟩ := recovers Config.default_fits (by decide) plainEnv_silent
    (by decide) (by decide) rfl hw htimes () hused
  rw [hscene.1] at hrun
  exact ⟨w, w₀, hscene, hrun, hcomp, hloop⟩

end LibAt
