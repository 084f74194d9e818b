import LibAt.Discipline
import LibAt.Framing

/-!
# Lines with a carriage return in them

LF never gets into the line buffer. CR gets in at one place: behind a CR, where
the FSM expects an LF and goes back to collecting with whatever byte comes
instead. `Clean` lines are kept by everything else a call does, hooks that call
anything included (`tidy_handling`), so in a run that takes no CR there
everything delivered is clean (`clean_of_undoubled`). On the machine alone the
condition is exact: a line with a doubled CR is handed over as it is if and only
if it fills the buffer (`framer_doubled_iff`).
-/

namespace LibAt

variable {cfg : Config} {σ : Type}

/-- A line without CR and LF. -/
def Clean (l : List UInt8) : Prop := (13 : UInt8) ∉ l ∧ (10 : UInt8) ∉ l

instance (l : List UInt8) : Decidable (Clean l) := inferInstanceAs (Decidable (_ ∧ _))

/-- The lines a log entry delivers are clean: a dispatched line, the argument of a
handler, the lines of a response. -/
def Event.Clean : Event cfg → Prop
  | .line _ l | .urc _ _ l => LibAt.Clean l
  | .fired _ _ r => ∀ l ∈ r.lines, LibAt.Clean l
  | _ => True

/-- What has been collected, kept and delivered is clean. -/
structure Tidy (w : World cfg σ) : Prop where
  line : Clean w.eng.line
  pool : ∀ i : Fin cfg.respLinesMax, i.val < w.eng.pool.count → Clean (w.eng.pool.data i)
  log : ∀ ev ∈ w.log, ev.Clean

theorem Tidy.init (s : σ) : Tidy (⟨atInit cfg, s, []⟩ : World cfg σ) :=
  ⟨by simp [Clean, atInit], fun _ h => absurd h (Nat.not_lt_zero _), by simp⟩

/-- The lines of a response come out of the pool. -/
theorem Tidy.response {w : World cfg σ} (h : Tidy w) (s : AtResult) (c : Int) :
    ∀ l ∈ (finalResponse s c w.eng).lines, Clean l := by
  intro l hl
  obtain ⟨i, hi, rfl⟩ := List.mem_iff_getElem.mp hl
  simp only [finalResponse, RespPool.lines, List.length_take, List.length_ofFn] at hi
  simp only [finalResponse, RespPool.lines, List.getElem_take, List.getElem_ofFn]
  exact h.pool ⟨i, by omega⟩ (by dsimp only; omega)

/-! ## What keeps lines clean -/

/-- More of the log, the same line and pool. -/
theorem Tidy.of_log {w w' : World cfg σ} (h : Tidy w) {evs : List (Event cfg)}
    (hlog : w'.log = w.log ++ evs) (hline : w'.eng.line = w.eng.line)
    (hpool : w'.eng.pool = w.eng.pool) (hevs : ∀ ev ∈ evs, ev.Clean) : Tidy w' := by
  refine ⟨hline ▸ h.line, hpool ▸ h.pool, ?_⟩
  rw [hlog]
  exact fun ev hev => (List.mem_append.mp hev).elim (h.log ev) (hevs ev)

theorem Tidy.emit {w : World cfg σ} (h : Tidy w) (ev : Event cfg) (hev : ev.Clean) :
    Tidy (w.emit ev) := h.of_log rfl rfl rfl (by simpa using hev)

theorem SentPair.clean {hook : Bool} {site₁ site₂ : WriteSite} {data term : List UInt8} {b : Bool}
    {evs : List (Event cfg)} (h : SentPair hook site₁ site₂ data term b evs) :
    ∀ ev ∈ evs, ev.Clean :=
  h.forall (fun _ _ => trivial) (fun _ _ => trivial) fun _ => trivial

theorem CmdEntry.notice_clean (e : CmdEntry cfg) {r : Response} (hr : ∀ l ∈ r.lines, Clean l) :
    ∀ ev ∈ e.notice r, ev.Clean := by
  rw [CmdEntry.notice]
  split
  · simp
  · exact List.forall_mem_singleton.mpr hr

theorem Tidy.emptied {w w' : World cfg σ} (h : Tidy w) {evs : List (Event cfg)}
    (hlog : w'.log = w.log ++ evs) (hline : w'.eng.line = w.eng.line ∨ w'.eng.line = [])
    (hpool : w'.eng.pool = .zero cfg) (hevs : ∀ ev ∈ evs, ev.Clean) : Tidy w' := by
  refine ⟨?_, ?_, ?_⟩
  · rcases hline with hl | hl <;> rw [hl]
    · exact h.line
    · exact ⟨by simp, by simp⟩
  · rw [hpool]
    exact fun _ hi => absurd hi (Nat.not_lt_zero _)
  · rw [hlog]
    exact fun ev hev => (List.mem_append.mp hev).elim (h.log ev) (hevs ev)

/-- A clean line is kept or dropped. -/
theorem Tidy.accumulate {w : World cfg σ} (h : Tidy w) {l : List UInt8} (hl : Clean l) :
    Tidy (accumulate l w) := by
  have hemit (k : LineKind) : Tidy (w.emit (.line k l)) := h.emit _ hl
  rw [LibAt.accumulate]
  split
  · cases hp : respPoolAppend w.eng.pool l with
    | none =>
      simp only [World.emit_eng, hp]
      exact (hemit .payload).of_log (List.append_nil _).symm rfl rfl (by simp)
    | some p =>
      simp only [World.emit_eng, hp]
      refine ⟨h.line, fun i hi => ?_, (hemit .payload).log⟩
      rw [respPoolAppend] at hp
      split at hp
      · rename_i hlt
        obtain rfl := Option.some.inj hp
        -- the new line stands at the old count, the others where they stood
        change Clean (Function.update w.eng.pool.data ⟨w.eng.pool.count, hlt⟩ _ i)
        by_cases hi' : i = ⟨w.eng.pool.count, hlt⟩
        · rw [hi', Function.update_self]
          exact ⟨fun hm => hl.1 (List.mem_of_mem_take hm), fun hm => hl.2 (List.mem_of_mem_take hm)⟩
        · rw [Function.update_of_ne hi']
          have hne : i.val ≠ w.eng.pool.count := fun he => hi' (Fin.ext he)
          have hle : i.val < (w.eng.pool.count + 1) % 256 := hi
          have hmod := Nat.mod_le (w.eng.pool.count + 1) 256
          exact h.pool i (by omega)
      · cases hp
  · exact hemit .stray

/-- **Nothing but the FSM** puts a CR or LF into a line. -/
theorem tidy_handling : Handling (fun _ _ => True)
    (fun w w' : World cfg σ => Tidy w → Tidy w') fun l w w' => Clean l → Tidy w → Tidy w' where
  refl _ h := h
  trans h h' hw := h' (h hw)
  app _ _ h := h.of_log (List.append_nil _).symm rfl rfl (by simp)
  nested _ _ _ _ _ h := h.emit _ trivial
  feed _ _ _ _ h := h.of_log rfl rfl rfl (by simp [Event.Clean])
  send _ _ _ hd h := by
    obtain ⟨-, -, rfl⟩ := atSend_ok hd
    exact h.of_log rfl rfl rfl (by simp [Event.Clean])
  tick _ _ _ h := h.of_log (List.append_nil _).symm rfl rfl (by simp)
  table _ _ h := h.of_log (List.append_nil _).symm rfl rfl (by simp)
  finalize w s c h := by
    refine h.of_log (World.fire_log _ _ _) ?_ ?_ (CmdEntry.notice_clean _ (h.response s c))
    · rw [World.fire_eng]
      rfl
    · rw [World.fire_eng]
      rfl
  dequeue _ _ _ h := h.of_log rfl rfl rfl (by simp [Event.Clean])
  drainNotify w e h := by
    refine h.of_log (World.fire_log _ _ _) ?_ ?_ (e.notice_clean (by simp [abortedResponse]))
    · rw [World.fire_eng]
    · rw [World.fire_eng]
  drainNext _ _ h := h.of_log rfl rfl rfl (by simp [Event.Clean])
  reset _ _ h := h.emptied (List.append_nil _).symm (.inr rfl) rfl (by simp)
  line_trans h h' hl hw := h' (h hl hw)
  empty _ _ h := h
  echo _ _ _ hl h := h.of_log rfl rfl rfl (by simpa [Event.Clean] using hl)
  ignored _ _ _ hl h := h.emit _ hl
  answered env w l _ hl h := by
    obtain ⟨evs, hsent, hlog⟩ := answerPrompt_sent env (w.eng.queue w.eng.qTail)
      (w.emit (.line (.prompt true) l))
    refine (h.emit (.line (.prompt true) l) hl).of_log hlog ?_ ?_ hsent.clean
    · rw [answerPrompt_eng]
    · rw [answerPrompt_eng]
  final _ _ _ hl h := h.emit _ hl
  urc _ _ _ _ hl h := (h.emit (.line .urc _) hl).emit _ hl
  other _ _ _ hl h := h.accumulate hl
  transmit env w h := by
    obtain ⟨evs, hsent, hlog⟩ := transmit_sent env w
    refine h.emptied hlog (.inl ?_) ?_ (List.forall_mem_cons.mpr ⟨trivial, hsent.clean⟩)
    · rw [transmit_eng]
      rfl
    · rw [transmit_eng]
      rfl

/-! ## Doubled CRs -/

/-- The byte `b` is a CR behind a CR, and the line buffer has room for it. -/
def DoubledCr (b : UInt8) (g : Engine cfg) : Prop :=
  b = 13 ∧ g.lfsm = .cr ∧ g.line.length < cfg.lineMax - 1

instance (b : UInt8) (g : Engine cfg) : Decidable (DoubledCr b g) :=
  inferInstanceAs (Decidable (_ ∧ _ ∧ _))

/-- **On the machine alone** a doubled CR gets into a line, unless the line fills
the buffer. -/
theorem framer_doubled_iff {l : List UInt8} (hl : ModemLine l) {f : Framer} (hf : f.lfsm = .start) :
    (framer cfg).output f (l ++ [13, 13, 10]) = [cut cfg l] ↔ cfg.lineMax - 1 ≤ l.length := by
  obtain ⟨htext, hnone⟩ := framer_text cfg hl hf
  have hout : (framer cfg).output f (l ++ [13, 13, 10]) = [cut cfg (l ++ [13])] := by
    rw [Transducer.output_append, htext, hnone, ← pushLine_cut]
    simp [framer, Transducer.output]
  rw [hout, List.cons.injEq, eq_self_iff_true, and_true, cut, cut]
  constructor
  · intro heq
    have hlen := congrArg List.length heq
    rw [List.length_take, List.length_take, List.length_append, List.length_singleton] at hlen
    omega
  · exact fun hfull => List.take_append_of_le_length hfull

theorem clean_push {l : List UInt8} (h : Clean l) {b : UInt8}
    (hcr : l.length < cfg.lineMax - 1 → b ≠ 13) (hlf : b ≠ 10) : Clean (pushLine cfg l b) := by
  rw [pushLine]
  split
  · rename_i hroom
    have hb := hcr hroom
    exact ⟨by simp [h.1, Ne.symm hb], by simp [h.2, Ne.symm hlf]⟩
  · exact h

/-- **A byte** keeps the line clean, and only a clean line is dispatched, unless
it is a doubled CR. -/
theorem clean_byte {b : UInt8} {g : Engine cfg} (hb : ¬DoubledCr b g) (h : Clean g.line) :
    (∀ g', lfsmByte b g = .more g' → Clean g'.line ∧ g'.pool = g.pool) ∧
      ∀ l, lfsmByte b g = .line l → Clean l := by
  rw [lfsmByte]
  cases hs : g.lfsm with
  | start =>
    dsimp only
    split
    · refine ⟨fun g' hg => ?_, fun l hl => by cases hl⟩
      obtain rfl := ByteStep.more.inj hg
      exact ⟨h, rfl⟩
    · rename_i hne
      refine ⟨fun g' hg => ?_, fun l hl => by cases hl⟩
      obtain rfl := ByteStep.more.inj hg
      rw [not_or] at hne
      exact ⟨⟨by simpa using Ne.symm hne.1, by simpa using Ne.symm hne.2⟩, rfl⟩
  | data =>
    dsimp only
    split
    · refine ⟨fun g' hg => ?_, fun l hl => by cases hl⟩
      obtain rfl := ByteStep.more.inj hg
      exact ⟨h, rfl⟩
    · rename_i hcr
      split
      · refine ⟨fun g' hg => (by cases hg), fun l hl => ?_⟩
        obtain rfl := ByteStep.line.inj hl
        exact h
      · rename_i hlf
        refine ⟨fun g' hg => ?_, fun l hl => by cases hl⟩
        obtain rfl := ByteStep.more.inj hg
        exact ⟨clean_push h (fun _ => hcr) hlf, rfl⟩
  | cr =>
    dsimp only
    split
    · refine ⟨fun g' hg => (by cases hg), fun l hl => ?_⟩
      obtain rfl := ByteStep.line.inj hl
      exact h
    · rename_i hlf
      split
      · refine ⟨fun g' hg => (by cases hg), fun l hl => ?_⟩
        obtain rfl := ByteStep.line.inj hl
        decide
      · refine ⟨fun g' hg => ?_, fun l hl => by cases hl⟩
        obtain rfl := ByteStep.more.inj hg
        exact ⟨clean_push h (fun hroom hb' => hb ⟨hb', hs, hroom⟩) hlf, rfl⟩

/-- The drain loop of the call takes no doubled CR. -/
def NoDoubledCr (env : Env σ) (fuel : Nat) : TopCall → World cfg σ → Prop
  | .process, w => ∀ v b rx, Rounds (invoke env fuel) env w v →
      rxringPop v.eng.rx = some (b, rx) → ¬DoubledCr b v.eng
  | _, _ => True

/-- The worlds a run reaches whose calls take no doubled CR. Hooks may call
anything, and each call may meet a different environment. -/
inductive Undoubled : World cfg σ → Prop
  /-- after `at_init` -/
  | init (s : σ) : Undoubled ⟨atInit cfg, s, []⟩
  /-- one more call -/
  | step {w w' : World cfg σ} {env : Env σ} {fuel : Nat} {call : TopCall} {r : ApiRet} (s : σ) :
      Undoubled w → NoDoubledCr env fuel call (w.putApp s) →
      exec env fuel call (w.putApp s) = some (r, w') → Undoubled w'

/-- The drain loop keeps lines clean. -/
theorem drainRx_tidy {env : Env σ} {n : Nat} {w : World cfg σ}
    (hclean : ∀ v b rx, Rounds (invoke env n) env w v → rxringPop v.eng.rx = some (b, rx) →
      ¬DoubledCr b v.eng) {fuel : Nat} :
    ∀ {v v' : World cfg σ}, Rounds (invoke env n) env w v →
      drainRx (invoke env n) env fuel v = some v' → Tidy v → Tidy v' := by
  have hinv : InvokeKeeps (fun w w' => Tidy w → Tidy w')
      (fun inv (w : World cfg σ) => invoke env n inv w) :=
    tidy_handling.hooks env.respects_true n
  induction fuel with
  | zero => intro v v' _ h; cases h
  | succ fuel ih =>
    intro v v' hrounds h hv
    rw [drainRx] at h
    rcases hp : rxringPop v.eng.rx with _ | ⟨b, rx⟩ <;> rw [hp] at h
    · obtain rfl := Option.some.inj h
      exact hv
    · obtain ⟨u, hb, h⟩ := Option.bind_eq_some_iff.mp h
      refine ih (hrounds.round hp hb) h ?_
      have hpopped : Tidy (v.putEng { v.eng with rx := rx }) :=
        hv.of_log (List.append_nil _).symm rfl rfl (by simp)
      obtain ⟨hmore, hline⟩ := clean_byte (g := { v.eng with rx := rx })
        (hclean v b rx hrounds hp) hv.line
      rw [processByte, World.putEng_eng] at hb
      cases hstep : lfsmByte b { v.eng with rx := rx } with
      | more g =>
        rw [hstep] at hb
        obtain rfl := Option.some.inj hb
        obtain ⟨hl, hpool⟩ := hmore g hstep
        refine ⟨hl, ?_, hv.log⟩
        rw [World.putEng_eng, hpool]
        exact hv.pool
      | line l =>
        rw [hstep] at hb
        obtain ⟨u₁, hd, rfl⟩ := Option.map_eq_some_iff.mp hb
        have hu := tidy_handling.engineDispatchLine hinv hd (hline l hstep) hpopped
        exact ⟨⟨by simp [lineDone], by simp [lineDone]⟩, hu.pool, hu.log⟩

/-- **A call** that takes no doubled CR keeps lines clean. -/
theorem exec_tidy {env : Env σ} {fuel : Nat} {call : TopCall} {r : ApiRet} {w w' : World cfg σ}
    (hclean : NoDoubledCr env fuel call w) (h : exec env fuel call w = some (r, w'))
    (hw : Tidy w) : Tidy w' := by
  have hinv : InvokeKeeps (fun w w' => Tidy w → Tidy w')
      (fun inv (w : World cfg σ) => invoke env fuel inv w) :=
    tidy_handling.hooks env.respects_true fuel
  cases call with
  | process =>
    obtain ⟨w₁, h₁, hret⟩ := Option.map_eq_some_iff.mp h
    obtain ⟨-, rfl⟩ := Prod.mk.inj hret
    obtain ⟨v, hv, h₁⟩ := Option.bind_eq_some_iff.mp h₁
    exact tidy_handling.afterDrain hinv h₁ (drainRx_tidy hclean .start hv hw)
  | setTraceHook hook =>
    obtain ⟨-, rfl⟩ := Prod.mk.inj (Option.some.inj h)
    exact hw.of_log (List.append_nil _).symm rfl rfl (by simp)
  | deinit =>
    obtain ⟨w₁, h₁, hret⟩ := Option.map_eq_some_iff.mp h
    obtain ⟨-, rfl⟩ := Prod.mk.inj hret
    have hreset : Tidy w₁ := tidy_handling.atReset hinv ⟨.handler, trivial⟩ h₁ hw
    exact hreset.of_log (List.append_nil _).symm rfl rfl (by simp)
  | api c =>
    by_cases hfeed : ∃ data, c = .feed data
    · obtain ⟨data, rfl⟩ := hfeed
      obtain ⟨-, rfl⟩ := Prod.mk.inj (Option.some.inj h)
      exact hw.of_log (List.append_nil _).symm rfl rfl (by simp)
    · have hno (data : List UInt8) : c ≠ .feed data := fun he => hfeed ⟨data, he⟩
      exact tidy_handling.apiCall hinv hno (fun _ => ⟨.handler, trivial⟩) h hw

/-- **Delivered lines are clean** in every run that takes no doubled CR: no line
dispatched, no argument of a handler and no line of a response contains a CR or
an LF. And a doubled CR is too much: a line with one is handed over as it is only where
there is no room for another byte. -/
theorem clean_of_undoubled {w : World cfg σ} (h : Undoubled w) :
    (∀ ev ∈ w.log, ev.Clean) ∧ ∀ (l : List UInt8) (f : Framer), ModemLine l → f.lfsm = .start →
      ((framer cfg).output f (l ++ [13, 13, 10]) = [cut cfg l] ↔ cfg.lineMax - 1 ≤ l.length) := by
  have htidy : Tidy w := by
    induction h with
    | init s => exact .init s
    | step s _ hclean hx ih =>
      exact exec_tidy hclean hx (ih.of_log (List.append_nil _).symm rfl rfl (by simp))
  exact ⟨htidy.log, fun l f hl hf => framer_doubled_iff hl hf⟩

/-- The drain loop takes only bytes that pass a test. -/
def drainAll (p : UInt8 → Engine cfg → Bool)
    (invoke : Invocation → World cfg σ → Option (World cfg σ)) (env : Env σ) :
    Nat → World cfg σ → Bool
  | 0, _ => false
  | fuel + 1, w =>
    match rxringPop w.eng.rx with
    | none => true
    | some (b, rx) =>
      p b w.eng && (processByte invoke env b (w.putEng { w.eng with rx := rx })).all
        (drainAll p invoke env fuel)

theorem Rounds.passes {p : UInt8 → Engine cfg → Bool}
    {invoke : Invocation → World cfg σ → Option (World cfg σ)} {env : Env σ} {w v : World cfg σ}
    (h : Rounds invoke env w v) {fuel : Nat} (hall : drainAll p invoke env fuel w = true) :
    ∃ fuel, drainAll p invoke env fuel v = true := by
  induction h with
  | start => exact ⟨fuel, hall⟩
  | round _ hpop hb ih =>
    obtain ⟨fuel, hv⟩ := ih
    cases fuel with
    | zero => cases hv
    | succ fuel =>
      rw [drainAll, hpop, Bool.and_eq_true, hb] at hv
      exact ⟨fuel, hv.2⟩

/-- That a call takes no doubled CR can be computed. -/
theorem NoDoubledCr.of_drainAll {env : Env σ} {fuel : Nat} {call : TopCall} {w : World cfg σ}
    (h : drainAll (fun b g => decide ¬DoubledCr b g) (invoke env fuel) env fuel w = true) :
    NoDoubledCr env fuel call w := by
  cases call with
  | process =>
    intro v b rx hrounds hpop
    obtain ⟨n, hv⟩ := hrounds.passes h
    cases n with
    | zero => cases hv
    | succ n =>
      rw [drainAll, hpop, Bool.and_eq_true] at hv
      exact of_decide_eq_true hv.1
  | _ => trivial

/-- Several calls in one environment, if none of them takes a doubled CR. -/
def undoubledRun (env : Env σ) (fuel : Nat) : List TopCall → World cfg σ → Option (World cfg σ)
  | [], w => some w
  | c :: cs, w =>
    if drainAll (fun b g => decide ¬DoubledCr b g) (invoke env fuel) env fuel w then
      (exec env fuel c w).bind fun r => undoubledRun env fuel cs r.2
    else none

theorem Undoubled.of_run {env : Env σ} {fuel : Nat} {cs : List TopCall} :
    ∀ {w w' : World cfg σ}, Undoubled w → undoubledRun env fuel cs w = some w' → Undoubled w' := by
  induction cs with
  | nil =>
    intro w w' h hrun
    obtain rfl := Option.some.inj hrun
    exact h
  | cons c cs ih =>
    intro w w' h hrun
    rw [undoubledRun] at hrun
    split at hrun
    · rename_i hclean
      obtain ⟨⟨r, v⟩, hx, hrun⟩ := Option.bind_eq_some_iff.mp hrun
      exact ih (h.step w.app (.of_drainAll hclean) hx) hrun
    · cases hrun

/-- A command that is answered with a line and `OK`. -/
theorem clean_of_undoubled_answered : ∃ w : World Config.default Unit,
    .line .payload (ascii "A") ∈ w.log ∧ .line .final (ascii "OK") ∈ w.log ∧
      ∀ ev ∈ w.log, ev.Clean := by
  have hrun : (undoubledRun plainEnv 16
      [.api (.send (some probe)), .process, .api (.feed (ascii "A\r\nOK\r\n")), .process]
      (⟨atInit Config.default, (), []⟩ : World Config.default Unit)).any (fun w =>
        decide (.line .payload (ascii "A") ∈ w.log ∧ .line .final (ascii "OK") ∈ w.log)) = true := by
    decide +kernel
  obtain ⟨w, hw, hp⟩ := (Option.any_eq_true _ _).mp hrun
  obtain ⟨hpayload, hfinal⟩ := of_decide_eq_true hp
  exact ⟨w, hpayload, hfinal, (clean_of_undoubled ((Undoubled.init ()).of_run hw)).1⟩

/-- `OK` with a doubled CR behind it is delivered with a CR at its end, and the
command still waits. -/
theorem doubled_cr_delivered : ∃ w : World Config.default Unit, Reachable (fun _ _ => True) w ∧
    .line .payload (ascii "OK\r") ∈ w.log ∧ ¬Clean (ascii "OK\r") ∧ w.eng.state = .waiting := by
  obtain ⟨w, hw, hp⟩ := Reachable.of_execAll (P := fun _ _ => True) plainEnv 16
    [.api (.send (some probe)), .process, .api (.feed (ascii "OK\r\r\n")), .process] ()
    (fun _ => trivial) (fun w : World Config.default Unit =>
      decide (.line .payload (ascii "OK\r") ∈ w.log ∧ w.eng.state = .waiting)) (by decide +kernel)
  obtain ⟨hline, hs⟩ := of_decide_eq_true hp
  exact ⟨w, hw, hline, by decide, hs⟩

end LibAt
