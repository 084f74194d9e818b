import Mathlib.Data.List.Chain
import LibAt.Completion
import LibAt.Discipline

/-!
# One exchange with the modem

What happens between the transmission of a command and its callback: the
answers to prompts and the payload lines. A prompt line that is answered and the
body follow each other in the log, one to one (`Reachable.follows`), so a command's
body goes out once exactly when at most one prompt is answered; which prompts are
answered is up to the command transmitted last (`Reachable.prompted`). The response
pool holds the first `AT_CFG_RESP_LINES_MAX` payload lines since the transmission
(`Collecting`), so a callback sees every line exactly when no more than that came in.
-/

namespace LibAt

variable {cfg : Config} {σ : Type} {allowed : HookKind → ApiCall → Prop}

/-! ## Prompts and answers -/

/-- A call of `at_platform_write` at the given place. -/
def Event.isWrite (site : WriteSite) : Event cfg → Bool
  | .write s _ _ => s == site
  | _ => false

/-- A prompt line that is answered: it came in while the active command had a body
to send. -/
def Event.answers : Event cfg → Bool
  | .line (.prompt true) _ => true
  | _ => false

/-- How a prompt is answered: the body is written right behind the prompt line and
nowhere else, the Ctrl-Z right behind a body. -/
def Follows (a b : Event cfg) : Prop :=
  (b.isWrite .body = a.answers) ∧ (b.isWrite .ctrlZ → a.isWrite .body)

/-- Where every `p` comes right behind a `q`, there are as many `q`s. -/
theorem countP_le_of_isChain {α : Type} {p q : α → Bool} {l : List α} :
    ∀ {x : α}, List.IsChain (fun a b => p b → q a) (x :: l) → l.countP p ≤ (x :: l).countP q := by
  induction l with
  | nil => exact fun _ => Nat.zero_le _
  | cons b l ih =>
    intro x h
    obtain ⟨hb, hl⟩ := List.isChain_cons_cons.mp h
    have hcount := ih hl
    rw [List.countP_cons, List.countP_cons (a := x)]
    split
    · rename_i hp
      rw [if_pos (hb hp)]
      omega
    · omega

/-- Where every `q` comes right before a `p` as well, there are no more. -/
theorem countP_eq_of_isChain {α : Type} {p q : α → Bool} {l : List α} {c : α} (hc : p c = false) :
    ∀ {x : α}, List.IsChain (fun a b => p b = q a) (x :: (l ++ [c])) →
      l.countP p = (x :: l).countP q := by
  induction l with
  | nil =>
    intro x h
    obtain ⟨hx, -⟩ := List.isChain_cons_cons.mp h
    rw [hc] at hx
    simp [← hx]
  | cons b l ih =>
    intro x h
    obtain ⟨hb, hl⟩ := List.isChain_cons_cons.mp h
    rw [List.countP_cons, List.countP_cons (a := x), ih hl, hb]

/-- The log entries of one transition follow each other, and what comes before or
behind them makes no difference. -/
theorem Emits.follows {evs : List (Event cfg)} (h : Emits allowed evs) :
    List.IsChain Follows evs ∧
      (∀ ev ∈ evs.head?, ∀ a : Event cfg, a.answers = false → Follows a ev) ∧
      ∀ ev ∈ evs.getLast?, ev.answers = false := by
  cases h with
  | prompt l hook body b evs hl hsent =>
    cases hsent <;> cases hook <;> simp [Follows, Event.isWrite, Event.answers]
  | start e hook b evs hsent =>
    cases hsent <;> cases hook <;> simp [Follows, Event.isWrite, Event.answers]
  | line k l hk =>
    cases k <;> simp_all [Follows, Event.isWrite, Event.answers]
  | _ => simp_all [Follows, Event.isWrite, Event.answers]

/-- **Answers follow prompts** in the log of every run, and no prompt is left to be
answered. -/
theorem Reachable.follows {P : Env σ → TopCall → Prop} {w : World cfg σ} (h : Reachable P w) :
    List.IsChain Follows w.log ∧ ∀ ev ∈ w.log.getLast?, ev.answers = false := by
  obtain ⟨s, hs⟩ := h.steps_any
  refine hs.log_invariant (I := fun log => List.IsChain Follows log ∧
    ∀ ev ∈ log.getLast?, ev.answers = false) (fun log evs hevs ih => ?_) ⟨.nil, by simp⟩
  obtain ⟨hchain, hhead, hlast⟩ := hevs.follows
  refine ⟨List.isChain_append.mpr ⟨ih.1, hchain, fun a ha b hb => hhead b hb a (ih.2 a ha)⟩, ?_⟩
  rw [List.getLast?_append]
  cases hl : evs.getLast? with
  | none => simpa using ih.2
  | some ev => simpa using hlast ev hl

/-- The log entries up to the end of the command. -/
def exchange : List (Event cfg) → List (Event cfg)
  | [] => []
  | .completed _ :: _ => []
  | ev :: evs => ev :: exchange evs

/-- The log ends with the exchange, or the command is completed behind it. -/
theorem exchange_cases (evs : List (Event cfg)) :
    exchange evs = evs ∨ ∃ e C, evs = exchange evs ++ .completed e :: C := by
  fun_induction exchange with
  | case1 => exact .inl rfl
  | case2 e evs => exact .inr ⟨e, evs, rfl⟩
  | case3 ev evs _ ih =>
    rcases ih with heq | ⟨e, C, heq⟩
    · exact .inl (congrArg _ heq)
    · exact .inr ⟨e, C, congrArg _ heq⟩

/-- The end of a command can follow an exchange. -/
theorem Reachable.follows_exchange {P : Env σ → TopCall → Prop} {w : World cfg σ}
    (h : Reachable P w) {A B : List (Event cfg)} {e : CmdEntry cfg}
    (hlog : w.log = A ++ .start e :: B) :
    ∃ e', List.IsChain Follows (.start e :: (exchange B ++ [.completed e'])) := by
  obtain ⟨hchain, hlast⟩ := h.follows
  rw [hlog] at hchain hlast
  have hB := hchain.right_of_append
  rcases exchange_cases B with heq | ⟨e', C, heq⟩
  · rw [heq]
    refine ⟨e, List.IsChain.append hB (List.isChain_singleton _) fun a ha b hb => ?_⟩
    obtain rfl : .completed e = b := by simpa using hb
    have hla : a ∈ (A ++ .start e :: B).getLast? := by
      rw [List.getLast?_append, Option.mem_def.mp ha]
      rfl
    exact ⟨(hlast a hla).symm, by simp [Event.isWrite]⟩
  · rw [heq, ← List.cons_append, List.append_cons] at hB
    exact ⟨e', hB.left_of_append⟩

/-- **The body goes out once** in an exchange with one answered prompt, and more often in
one with more. -/
theorem exchange_once_iff {P : Env σ → TopCall → Prop} {w : World cfg σ} (h : Reachable P w)
    {A B : List (Event cfg)} {e : CmdEntry cfg} (hlog : w.log = A ++ .start e :: B) :
    (exchange B).countP (Event.isWrite .body) ≤ 1 ∧
        (exchange B).countP (Event.isWrite .ctrlZ) ≤ 1 ↔
      (exchange B).countP Event.answers ≤ 1 := by
  obtain ⟨e', hchain⟩ := h.follows_exchange hlog
  have hbody := countP_eq_of_isChain (by rfl) (hchain.imp fun _ _ hab => hab.1)
  have hctrlZ := countP_le_of_isChain (hchain.imp fun _ _ hab => hab.2)
  -- the transmission itself is neither a prompt nor a body, the end is no Ctrl-Z
  rw [List.countP_cons_of_neg (by simp [Event.answers])] at hbody
  rw [List.countP_cons_of_neg (by simp [Event.isWrite]), List.countP_append, List.countP_append]
    at hctrlZ
  simp only [List.countP_singleton, Event.isWrite, Bool.false_eq_true, if_false] at hctrlZ
  omega

/-! ## Whom a prompt is for -/

/-- Where an entry of an extended log stands. -/
theorem append_split {α : Type} {xs ys P Q : List α} {x : α} (h : xs ++ ys = P ++ x :: Q) :
    (∃ Q', xs = P ++ x :: Q') ∨ ∃ E, P = xs ++ E ∧ ys = E ++ x :: Q := by
  rcases List.append_eq_append_iff.mp h with ⟨E, rfl, hys⟩ | ⟨E, rfl, hxs⟩
  · exact .inr ⟨E, rfl, hys⟩
  · cases E with
    | nil => exact .inr ⟨[], by simp, hxs.symm⟩
    | cons y E =>
      obtain ⟨rfl, -⟩ := List.cons.inj hxs
      exact .inl ⟨E, rfl⟩

/-- While a command is active, the log goes back to its transmission. -/
def Started (w : World cfg σ) : Prop :=
  w.eng.state ≠ .idle → ∃ A B, w.log = A ++ .start (w.eng.queue w.eng.qTail) :: B ∧
    ∀ e', .start e' ∉ B

/-- A transition that leaves the active command alone. -/
theorem Started.frame {w w' : World cfg σ} (h : Started w)
    (hactive : w'.eng.state ≠ .idle →
      w.eng.state ≠ .idle ∧ w'.eng.queue w'.eng.qTail = w.eng.queue w.eng.qTail)
    (hlog : GrowsBy (fun ev => ∀ e, ev ≠ .start e) w.log w'.log) : Started w' := by
  intro hne
  obtain ⟨hs, he⟩ := hactive hne
  obtain ⟨A, B, hA, hB⟩ := h hs
  obtain ⟨evs, hlog, hevs⟩ := hlog
  refine ⟨A, B ++ evs, ?_, fun e' hmem => ?_⟩
  · rw [hlog, hA, he, List.append_assoc, List.cons_append]
  · rcases List.mem_append.mp hmem with hmem | hmem
    · exact hB e' hmem
    · exact hevs _ hmem e' rfl

/-- A transition that does not touch the queue. -/
theorem Started.same {w w' : World cfg σ} (h : Started w) (hq : SameQueue w.eng w'.eng)
    (hs : w'.eng.state = w.eng.state)
    (hlog : GrowsBy (fun ev => ∀ e, ev ≠ .start e) w.log w'.log) : Started w' :=
  h.frame (fun hne => ⟨hs ▸ hne, by rw [hq.queue, hq.qTail]⟩) hlog

/-- A notification leaves the engine alone. -/
theorem Started.fire {w : World cfg σ} (h : Started w) {e : CmdEntry cfg} {r : Response} :
    Started (w.fire e r) := by
  refine h.frame (fun hne => ?_) ⟨_, World.fire_log e r w, fun ev hev e' heq => ?_⟩
  · rw [World.fire_eng] at hne ⊢
    exact ⟨hne, rfl⟩
  · rw [CmdEntry.notice] at hev
    split at hev <;> simp [heq] at hev

/-- **Step.** Without cancellation inside a callback, an active command has been
started, and nothing has been started since. -/
theorem Started.step (hfit : cfg.Fits) {allowed : HookKind → ApiCall → Prop}
    {s t : Snapshot cfg σ} (ht : Transition allowed s t) (hlife : Lifecycle s)
    (h : Started s.2) : Started t.2 := by
  have hq : GrowsBy (fun ev : Event cfg => ∀ e, ev ≠ .start e) s.2.log s.2.log := .refl _
  cases ht with
  | app | feed | traceHook | pop | lineDone => exact h.same ⟨rfl, rfl, rfl, rfl⟩ rfl hq
  | nested | echo | promptIgnored | final =>
    exact h.same ⟨rfl, rfl, rfl, rfl⟩ rfl (hq.concat (by simp))
  | urc => exact h.same ⟨rfl, rfl, rfl, rfl⟩ rfl ((hq.concat (by simp)).concat (by simp))
  | deinit | reset => exact h.frame (fun hne => absurd rfl hne) hq
  | dequeue => exact h.frame (fun hne => absurd rfl hne) (hq.concat (by simp))
  | send st w d g hd =>
    obtain ⟨-, hu⟩ := (Edit.send w d g hd).queue hfit hlife.queue
    exact h.frame (fun hne => ⟨hu.state ▸ hne,
      by rw [hu.qTail, hu.oldest (hlife.queue.active (hu.state ▸ hne))]⟩) (hq.concat (by simp))
  | tick st w ms =>
    obtain ⟨n, hn⟩ := atTick_eq ms w.eng
    rw [hn]
    exact h.same ⟨rfl, rfl, rfl, rfl⟩ rfl hq
  | register st w pre cb user r g hr =>
    obtain ⟨table, rfl⟩ := atRegisterUrc_eq hr
    exact h.same ⟨rfl, rfl, rfl, rfl⟩ rfl hq
  | deregister st w pre r g hr =>
    obtain ⟨table, rfl⟩ := atDeregisterUrc_eq hr
    exact h.same ⟨rfl, rfl, rfl, rfl⟩ rfl hq
  | byte w b g hb =>
    obtain ⟨line, lfsm, rfl⟩ := lfsmByte_eq hb
    exact h.same ⟨rfl, rfl, rfl, rfl⟩ rfl hq
  | promptAnswered w l env _ hp =>
    have heng := answerPrompt_eng env (w.eng.queue w.eng.qTail) (w.emit (.line (.prompt true) l))
    refine h.frame (fun _ => ⟨by simp [isPrompt_waiting hp], by rw [heng]; rfl⟩) ?_
    exact (hq.concat (by simp)).trans (answerPrompt_growsBy (by simp) (by simp) env _ _)
  | accumulate w l =>
    obtain ⟨pool, response, heng⟩ := accumulate_eng l w
    refine h.same (by rw [heng]; exact ⟨rfl, rfl, rfl, rfl⟩) (by rw [heng]) ?_
    rw [accumulate_log]
    exact hq.concat (by simp)
  | transmit w env =>
    obtain ⟨evs, hsent, hlog⟩ := transmit_sent env w
    have hevs : ∀ ev ∈ evs, ∀ e, ev ≠ .start e := hsent.forall (by simp) (by simp) (by simp)
    refine fun _ => ⟨w.log, evs, ?_, fun e' hmem => hevs _ hmem e' rfl⟩
    rw [hlog, transmit_eng]
    rfl
  | finalize st w status errCode =>
    exact Started.fire (w := w.putEng (setResponse (finalResponse status errCode w.eng) w.eng)) h
  | drain => exact h
  | drainNotify => exact h.fire
  | drainNext st w e =>
    -- the drain loop runs in an idle engine
    obtain ⟨_, hst, -⟩ := hlife.replay
    have hidle : w.eng.state = .idle := by
      cases st with
      | nil => exact hst.1
      | cons => exact absurd hst (by simp [StackOk])
    exact h.frame (fun hne => absurd hidle hne) (hq.concat (by simp))

/-- Each prompt line in the log came in for the command transmitted last, and is
answered if that command is a message with a body. -/
def Prompted (log : List (Event cfg)) : Prop :=
  ∀ P b l Q, log = P ++ .line (.prompt b) l :: Q →
    ∃ A e B, P = A ++ .start e :: B ∧ (∀ e', .start e' ∉ B) ∧
      (b = true ↔ e.prompt = .sms ∧ e.hasBody = true)

/-- Other entries make no difference. -/
theorem Prompted.growsBy {log log' : List (Event cfg)} (h : Prompted log)
    (hlog : GrowsBy (fun ev => ∀ b l, ev ≠ .line (.prompt b) l) log log') : Prompted log' := by
  obtain ⟨evs, rfl, hevs⟩ := hlog
  intro P b l Q heq
  rcases append_split heq with ⟨Q', rfl⟩ | ⟨E, -, rfl⟩
  · exact h P b l Q' rfl
  · exact absurd rfl (hevs _ (by simp) b l)

/-- A prompt line for the active command. -/
theorem Prompted.emit {w : World cfg σ} (h : Prompted w.log) (hw : Started w)
    (hs : w.eng.state = .waiting) {b : Bool} {l : List UInt8}
    (hb : b = true ↔ (w.eng.queue w.eng.qTail).prompt = .sms ∧
      (w.eng.queue w.eng.qTail).hasBody = true) :
    Prompted (w.emit (.line (.prompt b) l)).log := by
  intro P b' l' Q heq
  rcases append_split heq with ⟨Q', hP⟩ | ⟨E, rfl, hE⟩
  · exact h P b' l' Q' hP
  · obtain ⟨rfl, hE⟩ : E = [] ∧ _ := by
      cases E with
      | nil => exact ⟨rfl, hE⟩
      | cons => simp at hE
    obtain ⟨hkind, -⟩ := Event.line.inj (List.cons.inj hE).1
    obtain rfl := LineKind.prompt.inj hkind
    obtain ⟨A, B, hA, hB⟩ := hw (by simp [hs])
    exact ⟨A, _, B, by rw [List.append_nil, hA], hB, hb⟩

/-- **Step.** -/
theorem Prompted.step {s t : Snapshot cfg σ} (ht : Transition allowed s t) (hw : Started s.2)
    (h : Prompted s.2.log) : Prompted t.2.log := by
  have hq : GrowsBy (fun ev : Event cfg => ∀ b l, ev ≠ .line (.prompt b) l) s.2.log s.2.log :=
    .refl _
  cases ht with
  | nested | send | echo | final | dequeue | drainNext => exact h.growsBy (hq.concat (by simp))
  | urc => exact h.growsBy ((hq.concat (by simp)).concat (by simp))
  | accumulate w l =>
    rw [accumulate_log]
    refine h.growsBy (hq.concat fun b l' heq => ?_)
    split at heq <;> cases heq
  | promptIgnored w l _ hp hbody => exact h.emit hw (isPrompt_waiting hp) (by simpa using hbody)
  | promptAnswered w l env _ hp hbody =>
    exact (h.emit hw (isPrompt_waiting hp) (by simpa using hbody)).growsBy
      (answerPrompt_growsBy (by simp) (by simp) env _ _)
  | transmit w env =>
    obtain ⟨evs, hsent, hlog⟩ := transmit_sent env w
    refine h.growsBy ⟨_, hlog, List.forall_mem_cons.mpr ⟨by simp, ?_⟩⟩
    exact hsent.forall (by simp) (by simp) (by simp)
  | finalize st w status errCode =>
    refine h.growsBy ⟨_, World.fire_log _ _ _, fun ev hev b l heq => ?_⟩
    rw [CmdEntry.notice] at hev
    split at hev <;> simp [heq] at hev
  | drainNotify st w =>
    refine h.growsBy ⟨_, World.fire_log _ _ _, fun ev hev b l heq => ?_⟩
    rw [CmdEntry.notice] at hev
    split at hev <;> simp [heq] at hev
  | _ => exact h

/-- **Run.** If no completion callback cancels, which prompts are answered is up to the
command transmitted last. -/
theorem Reachable.prompted (hfit : cfg.Fits) {P : Env σ → TopCall → Prop} {w : World cfg σ}
    (h : Reachable P w) (hc : ¬Cancelled w.log) : Prompted w.log := by
  obtain ⟨s, hs⟩ := h.steps_any
  have hrun := hs.invariant (I := fun t => ¬Cancelled t.2.log →
      Lifecycle t ∧ Started t.2 ∧ Prompted t.2.log)
    (fun s t ht ih hct => by
      obtain ⟨hlife, hstarted, hprompted⟩ := ih fun hcs => hct (hcs.mono ht.log_mono)
      exact ⟨hlife.step hfit ht hct, hstarted.step hfit ht hlife, hprompted.step ht hstarted⟩)
    fun _ => ⟨Lifecycle.init s, fun hne => absurd rfl hne, fun _ _ _ _ heq => by simp at heq⟩
  exact (hrun hc).2.2

/-- **The body goes out once.** From its transmission to its end, body and Ctrl-Z of a
command are written at most once each if and only if at most one prompt is answered.
If no completion callback cancels, a line that begins with the two prompt characters is
answered when the command transmitted last is a message with a body. -/
theorem body_once_iff (hfit : cfg.Fits) {w : World cfg σ} (h : Reachable (fun _ _ => True) w)
    {A B : List (Event cfg)} {e : CmdEntry cfg} (hlog : w.log = A ++ .start e :: B) :
    ((exchange B).countP (Event.isWrite .body) ≤ 1 ∧
        (exchange B).countP (Event.isWrite .ctrlZ) ≤ 1 ↔
      (exchange B).countP Event.answers ≤ 1) ∧
      (¬Cancelled w.log → Prompted w.log) :=
  ⟨exchange_once_iff h hlog, h.prompted hfit⟩

/-- A message with a body. -/
def message : CmdDesc := ⟨some (ascii "AT+CMGS=\"1\""), some (ascii "hi"), 0, .sms, some 1, 7⟩

/-- A message without a body. -/
def bodiless : CmdDesc := { message with body := none }

/-- Everything is written, and callbacks do nothing. -/
def plainEnv : Env Unit where
  write s data := (data.length, s)
  completion _ _ _ s := .ret s
  handler _ _ _ s := .ret s

theorem plainEnv_respects (allowed : HookKind → ApiCall → Prop) : plainEnv.Respects allowed := by
  rintro (⟨f, r, u⟩ | ⟨f, l, u⟩) s <;> trivial

/-- A prompt comes in for a message with a body, and two for one without. -/
theorem body_once_plain : ∃ (w : World Config.default Unit) (A A' B B' : List (Event _)),
    w.log = A ++ .start (cmdEntryOf Config.default message) :: B ∧
      (exchange B).countP Event.answers = 1 ∧ (exchange B).countP (Event.isWrite .body) ≤ 1 ∧
      (exchange B).countP (Event.isWrite .ctrlZ) ≤ 1 ∧
    w.log = A' ++ .start (cmdEntryOf Config.default bodiless) :: B' ∧
      (exchange B').count (.line (.prompt false) (ascii "> ")) = 2 ∧
      (exchange B').countP (Event.isWrite .body) ≤ 1 ∧
      (exchange B').countP (Event.isWrite .ctrlZ) ≤ 1 ∧
    Prompted w.log := by
  obtain ⟨w, hw, hp⟩ := Reachable.of_execAll (P := fun _ _ => True) plainEnv 16
    [.api (.send (some message)), .api (.send (some bodiless)), .process,
      .api (.feed (ascii "> \r\nOK\r\n")), .process, .api (.feed (ascii "> \r\n> \r\n")), .process]
    () (fun _ => trivial)
    (fun w : World Config.default Unit => decide (
      w.log = w.log.take 2 ++ .start (cmdEntryOf Config.default message) :: w.log.drop 3 ∧
      (exchange (w.log.drop 3)).countP Event.answers = 1 ∧
      w.log = w.log.take 11 ++ .start (cmdEntryOf Config.default bodiless) :: w.log.drop 12 ∧
      (exchange (w.log.drop 12)).countP Event.answers = 0 ∧
      (exchange (w.log.drop 12)).count (.line (.prompt false) (ascii "> ")) = 2 ∧
      ¬Cancelled w.log)) (by decide +kernel)
  obtain ⟨hlog, hone, hlog', hnone, htwo, hc⟩ := of_decide_eq_true hp
  obtain ⟨honce, hprompted⟩ := body_once_iff Config.default_fits hw hlog
  obtain ⟨hbody, hctrlZ⟩ := honce.mpr (Nat.le_of_eq hone)
  obtain ⟨hbody', hctrlZ'⟩ := (body_once_iff Config.default_fits hw hlog').1.mpr (by omega)
  exact ⟨w, _, _, _, _, hlog, hone, hbody, hctrlZ, hlog', htwo, hbody', hctrlZ', hprompted hc⟩

/-- Two prompt lines come in, and the message goes out twice before its
callback. -/
theorem body_twice : ∃ (w : World Config.default Unit) (A B : List (Event _)),
    Reachable (fun _ _ => True) w ∧ (cmdEntryOf Config.default message).prompt = .sms ∧
      w.log = A ++ .start (cmdEntryOf Config.default message) :: B ∧ firings w.log = [] ∧
      (exchange B).countP (Event.isWrite .body) = 2 ∧
      (exchange B).countP (Event.isWrite .ctrlZ) = 2 := by
  obtain ⟨w, hw, hp⟩ := Reachable.of_execAll (P := fun _ _ => True) plainEnv 16
    [.api (.send (some message)), .process, .api (.feed (ascii "> \r\n> \r\n")), .process]
    () (fun _ => trivial)
    (fun w : World Config.default Unit =>
      decide ((cmdEntryOf Config.default message).prompt = .sms ∧
        w.log = w.log.take 1 ++ .start (cmdEntryOf Config.default message) :: w.log.drop 2 ∧
        firings w.log = [] ∧
        (exchange (w.log.drop 2)).countP (Event.isWrite .body) = 2 ∧
        (exchange (w.log.drop 2)).countP (Event.isWrite .ctrlZ) = 2)) (by decide +kernel)
  obtain ⟨hsms, hlog, hfired, hbody, hctrlZ⟩ := of_decide_eq_true hp
  exact ⟨w, _, _, hw, hsms, hlog, hfired, hbody, hctrlZ⟩

/-! ## Payload lines -/

/-- The payload lines in a stretch of the log. -/
def payloads (evs : List (Event cfg)) : List (List UInt8) :=
  evs.filterMap fun | .line .payload l => some l | _ => none

/-- One log entry, for `received`. -/
def receive (lines : List (List UInt8)) : Event cfg → List (List UInt8)
  | .start _ => []
  | .line .payload l => lines ++ [l]
  | _ => lines

/-- The payload lines since the last transmission. -/
def received (log : List (Event cfg)) : List (List UInt8) := log.foldl receive []

theorem received_append (log evs : List (Event cfg)) :
    received (log ++ evs) = evs.foldl receive (received log) :=
  List.foldl_append

/-- Entries between two transmissions add their payload lines. -/
theorem foldl_receive {evs : List (Event cfg)} (h : ∀ e, .start e ∉ evs) :
    ∀ lines, evs.foldl receive lines = lines ++ payloads evs := by
  induction evs with
  | nil => exact fun lines => (List.append_nil lines).symm
  | cons ev evs ih =>
    intro lines
    obtain ⟨hev, hevs⟩ : (∀ e, ev ≠ .start e) ∧ ∀ e, .start e ∉ evs :=
      ⟨fun e heq => h e (heq ▸ List.mem_cons_self), fun e hmem => h e (List.mem_cons_of_mem _ hmem)⟩
    rw [List.foldl_cons, ih hevs, payloads, payloads, List.filterMap_cons]
    simp only [receive]
    split
    · exact absurd rfl (hev _)
    · simp
    · rename_i hne
      split <;> simp_all

/-- The payload lines of the exchange that ends a log. -/
theorem received_exchange (A : List (Event cfg)) (e : CmdEntry cfg) {B : List (Event cfg)}
    (h : ∀ e, .start e ∉ B) : received (A ++ .start e :: B) = payloads B := by
  rw [received_append, List.foldl_cons, foldl_receive h]
  rfl

/-- An entry that neither starts an exchange nor carries a payload line nor
notifies. -/
def Event.plain : Event cfg → Bool
  | .start _ | .line .payload _ | .fired .. => false
  | _ => true

theorem received_growsBy {log log' : List (Event cfg)}
    (h : GrowsBy (fun ev => ev.plain) log log') : received log' = received log := by
  obtain ⟨evs, rfl, hevs⟩ := h
  rw [received_append]
  induction evs with
  | nil => rfl
  | cons ev evs ih =>
    obtain ⟨hev, hevs⟩ := List.forall_mem_cons.mp hevs
    have hreceive : receive (received log) ev = received log := by
      simp only [receive]
      split
      · simp [Event.plain] at hev
      · simp [Event.plain] at hev
      · rfl
    rw [List.foldl_cons, hreceive]
    exact ih hevs

/-! ## The response pool -/

/-- A stored line goes behind the others, cut to the line length. -/
theorem respPoolAppend_some (hfit : cfg.Fits) {p p' : RespPool cfg} {l : List UInt8}
    (h : respPoolAppend p l = some p') :
    p.count < cfg.respLinesMax ∧ p'.count = p.count + 1 ∧
      p'.lines = p.lines ++ [l.take (cfg.lineMax - 1)] := by
  rw [respPoolAppend] at h
  split at h
  · rename_i hlt
    obtain rfl := Option.some.inj h
    have hmax := hfit.lines
    have hmod : (p.count + 1) % 256 = p.count + 1 := Nat.mod_eq_of_lt (by omega)
    refine ⟨hlt, hmod, ?_⟩
    simp only [RespPool.lines]
    rw [hmod, List.take_add_one]
    congr 1
    · refine List.ext_getElem (by simp) fun i hi _ => ?_
      have hi' : i < p.count := by
        rw [List.length_take] at hi
        omega
      simp only [List.getElem_take, List.getElem_ofFn]
      exact Function.update_of_ne (by simpa using Nat.ne_of_lt hi') _ _
    · simp [hlt]
  · cases h

theorem respPoolAppend_none {p : RespPool cfg} {l : List UInt8} (h : respPoolAppend p l = none) :
    cfg.respLinesMax ≤ p.count := by
  rw [respPoolAppend] at h
  split at h
  · cases h
  · rename_i hge
    omega

/-- A line for which there is room. -/
theorem accumulate_some {l : List UInt8} {w : World cfg σ} {p : RespPool cfg}
    (hs : w.eng.state = .waiting) (h : respPoolAppend w.eng.pool l = some p) :
    accumulate l w = (w.emit (.line .payload l)).putEng { w.eng with pool := p } := by
  rw [accumulate, if_pos hs]
  dsimp only
  rw [World.emit_eng, h]

/-! ## What the callback sees -/

/-- Each callback is told of an abort, or sees the first lines received. -/
def SeesFirstLines (log : List (Event cfg)) : Prop :=
  ∀ P f u r Q, log = P ++ .fired f u r :: Q →
    r.status = .errAborted ∨ r.lines = (received P).take cfg.respLinesMax

/-- While a command is active the pool holds the first lines received. -/
structure Collecting (w : World cfg σ) : Prop where
  line_le : w.eng.line.length ≤ cfg.lineMax - 1
  count_le : w.eng.pool.count ≤ cfg.respLinesMax
  pool : w.eng.state ≠ .idle → w.eng.pool.lines = (received w.log).take cfg.respLinesMax
  sees : SeesFirstLines w.log

theorem SeesFirstLines.growsBy {log log' : List (Event cfg)} (h : SeesFirstLines log)
    (hlog : GrowsBy (fun ev => ∀ f u r, ev ≠ .fired f u r) log log') : SeesFirstLines log' := by
  obtain ⟨evs, rfl, hevs⟩ := hlog
  intro P f u r Q heq
  rcases append_split heq with ⟨Q', rfl⟩ | ⟨E, -, rfl⟩
  · exact h P f u r Q' rfl
  · exact absurd rfl (hevs (.fired f u r) (by simp) f u r)

theorem SeesFirstLines.fire {w : World cfg σ} (h : SeesFirstLines w.log) {e : CmdEntry cfg}
    {r : Response}
    (hr : r.status = .errAborted ∨ r.lines = (received w.log).take cfg.respLinesMax) :
    SeesFirstLines (w.fire e r).log := by
  rw [World.fire]
  split
  · exact h
  · intro P f u r' Q heq
    rcases append_split heq with ⟨Q', hP⟩ | ⟨E, rfl, hE⟩
    · exact h P f u r' Q' hP
    · obtain ⟨rfl, hE⟩ : E = [] ∧ _ := by
        cases E with
        | nil => exact ⟨rfl, hE⟩
        | cons => simp at hE
      obtain ⟨-, -, rfl⟩ := Event.fired.inj (List.cons.inj hE).1
      rwa [List.append_nil]

theorem received_fire {w : World cfg σ} {e : CmdEntry cfg} {r : Response} :
    received (w.fire e r).log = received w.log := by
  rw [World.fire]
  split
  · rfl
  · exact received_append _ _

/-- A transition that keeps the pool and logs plain entries. -/
theorem Collecting.frame {w w' : World cfg σ} (h : Collecting w)
    (hline : w'.eng.line.length ≤ cfg.lineMax - 1) (hpool : w'.eng.pool = w.eng.pool)
    (hstate : w'.eng.state ≠ .idle → w.eng.state ≠ .idle)
    (hlog : GrowsBy (fun ev => ev.plain) w.log w'.log) : Collecting w' where
  line_le := hline
  count_le := hpool ▸ h.count_le
  pool hne := by
    rw [hpool, received_growsBy hlog]
    exact h.pool (hstate hne)
  sees := by
    refine h.sees.growsBy ?_
    obtain ⟨evs, hevs, hplain⟩ := hlog
    refine ⟨evs, hevs, fun ev hmem f u r heq => ?_⟩
    have := hplain ev hmem
    simp [heq, Event.plain] at this

theorem length_pushLine_le {l : List UInt8} (h : l.length ≤ cfg.lineMax - 1) (b : UInt8) :
    (pushLine cfg l b).length ≤ cfg.lineMax - 1 := by
  rw [pushLine]
  split
  · rw [List.length_append, List.length_singleton]
    omega
  · exact h

/-- The line buffer never overflows. -/
theorem lfsmByte_line {b : UInt8} {g g' : Engine cfg} (h : lfsmByte b g = .more g')
    (hg : g.line.length ≤ cfg.lineMax - 1) : g'.line.length ≤ cfg.lineMax - 1 := by
  have hline := cfg.line_ge
  have hpush := length_pushLine_le hg b
  rw [lfsmByte] at h
  repeat' split at h
  all_goals first
    | (injection h with h; subst h; exact hg)
    | (injection h with h; subst h; exact hpush)
    | (injection h with h; subst h; simp only [List.length_singleton]; omega)
    | cases h

theorem Dispatched.length_le {g : Engine cfg} {l : List UInt8} (h : Dispatched g l)
    (hg : g.line.length ≤ cfg.lineMax - 1) : l.length ≤ cfg.lineMax - 1 := by
  have hline := cfg.line_ge
  rcases h with rfl | rfl
  · exact hg
  · simp only [List.length_cons, List.length_nil]
    omega

theorem Collecting.accumulate (hfit : cfg.Fits) {w : World cfg σ} {l : List UInt8}
    (hl : Dispatched w.eng l) (h : Collecting w) : Collecting (accumulate l w) := by
  rw [LibAt.accumulate]
  split
  · rename_i hwaiting
    have hpool := h.pool (by simp [hwaiting])
    have hlen : w.eng.pool.lines.length = w.eng.pool.count := by
      have hcount := h.count_le
      simp [RespPool.lines, hcount]
    have hsees : SeesFirstLines (w.log ++ [.line .payload l]) :=
      h.sees.growsBy ⟨_, rfl, by simp⟩
    have hreceived : received (w.log ++ [.line .payload l]) = received w.log ++ [l] :=
      received_append _ _
    dsimp only
    split
    · rename_i p hp
      obtain ⟨hlt, hcount, hlines⟩ := respPoolAppend_some hfit hp
      refine ⟨h.line_le, ?_, fun _ => ?_, hsees⟩
      · change p.count ≤ _
        rw [hcount]
        exact hlt
      · -- there is room, so every line so far is in the pool
        change p.lines = (received (w.log ++ [.line .payload l])).take _
        have hshort : (received w.log).length < cfg.respLinesMax := by
          rw [hpool, List.length_take] at hlen
          change w.eng.pool.count < _ at hlt
          omega
        rw [hlines, hreceived, List.take_of_length_le (hl.length_le h.line_le),
          World.emit_eng, hpool, List.take_of_length_le (Nat.le_of_lt hshort),
          List.take_of_length_le (by rw [List.length_append]; exact hshort)]
    · rename_i hp
      have hfull := respPoolAppend_none hp
      refine ⟨h.line_le, h.count_le, fun _ => ?_, hsees⟩
      -- the pool is full, and the first lines stay the first lines
      change w.eng.pool.lines = (received (w.log ++ [.line .payload l])).take _
      have hlong : cfg.respLinesMax ≤ (received w.log).length := by
        rw [hpool, List.length_take] at hlen
        change _ ≤ w.eng.pool.count at hfull
        omega
      rw [hreceived, List.take_append_of_le_length hlong, hpool]
  · exact h.frame h.line_le rfl id ((GrowsBy.refl _).concat rfl)

theorem Collecting.transmit {w : World cfg σ} (env : Env σ) (h : Collecting w) :
    Collecting (transmit env w).2 := by
  have heng := transmit_eng env w
  obtain ⟨evs, hsent, hlog⟩ := transmit_sent env w
  have hplain : GrowsBy (fun ev => ev.plain) (w.log ++ [.start (w.eng.queue w.eng.qTail)])
      (LibAt.transmit env w).2.log :=
    ⟨evs, by rw [hlog, List.append_assoc, List.singleton_append],
      hsent.forall (fun _ _ => rfl) (fun _ _ => rfl) fun _ => rfl⟩
  refine ⟨?_, ?_, fun _ => ?_, ?_⟩
  · rw [heng]
    exact h.line_le
  · rw [heng]
    exact Nat.zero_le _
  · rw [heng, received_growsBy hplain, received_append]
    change (RespPool.zero cfg).lines = List.take _ []
    simp [RespPool.lines, RespPool.zero]
  · refine h.sees.growsBy ⟨_, hlog, List.forall_mem_cons.mpr ⟨by simp, ?_⟩⟩
    exact hsent.forall (by simp) (by simp) (by simp)

/-- **Step.** Every transition keeps the invariant. -/
theorem Collecting.step (hfit : cfg.Fits) {s t : Snapshot cfg σ} (ht : Transition allowed s t)
    (h : Collecting s.2) : Collecting t.2 := by
  have hlog : GrowsBy (fun ev => ev.plain) s.2.log s.2.log := GrowsBy.refl _
  cases ht with
  | app st w a => exact h.frame h.line_le rfl id hlog
  | nested st w k c _ => exact h.frame h.line_le rfl id (hlog.concat rfl)
  | send st w d g hd =>
    obtain ⟨-, -, rfl⟩ := atSend_ok hd
    exact h.frame h.line_le rfl id (hlog.concat rfl)
  | feed st w data => exact h.frame h.line_le rfl id hlog
  | tick st w ms =>
    obtain ⟨n, hn⟩ := atTick_eq ms w.eng
    rw [hn]
    exact h.frame h.line_le rfl id hlog
  | register st w pre cb user r g hr =>
    obtain ⟨table, rfl⟩ := atRegisterUrc_eq hr
    exact h.frame h.line_le rfl id hlog
  | deregister st w pre r g hr =>
    obtain ⟨table, rfl⟩ := atDeregisterUrc_eq hr
    exact h.frame h.line_le rfl id hlog
  | traceHook w hook => exact h.frame h.line_le rfl id hlog
  | deinit w => exact h.frame h.line_le rfl (fun hne => absurd rfl hne) hlog
  | pop w b rx _ => exact h.frame h.line_le rfl id hlog
  | byte w b g hb =>
    have hline := lfsmByte_line hb h.line_le
    obtain ⟨line, lfsm, rfl⟩ := lfsmByte_eq hb
    exact h.frame hline rfl id hlog
  | lineDone w => exact h.frame (Nat.zero_le _) rfl id hlog
  | echo w l _ => exact h.frame h.line_le rfl id (hlog.concat rfl)
  | promptIgnored w l _ _ _ => exact h.frame h.line_le rfl id (hlog.concat rfl)
  | promptAnswered w l env _ hp _ =>
    have heng := answerPrompt_eng env (w.eng.queue w.eng.qTail) (w.emit (.line (.prompt true) l))
    refine h.frame (by rw [heng]; exact h.line_le) (by rw [heng]; rfl)
      (fun _ => by simp [isPrompt_waiting hp])
      ((hlog.concat rfl).trans (answerPrompt_growsBy (fun _ _ _ => rfl) (fun _ => rfl) env _ _))
  | final w l r _ _ _ _ => exact h.frame h.line_le rfl id (hlog.concat rfl)
  | urc w l i _ _ _ _ => exact h.frame h.line_le rfl id ((hlog.concat rfl).concat rfl)
  | accumulate w l hl _ _ _ _ => exact h.accumulate hfit hl
  | transmit w env _ _ => exact h.transmit env
  | finalize st w status errCode hs _ _ =>
    refine ⟨?_, ?_, fun _ => ?_, ?_⟩
    · rw [World.fire_eng]
      exact h.line_le
    · rw [World.fire_eng]
      exact h.count_le
    · rw [World.fire_eng, received_fire]
      exact h.pool hs
    · exact SeesFirstLines.fire (r := finalResponse status errCode w.eng)
        (w := w.putEng (setResponse (finalResponse status errCode w.eng) w.eng)) h.sees
        (.inr (h.pool hs))
  | dequeue st w i e =>
    exact h.frame h.line_le rfl (fun hne => absurd rfl hne) (hlog.concat rfl)
  | drain st w _ _ => exact h
  | drainNotify st w _ =>
    refine ⟨?_, ?_, ?_, h.sees.fire (.inl rfl)⟩
    · rw [World.fire_eng]
      exact h.line_le
    · rw [World.fire_eng]
      exact h.count_le
    · rw [World.fire_eng, received_fire]
      exact h.pool
  | drainNext st w e => exact h.frame h.line_le rfl id (hlog.concat rfl)
  | reset st w _ => exact ⟨Nat.zero_le _, Nat.zero_le _, fun hne => absurd rfl hne, h.sees⟩

theorem Reachable.collecting (hfit : cfg.Fits) {P : Env σ → TopCall → Prop} {w : World cfg σ}
    (h : Reachable P w) : Collecting w := by
  obtain ⟨s, hs⟩ := h.steps_any
  exact hs.invariant (I := fun t => Collecting t.2) (fun _ _ ht ih => ih.step hfit ht)
    ⟨Nat.zero_le _, Nat.zero_le _, fun hne => absurd rfl hne, by simp [SeesFirstLines]⟩

/-- What a callback must be told about the payload lines of its command: that there
were too many, and with `AT_OK` every one of them, in the order they came in. -/
def OverflowReported (cfg : Config) (lines : List (List UInt8)) (r : Response) : Prop :=
  (cfg.respLinesMax < lines.length → r.status = .errOverflow) ∧
    (r.status = .ok → r.lines = lines)

/-- **Lost lines.** A callback is told the truth about the payload lines of its
command if and only if no more than `AT_CFG_RESP_LINES_MAX` came in. -/
theorem overflowReported_iff (hfit : cfg.Fits) {w : World cfg σ}
    (h : Reachable (fun _ _ => True) w) {A B C : List (Event cfg)} {e : CmdEntry cfg} {f u : Ptr}
    {r : Response} (hlog : w.log = A ++ .start e :: B ++ .fired f u r :: C)
    (hB : ∀ e, .start e ∉ B) :
    OverflowReported cfg (payloads B) r ↔ (payloads B).length ≤ cfg.respLinesMax := by
  have hstatus := h.fired_status f u r (by simp [hlog])
  have hsees := (h.collecting hfit).sees _ f u r C hlog
  rw [received_exchange A e hB] at hsees
  constructor
  · intro hr
    by_contra hlong
    rw [hr.1 (by omega)] at hstatus
    exact absurd hstatus (by decide)
  · intro hshort
    refine ⟨fun hlong => by omega, fun hok => ?_⟩
    rcases hsees with habort | hlines
    · rw [hok] at habort
      cases habort
    · rw [hlines, List.take_of_length_le hshort]

/-- `n` payload lines and `OK`. -/
def answer (n : Nat) : List UInt8 := (List.replicate n (ascii "A\r\n")).flatten ++ ascii "OK\r\n"

/-- The calls that send `probe` and feed it `n` payload lines and `OK`. -/
def answerCalls (n : Nat) : List TopCall :=
  [.api (.send (some probe)), .process, .api (.feed (answer n)), .process]

/-- The log of `answerCalls n` up to the callback. -/
def answerLog (n : Nat) (lines : List (List UInt8)) : List (Event Config.default) :=
  [.accepted probe] ++ .start (cmdEntryOf _ probe) ::
    ([.write .cmd (ascii "AT") 2, .write .cr [13] 1] ++
      List.replicate n (.line .payload (ascii "A")) ++ [.line .final (ascii "OK")]) ++
    .fired 1 7 ⟨.ok, 0, lines.length, lines⟩ :: [.completed (cmdEntryOf _ probe)]

theorem overflowReported_full : ∃ B : List (Event Config.default),
    (payloads B).length = 16 ∧
      (OverflowReported Config.default (payloads B) ⟨.ok, 0, 16, List.replicate 16 (ascii "A")⟩ ↔
        (payloads B).length ≤ Config.default.respLinesMax) := by
  obtain ⟨w, hw, hp⟩ := Reachable.of_execAll (P := fun _ _ => True) plainEnv 60 (answerCalls 16) ()
    (fun _ => trivial)
    (fun w : World Config.default Unit => decide (w.log =
      answerLog 16 (List.replicate 16 (ascii "A")))) (by decide +kernel)
  exact ⟨_, by decide +kernel,
    overflowReported_iff Config.default_fits hw (of_decide_eq_true hp) (by simp)⟩

/-- Seventeen payload lines come in, sixteen are kept, and the callback is told
`AT_OK`. -/
theorem overflow_lost : ∃ (w : World Config.default Unit) (A B C : List (Event Config.default))
    (e : CmdEntry Config.default) (r : Response),
    Reachable (fun _ _ => True) w ∧ w.log = A ++ .start e :: B ++ .fired 1 7 r :: C ∧
      (payloads B).length = 17 ∧ r.status = .ok ∧ r.lines.length = 16 ∧
      ¬OverflowReported Config.default (payloads B) r := by
  obtain ⟨w, hw, hp⟩ := Reachable.of_execAll (P := fun _ _ => True) plainEnv 60 (answerCalls 17) ()
    (fun _ => trivial)
    (fun w : World Config.default Unit => decide (w.log =
      answerLog 17 (List.replicate 16 (ascii "A")))) (by decide +kernel)
  refine ⟨w, _, _, _, _, _, hw, of_decide_eq_true hp, by decide +kernel, rfl, rfl, fun h => ?_⟩
  cases h.1 (by decide +kernel)

end LibAt
