import LibAt.Callback
import LibAt.Exchange
import LibAt.Framing

/-!
# The prompt as the modem sends it

A modem asks for the body of a message with the four bytes CR LF `>` SPACE and
then waits. The line FSM hands a line on only at a line feed, or at a SPACE
behind a `>` and a CR, and so keeps the `>` and the SPACE to itself. What the
prompt can do is to end, with its CR and LF, a line that was left in the ring:
the body goes out exactly when the bytes left there, with CR LF behind them, hold
a line that begins with the two prompt characters and no final result in front of
it (`BytesAsk`, `prompt_answered_iff`). Of an empty ring nothing is answered.

What a line leads to is listed once (`Handled`); from there one induction along
the drain loop follows the bytes that do not ask (`Unasked`), and one those that
do (`Asked`).
-/

namespace LibAt

variable {cfg : Config} {σ : Type}

/-! ## What a line leads to -/

section

variable {invoke : Invocation → World cfg σ → Option (World cfg σ)} {env : Env σ} {l : List UInt8}
  {w w' : World cfg σ}

/-- The ways through `engine_dispatch_line`, for a line that is not empty and hooks of
any kind. -/
inductive Handled (invoke : Invocation → World cfg σ → Option (World cfg σ)) (env : Env σ)
    (l : List UInt8) (w : World cfg σ) : World cfg σ → Prop
  | echo : isEcho w.eng l = true →
      Handled invoke env l w ((w.putEng { w.eng with echoArmed := false }).emit (.line .echo l))
  | ignored : isEcho w.eng l = false → isPrompt w.eng l = true →
      ¬((w.eng.queue w.eng.qTail).prompt = .sms ∧ (w.eng.queue w.eng.qTail).hasBody) →
      Handled invoke env l w (w.emit (.line (.prompt false) l))
  | answered (v) : isEcho w.eng l = false → isPrompt w.eng l = true →
      answerPrompt env (w.eng.queue w.eng.qTail) (w.emit (.line (.prompt true) l)) = (true, v) →
      Handled invoke env l w v
  | failed (v w') : isEcho w.eng l = false → isPrompt w.eng l = true →
      answerPrompt env (w.eng.queue w.eng.qTail) (w.emit (.line (.prompt true) l)) = (false, v) →
      engineFinalize invoke .errIo 0 v = some w' → Handled invoke env l w w'
  | final (s c w') : isEcho w.eng l = false → isPrompt w.eng l = false → w.eng.state = .waiting →
      engineIsFinal l = some (s, c) →
      engineFinalize invoke s c (w.emit (.line .final l)) = some w' → Handled invoke env l w w'
  | urc (i w') : isEcho w.eng l = false → isPrompt w.eng l = false →
      (w.eng.state = .waiting → engineIsFinal l = none) →
      invoke (.handler (w.eng.urcTable i).cb l (w.eng.urcTable i).user)
        ((w.emit (.line .urc l)).emit (.urc (w.eng.urcTable i).cb (w.eng.urcTable i).user l)) =
          some w' → Handled invoke env l w w'
  | other : isEcho w.eng l = false → isPrompt w.eng l = false →
      (w.eng.state = .waiting → engineIsFinal l = none) → Handled invoke env l w (accumulate l w)

/-- `urc_dispatch` and what follows it. -/
theorem urcDispatch_handled (he : isEcho w.eng l = false) (hp : isPrompt w.eng l = false)
    (hf : w.eng.state = .waiting → engineIsFinal l = none)
    (h : (urcDispatch invoke l w).map (fun r => if r.1 then r.2 else accumulate l r.2) = some w') :
    Handled invoke env l w w' := by
  obtain ⟨⟨taken, w₁⟩, hu, rfl⟩ := Option.map_eq_some_iff.mp h
  obtain ⟨m, -, hu⟩ := Option.bind_eq_some_iff.mp hu
  cases m with
  | none =>
    obtain ⟨rfl, rfl⟩ := Prod.mk.inj (Option.some.inj hu)
    exact .other he hp hf
  | some i =>
    obtain ⟨w₂, hi, hret⟩ := Option.bind_eq_some_iff.mp hu
    obtain ⟨rfl, rfl⟩ := Prod.mk.inj (Option.some.inj hret)
    exact .urc i w₂ he hp hf hi

/-- **Inversion** of `engine_dispatch_line`. -/
theorem engineDispatchLine_handled (hl : l ≠ [])
    (h : engineDispatchLine invoke env l w = some w') : Handled invoke env l w w' := by
  rw [engineDispatchLine, if_neg (fun h0 => hl (List.length_eq_zero_iff.mp h0))] at h
  by_cases he : isEcho w.eng l = true
  · rw [if_pos he] at h
    obtain rfl := Option.some.inj h
    exact .echo he
  rw [if_neg he] at h
  rw [Bool.not_eq_true] at he
  by_cases hp : isPrompt w.eng l = true
  · rw [if_pos hp] at h
    dsimp only at h
    split at h
    · rcases ha : answerPrompt env (w.eng.queue w.eng.qTail) (w.emit (.line (.prompt true) l)) with
        ⟨_ | _, v⟩ <;> rw [ha] at h
      · exact .failed v w' he hp ha h
      · obtain rfl := Option.some.inj h
        exact .answered v he hp ha
    · obtain rfl := Option.some.inj h
      exact .ignored he hp ‹_›
  rw [if_neg hp] at h
  rw [Bool.not_eq_true] at hp
  by_cases hs : w.eng.state = .waiting
  · rw [if_pos hs] at h
    cases hf : engineIsFinal l with
    | some r =>
      rw [hf] at h
      exact .final r.1 r.2 w' he hp hs hf h
    | none =>
      rw [hf] at h
      exact urcDispatch_handled he hp (fun _ => hf) h
  · rw [if_neg hs] at h
    exact urcDispatch_handled he hp (absurd · hs) h

end

/-! ## Lines that ask for the body -/

/-- The lines an engine hands over for the given bytes. -/
def heard (g : Engine cfg) (bytes : List UInt8) : List (List UInt8) :=
  ((framer cfg).output g.framer bytes).filter (· ≠ [])

/-- One of the lines, the echo not counted, begins with the two prompt characters, and
there is no final result in front of it. -/
def LinesAsk (g : Engine cfg) (ls : List (List UInt8)) : Prop :=
  ∃ pre l post, ls.eraseP (isEcho g) = pre ++ l :: post ∧ [62, 32] <+: l ∧
    ∀ m ∈ pre, engineIsFinal m = none

section

variable {g g' : Engine cfg} {l : List UInt8} {ls : List (List UInt8)}

theorem LinesAsk.congr (h : isEcho g' = isEcho g) : LinesAsk g' ls ↔ LinesAsk g ls := by
  rw [LinesAsk, LinesAsk, h]

theorem not_linesAsk_nil : ¬LinesAsk g [] := by
  rintro ⟨pre, l, post, h, -⟩
  simp at h

/-- Behind the echo nothing is taken for it any more. -/
theorem linesAsk_echo (h : isEcho g l = true) :
    LinesAsk g (l :: ls) ↔ LinesAsk { g with echoArmed := false } ls := by
  have hnone (m : List UInt8) : isEcho { g with echoArmed := false } m = false := by simp [isEcho]
  rw [LinesAsk, LinesAsk, List.eraseP_cons_of_pos h, List.eraseP_of_forall_not (by simp [hnone])]

theorem linesAsk_prompt (h : isEcho g l = false) (hl : [62, 32] <+: l) : LinesAsk g (l :: ls) :=
  ⟨[], l, _, by rw [List.eraseP_cons_of_neg (by simp [h])]; rfl, hl, by simp⟩

theorem not_linesAsk_final (h : isEcho g l = false) (hl : engineIsFinal l ≠ none) :
    ¬LinesAsk g (l :: ls) := by
  rintro ⟨pre, m, post, heq, hm, hpre⟩
  rw [List.eraseP_cons_of_neg (by simp [h])] at heq
  cases pre with
  | nil =>
    obtain ⟨rfl, -⟩ := List.cons.inj heq
    exact hl (engineIsFinal_prompt hm)
  | cons a pre =>
    obtain ⟨rfl, -⟩ := List.cons.inj heq
    exact hl (hpre l List.mem_cons_self)

/-- Any other line makes no difference. -/
theorem linesAsk_other (h : isEcho g l = false) (hl : ¬[62, 32] <+: l) (hfinal : engineIsFinal l = none) :
    LinesAsk g (l :: ls) ↔ LinesAsk g ls := by
  rw [LinesAsk, LinesAsk, List.eraseP_cons_of_neg (by simp [h])]
  constructor
  · rintro ⟨pre, m, post, heq, hm, hpre⟩
    cases pre with
    | nil =>
      obtain ⟨rfl, -⟩ := List.cons.inj heq
      exact absurd hm hl
    | cons a pre =>
      obtain ⟨-, heq⟩ := List.cons.inj heq
      exact ⟨pre, m, post, heq, hm, fun b hb => hpre b (List.mem_cons_of_mem _ hb)⟩
  · rintro ⟨pre, m, post, heq, hm, hpre⟩
    exact ⟨l :: pre, m, post, by rw [heq]; rfl, hm, List.forall_mem_cons.mpr ⟨hfinal, hpre⟩⟩

end

/-- The bytes bring such a line. -/
def BytesAsk (g : Engine cfg) (bytes : List UInt8) : Prop := LinesAsk g (heard g bytes)

/-- A line between two lines is empty. -/
def Engine.betweenLines (g : Engine cfg) : Engine cfg := { g with line := [], lfsm := .start }

/-- A byte that moves the FSM. -/
theorem bytesAsk_more {g g' : Engine cfg} {b : UInt8} (h : lfsmByte b g = .more g') (bs : List UInt8) :
    BytesAsk g (b :: bs) ↔ BytesAsk g' bs := by
  have hecho : isEcho g' = isEcho g := by
    obtain ⟨line, lfsm, rfl⟩ := lfsmByte_eq h
    rfl
  rw [BytesAsk, BytesAsk, LinesAsk.congr hecho, heard, heard, Transducer.output_cons]
  rcases framer_step b g with ⟨g'', hb, hstep, -⟩ | ⟨l, hb, -⟩
  · obtain rfl := ByteStep.more.inj (h.symm.trans hb)
    rw [hstep]
    rfl
  · cases h.symm.trans hb

/-- A byte that ends a line. -/
theorem bytesAsk_line {g : Engine cfg} {b : UInt8} {l : List UInt8} (h : lfsmByte b g = .line l)
    (bs : List UInt8) :
    BytesAsk g (b :: bs) ↔ LinesAsk g ([l].filter (· ≠ []) ++ heard g.betweenLines bs) := by
  rw [BytesAsk, heard, heard, Transducer.output_cons]
  rcases framer_step b g with ⟨g', hb, -⟩ | ⟨l', hb, hstep⟩
  · cases h.symm.trans hb
  · obtain rfl := ByteStep.line.inj (h.symm.trans hb)
    rw [hstep, List.filter_append]
    rfl

/-! ## Code that does not answer -/

/-- A write that answers a prompt. -/
def Event.isAnswer (ev : Event cfg) : Bool := ev.isWrite .body || ev.isWrite .ctrlZ

/-- It is another command's turn. -/
def Event.isTurn : Event cfg → Bool
  | .start _ | .completed _ => true
  | _ => false

/-- The receiver, the echo test and the state are as they were, and no time has been
given back. -/
structure Unmoved (g g' : Engine cfg) : Prop where
  state : g'.state = g.state
  rx : g'.rx = g.rx
  framer : g'.framer = g.framer
  echo : isEcho g' = isEcho g
  timer : g'.timerMs ≤ g.timerMs

theorem Unmoved.refl (g : Engine cfg) : Unmoved g g := ⟨rfl, rfl, rfl, rfl, Nat.le_refl _⟩

theorem Unmoved.trans {g₁ g₂ g₃ : Engine cfg} (h : Unmoved g₁ g₂) (h' : Unmoved g₂ g₃) :
    Unmoved g₁ g₃ :=
  ⟨h'.state.trans h.state, h'.rx.trans h.rx, h'.framer.trans h.framer, h'.echo.trans h.echo,
    h'.timer.trans h.timer⟩

/-- Nothing was answered, and unless the turn has passed on, nothing was moved. -/
def Lull (w w' : World cfg σ) : Prop :=
  ∃ evs, w'.log = w.log ++ evs ∧ (∀ ev ∈ evs, ev.isAnswer = false) ∧
    ((∃ ev ∈ evs, ev.isTurn) ∨ w'.eng.state = .idle ∨ Unmoved w.eng w'.eng)

section

variable {w w' : World cfg σ}

theorem Lull.trans {w₁ w₂ w₃ : World cfg σ} (h : Lull w₁ w₂) (h' : Lull w₂ w₃) : Lull w₁ w₃ := by
  obtain ⟨evs, hlog, hanswer, heng⟩ := h
  obtain ⟨evs', hlog', hanswer', heng'⟩ := h'
  refine ⟨evs ++ evs', by rw [hlog', hlog, List.append_assoc],
    List.forall_mem_append.mpr ⟨hanswer, hanswer'⟩, ?_⟩
  rcases heng with ⟨ev, hev, hturn⟩ | hidle | hsame
  · exact .inl ⟨ev, List.mem_append_left _ hev, hturn⟩
  · rcases heng' with ⟨ev, hev, hturn⟩ | hidle' | hsame'
    · exact .inl ⟨ev, List.mem_append_right _ hev, hturn⟩
    · exact .inr (.inl hidle')
    · exact .inr (.inl (hsame'.state.trans hidle))
  · rcases heng' with ⟨ev, hev, hturn⟩ | hidle' | hsame'
    · exact .inl ⟨ev, List.mem_append_right _ hev, hturn⟩
    · exact .inr (.inl hidle')
    · exact .inr (.inr (hsame.trans hsame'))

/-- A change of the engine that moves nothing. -/
theorem Lull.putEng {g : Engine cfg} (h : Unmoved w.eng g) : Lull w (w.putEng g) :=
  ⟨[], (List.append_nil _).symm, by simp, .inr (.inr h)⟩

theorem Lull.refl (w : World cfg σ) : Lull w w := .putEng (w := w) (.refl w.eng)

theorem Lull.emit {ev : Event cfg} (hev : ev.isAnswer = false) (w : World cfg σ) :
    Lull w (w.emit ev) :=
  ⟨[ev], rfl, by simpa using hev, .inr (.inr (.refl _))⟩

theorem Lull.fire (e : CmdEntry cfg) (r : Response) (w : World cfg σ) : Lull w (w.fire e r) := by
  rw [World.fire]
  split
  · exact .refl w
  · exact .emit rfl w

/-- The turn passes on. -/
theorem Lull.turn {ev : Event cfg} (hev : ev.isTurn = true) (w : World cfg σ) (g : Engine cfg) :
    Lull w ((w.putEng g).emit ev) := by
  refine ⟨[ev], rfl, ?_, .inl ⟨ev, List.mem_singleton_self _, hev⟩⟩
  rw [List.forall_mem_singleton]
  cases ev <;> first | rfl | cases hev

/-- Hooks that do not feed the engine. -/
def NotFeeding (_ : HookKind) (c : ApiCall) : Prop := ∀ data, c ≠ .feed data

/-- Code that does not feed answers nothing. -/
theorem lull_upkeep : Upkeep NotFeeding (Lull : World cfg σ → World cfg σ → Prop) where
  refl := .refl
  trans := .trans
  app w s := ⟨[], (List.append_nil _).symm, by simp, .inr (.inr (.refl _))⟩
  nested w _ _ _ _ := .emit rfl w
  feed _ _ data hc := absurd rfl (hc data)
  send w d g hd := by
    obtain ⟨-, -, rfl⟩ := atSend_ok hd
    exact ⟨[.accepted d], rfl, by simp [Event.isAnswer, Event.isWrite],
      .inr (.inr ⟨rfl, rfl, rfl, rfl, Nat.le_refl _⟩)⟩
  tick _ _ hle := .putEng ⟨rfl, rfl, rfl, rfl, hle⟩
  table _ _ := .putEng ⟨rfl, rfl, rfl, rfl, Nat.le_refl _⟩
  finalize w s c := by
    have hset : Lull w (w.putEng (setResponse (finalResponse s c w.eng) w.eng)) :=
      .putEng ⟨rfl, rfl, rfl, rfl, Nat.le_refl _⟩
    exact hset.trans (.fire _ _ _)
  dequeue w i e := .turn rfl w _
  drainNotify w e := .fire _ _ _
  drainNext w e := .turn rfl w _
  reset _ w := ⟨[], (List.append_nil _).symm, by simp, .inr (.inl rfl)⟩

theorem hooks_lull {env : Env σ} (henv : env.Respects NotFeeding) (n : Nat) :
    InvokeKeeps (Lull : World cfg σ → World cfg σ → Prop) (invoke env n) :=
  lull_upkeep.hooks henv n

theorem transmit_lull (env : Env σ) (w : World cfg σ) : Lull w (transmit env w).2 := by
  obtain ⟨evs, hsent, hlog⟩ := transmit_sent env w
  refine ⟨_, hlog, List.forall_mem_cons.mpr ⟨rfl, ?_⟩, .inl ⟨_, List.mem_cons_self, rfl⟩⟩
  exact hsent.forall (fun _ _ => rfl) (fun _ _ => rfl) fun _ => rfl

theorem accumulate_lull (l : List UInt8) (w : World cfg σ) : Lull w (accumulate l w) := by
  obtain ⟨pool, response, heng⟩ := accumulate_eng l w
  refine ⟨_, accumulate_log l w, by simp [Event.isAnswer, Event.isWrite], .inr (.inr ?_)⟩
  rw [heng]
  exact ⟨rfl, rfl, rfl, rfl, Nat.le_refl _⟩

/-- A line that is neither the echo nor a prompt is dealt with in a lull, and a final
result leaves the engine idle. -/
theorem Handled.lull {env : Env σ} (henv : env.Respects NotFeeding) {n : Nat} {l : List UInt8}
    (h : Handled (invoke env n) env l w w') (he : isEcho w.eng l = false)
    (hp : isPrompt w.eng l = false) :
    Lull w w' ∧ (w.eng.state = .waiting → engineIsFinal l ≠ none → w'.eng.state = .idle) := by
  cases h with
  | echo he' => exact absurd he' (by simp [he])
  | ignored _ hp' | answered _ _ hp' | failed _ _ _ hp' => exact absurd hp' (by simp [hp])
  | final s c w' _ _ hs hf h =>
    exact ⟨(Lull.emit rfl w).trans (lull_upkeep.engineFinalize (hooks_lull henv n) h),
      fun _ _ => engineFinalize_idle h⟩
  | urc i w' _ _ hf h =>
    exact ⟨((Lull.emit rfl w).trans (.emit rfl _)).trans (hooks_lull henv n _ _ _ h),
      fun hs hne => absurd (hf hs) hne⟩
  | other _ _ hf => exact ⟨accumulate_lull l w, fun hs hne => absurd (hf hs) hne⟩

end

/-! ## Bytes that do not ask -/

/-- Nothing is answered before the turn passes on. -/
def Late (evs : List (Event cfg)) : Prop :=
  ∀ X ev Y, evs = X ++ ev :: Y → ev.isAnswer = true → ∃ t ∈ X, t.isTurn

theorem Late.append {evs evs' : List (Event cfg)} (h : Late evs)
    (h' : (∃ t ∈ evs, t.isTurn) ∨ ∀ ev ∈ evs', ev.isAnswer = false) : Late (evs ++ evs') := by
  intro X ev Y heq hev
  rcases append_split heq with ⟨Y', hX⟩ | ⟨E, rfl, hE⟩
  · exact h X ev Y' hX hev
  · rcases h' with ⟨t, ht, hturn⟩ | hquiet
    · exact ⟨t, List.mem_append_left _ ht, hturn⟩
    · rw [hquiet ev (by simp [hE])] at hev
      cases hev

/-- Since `log₀` nothing was answered in turn; the command is no longer waited for, or
it is and `Q` holds. -/
def Unasked (log₀ : List (Event cfg)) (Q : Engine cfg → Prop) (w : World cfg σ) : Prop :=
  ∃ evs, w.log = log₀ ++ evs ∧ Late evs ∧
    ((∃ t ∈ evs, t.isTurn) ∨ w.eng.state = .idle ∨ (w.eng.state = .waiting ∧ Q w.eng))

/-- The time that is left is as `T` says, and what is in the ring and still to come
does not ask for the body. -/
def Unasking (T : Nat → Prop) (rest : List UInt8) (g : Engine cfg) : Prop :=
  T g.timerMs ∧ ¬BytesAsk g (rxringBytes g.rx ++ rest)

theorem Unmoved.unasking {T : Nat → Prop} (hT : ∀ m n, m ≤ n → T n → T m) {rest : List UInt8}
    {g g' : Engine cfg} (h : Unmoved g g') (hg : Unasking T rest g) : Unasking T rest g' := by
  refine ⟨hT _ _ h.timer hg.1, ?_⟩
  rw [BytesAsk, LinesAsk.congr h.echo, h.rx, heard, h.framer]
  exact hg.2

section

variable {log₀ : List (Event cfg)} {Q : Engine cfg → Prop} {w w' : World cfg σ}

/-- A lull, for a `Q` that is about nothing it moves. -/
theorem Unasked.lull (h : Unasked log₀ Q w) (hw : Lull w w')
    (hQ : Unmoved w.eng w'.eng → Q w.eng → Q w'.eng) : Unasked log₀ Q w' := by
  obtain ⟨evs, hlog, hlate, heng⟩ := h
  obtain ⟨evs', hlog', hanswer, heng'⟩ := hw
  refine ⟨evs ++ evs', by rw [hlog', hlog, List.append_assoc], hlate.append (.inr hanswer), ?_⟩
  rcases heng with ⟨t, ht, hturn⟩ | heng
  · exact .inl ⟨t, List.mem_append_left _ ht, hturn⟩
  · rcases heng' with ⟨t, ht, hturn⟩ | hidle | hsame
    · exact .inl ⟨t, List.mem_append_right _ ht, hturn⟩
    · exact .inr (.inl hidle)
    · rcases heng with hidle | ⟨hs, hq⟩
      · exact .inr (.inl (hsame.state.trans hidle))
      · exact .inr (.inr ⟨hsame.state.trans hs, hQ hsame hq⟩)

/-- Once the turn has passed on, anything may happen. -/
theorem Unasked.turned {evs evs' : List (Event cfg)} (hlog : w.log = log₀ ++ evs)
    (hlate : Late evs) (hturn : ∃ t ∈ evs, t.isTurn) (hlog' : w'.log = w.log ++ evs') :
    Unasked log₀ Q w' := by
  refine ⟨evs ++ evs', by rw [hlog', hlog, List.append_assoc], hlate.append (.inl hturn), .inl ?_⟩
  obtain ⟨t, ht, hturn⟩ := hturn
  exact ⟨t, List.mem_append_left _ ht, hturn⟩

/-- The log only grows while a line is handled. -/
theorem Handled.log {env : Env σ} (henv : env.Respects NotFeeding) {n : Nat} {l : List UInt8}
    (h : Handled (invoke env n) env l w w') : ∃ evs, w'.log = w.log ++ evs := by
  have hprompt := answerPrompt_sent env (w.eng.queue w.eng.qTail) (w.emit (.line (.prompt true) l))
  cases h with
  | echo | ignored => exact ⟨_, rfl⟩
  | answered _ _ _ ha =>
    obtain ⟨evs, -, hlog⟩ := hprompt
    rw [ha] at hlog
    exact ⟨_, hlog.trans (List.append_assoc ..)⟩
  | failed v w' _ _ ha h =>
    obtain ⟨evs, -, hlog⟩ := hprompt
    obtain ⟨evs', hlog', -⟩ := lull_upkeep.engineFinalize (hooks_lull henv n) h
    rw [ha] at hlog
    exact ⟨_, by rw [hlog', hlog, World.emit_log, List.append_assoc, List.append_assoc]⟩
  | final s c w' he hp hs hf h =>
    obtain ⟨evs, hlog, -⟩ := (Handled.lull henv (.final s c w' he hp hs hf h) he hp).1
    exact ⟨evs, hlog⟩
  | urc i w' he hp hf h =>
    obtain ⟨evs, hlog, -⟩ := (Handled.lull henv (.urc i w' he hp hf h) he hp).1
    exact ⟨evs, hlog⟩
  | other => exact ⟨_, accumulate_log l w⟩

section

variable {T : Nat → Prop} (hT : ∀ m n, m ≤ n → T n → T m) {env : Env σ}
  (henv : env.Respects NotFeeding) {n : Nat}

include hT henv

/-- **A line.** If the line and those behind it do not ask, those behind it do not. -/
theorem Unasked.line {l : List UInt8} {ls : List (List UInt8)} {rx : RxRing cfg}
    (h : Unasked log₀ (fun g => g.rx = rx ∧ T g.timerMs ∧ ¬LinesAsk g (l :: ls)) w)
    (hd : Handled (invoke env n) env l w w') :
    Unasked log₀ (fun g => g.rx = rx ∧ T g.timerMs ∧ ¬LinesAsk g ls) w' := by
  obtain ⟨evs, hlog, hlate, hturn | hactive⟩ := h
  · obtain ⟨evs', hlog'⟩ := hd.log henv
    exact .turned hlog hlate hturn hlog'
  by_cases he : isEcho w.eng l = true
  · -- only a waiting engine takes a line for the echo
    obtain ⟨hs, hrx, htimer, hask⟩ : w.eng.state = .waiting ∧ _ := by
      rcases hactive with hidle | hwaiting
      · simp [isEcho, hidle] at he
      · exact hwaiting
    rw [linesAsk_echo he] at hask
    cases hd with
    | echo =>
      exact ⟨evs ++ [_], by rw [World.emit_log, World.putEng_log, hlog, List.append_assoc],
        hlate.append (.inr (by simp [Event.isAnswer, Event.isWrite])),
        .inr (.inr ⟨hs, hrx, htimer, hask⟩)⟩
    | ignored he' | answered _ he' | failed _ _ he' | final _ _ _ he' | urc _ _ he' | other he' =>
      exact absurd he (by simp [he'])
  rw [Bool.not_eq_true] at he
  by_cases hp : isPrompt w.eng l = true
  · have hs := isPrompt_waiting hp
    rcases hactive with hidle | ⟨-, -, -, hask⟩
    · rw [hs] at hidle
      cases hidle
    · exact absurd (linesAsk_prompt he (isPrompt_begins hp)) hask
  rw [Bool.not_eq_true] at hp
  obtain ⟨hlull, hfinal⟩ := hd.lull henv he hp
  by_cases hf : w.eng.state = .waiting ∧ engineIsFinal l ≠ none
  · obtain ⟨evs', hlog', hanswer, -⟩ := hlull
    exact ⟨evs ++ evs', by rw [hlog', hlog, List.append_assoc], hlate.append (.inr hanswer),
      .inr (.inl (hfinal hf.1 hf.2))⟩
  refine Unasked.lull ⟨evs, hlog, hlate, .inr ?_⟩ hlull ?_
  · rcases hactive with hidle | ⟨hs, hrx, htimer, hask⟩
    · exact .inl hidle
    · have hnone : engineIsFinal l = none := by
        by_contra hne
        exact hf ⟨hs, hne⟩
      rw [linesAsk_other he ((isPrompt_eq_false_iff hs).mp hp) hnone] at hask
      exact .inr ⟨hs, hrx, htimer, hask⟩
  · rintro hsame ⟨hrx, htimer, hask⟩
    exact ⟨hsame.rx.trans hrx, hT _ _ hsame.timer htimer, by rwa [LinesAsk.congr hsame.echo]⟩

/-- **A byte.** If the byte and those behind it do not ask, those behind it do not. -/
theorem Unasked.byte {rest : List UInt8} {b : UInt8}
    (h : Unasked log₀ (fun g => T g.timerMs ∧ ¬BytesAsk g (b :: (rxringBytes g.rx ++ rest))) w)
    (hb : processByte (invoke env n) env b w = some w') :
    Unasked log₀ (Unasking T rest) w' := by
  obtain ⟨evs, hlog, hlate, heng⟩ := h
  rw [processByte] at hb
  cases hf : lfsmByte b w.eng with
  | more g =>
    rw [hf] at hb
    obtain rfl := Option.some.inj hb
    refine ⟨evs, hlog, hlate, ?_⟩
    rcases heng with hturn | hidle | ⟨hs, htimer, hask⟩
    · exact .inl hturn
    · obtain ⟨line, lfsm, rfl⟩ := lfsmByte_eq hf
      exact .inr (.inl hidle)
    · rw [bytesAsk_more hf] at hask
      obtain ⟨line, lfsm, rfl⟩ := lfsmByte_eq hf
      exact .inr (.inr ⟨hs, htimer, hask⟩)
  | line l =>
    rw [hf] at hb
    obtain ⟨v, hd, rfl⟩ := Option.map_eq_some_iff.mp hb
    -- behind the line, the FSM is where it is set back to
    suffices hv : Unasked log₀ (fun g => g.rx = w.eng.rx ∧ T g.timerMs ∧
        ¬LinesAsk g (heard w.eng.betweenLines (rxringBytes w.eng.rx ++ rest))) v by
      obtain ⟨evs, hlog, hlate, hturn | hidle | ⟨hs, hrx, htimer, hask⟩⟩ := hv
      · exact ⟨evs, hlog, hlate, .inl hturn⟩
      · exact ⟨evs, hlog, hlate, .inr (.inl hidle)⟩
      · rw [← hrx] at hask
        exact ⟨evs, hlog, hlate, .inr (.inr ⟨hs, htimer, hask⟩)⟩
    have hline : Unasked log₀ (fun g => g.rx = w.eng.rx ∧ T g.timerMs ∧ ¬LinesAsk g
        ([l].filter (· ≠ []) ++ heard w.eng.betweenLines (rxringBytes w.eng.rx ++ rest))) w := by
      refine ⟨evs, hlog, hlate, heng.imp_right (Or.imp_right ?_)⟩
      rintro ⟨hs, htimer, hask⟩
      rw [bytesAsk_line hf] at hask
      exact ⟨hs, rfl, htimer, hask⟩
    by_cases hl : l = []
    · subst hl
      obtain rfl := Option.some.inj hd
      exact hline
    · have hkeep : [l].filter (· ≠ []) = [l] := by simp [hl]
      rw [hkeep] at hline
      exact hline.line hT henv (engineDispatchLine_handled hl hd)

/-- **The drain loop.** -/
theorem Unasked.drainRx {rest : List UInt8} {fuel : Nat}
    (h : LibAt.drainRx (invoke env n) env fuel w = some w') (hw : Unasked log₀ (Unasking T rest) w) :
    Unasked log₀ (Unasking T rest) w' := by
  refine (drainRx_run (I := Unasked log₀ (Unasking T rest)) (fun v v' b rx hv hp hb => ?_) h hw).1
  obtain ⟨evs, hlog, hlate, heng⟩ := hv
  refine Unasked.byte (w := v.putEng { v.eng with rx := rx }) hT henv
    ⟨evs, hlog, hlate, heng.imp_right ?_⟩ hb
  refine Or.imp_right fun ⟨hs, htimer, hask⟩ => ⟨hs, htimer, ?_⟩
  rw [rxringPop_bytes hp] at hask
  exact hask

/-- **An `at_process`.** -/
theorem Unasked.atProcess {rest : List UInt8}
    (h : LibAt.atProcess (invoke env n) env n w = some w') (hw : Unasked log₀ (Unasking T rest) w) :
    Unasked log₀ (Unasking T rest) w' := by
  obtain ⟨v, hv, h⟩ := Option.bind_eq_some_iff.mp h
  exact (hw.drainRx hT henv hv).lull
    (lull_upkeep.afterDrain (hooks_lull henv n) transmit_lull h) fun hsame => hsame.unasking hT

end

/-- With no time left the command is not waited for any more when `at_process` is
through. -/
theorem Unasked.expires {env : Env σ} (henv : env.Respects NotFeeding) {n : Nat} {rest : List UInt8}
    (h : LibAt.atProcess (invoke env n) env n w = some w')
    (hw : Unasked log₀ (Unasking (· = 0) rest) w) : Unasked log₀ (fun _ => False) w' := by
  obtain ⟨v, hv, h⟩ := Option.bind_eq_some_iff.mp h
  obtain ⟨evs, hlog, hlate, heng⟩ := hw.drainRx (fun a b hle hb => by omega) henv hv
  have hlull := lull_upkeep.afterDrain (hooks_lull henv n) transmit_lull h
  rcases heng with hturn | hidle | ⟨hs, htimer, -⟩
  · exact Unasked.lull ⟨evs, hlog, hlate, .inl hturn⟩ hlull fun _ => id
  · exact Unasked.lull ⟨evs, hlog, hlate, .inr (.inl hidle)⟩ hlull fun _ => id
  · obtain ⟨v₁, h₁, h⟩ := Option.bind_eq_some_iff.mp h
    rw [checkTimeout, if_pos ⟨.inl hs, htimer⟩] at h₁
    have hidle := engineFinalize_idle h₁
    obtain ⟨evs₁, hlog₁, hanswer₁, -⟩ := lull_upkeep.engineFinalize (hooks_lull henv n) h₁
    -- the engine is idle, and step 2 would do nothing further
    have hrest : (checkTimeout (invoke env n) v₁).bind (startIfIdle (invoke env n) env) = some w' := by
      rw [checkTimeout, if_neg (by simp [hidle])]
      exact h
    exact Unasked.lull ⟨evs ++ evs₁, by rw [hlog₁, hlog, List.append_assoc],
      hlate.append (.inr hanswer₁), .inr (.inl hidle)⟩
      (lull_upkeep.afterDrain (hooks_lull henv n) transmit_lull hrest) fun _ => id

end

/-! ## The prompt arrives -/

/-- CR LF `>` SPACE. -/
def promptBytes : List UInt8 := [13, 10, 62, 32]

/-- The bytes come in, in any pieces that find room in the ring, with any number of
calls of `at_process` in between, up to the call that consumes the last of them. The
bytes `first` come in before the first call. The hooks are as `P` says. -/
inductive Arrives (P : Env σ → Prop) :
    List UInt8 → List UInt8 → World cfg σ → World cfg σ → Prop
  /-- a piece is fed -/
  | feed {first rest} {w w' : World cfg σ} (data : List UInt8) (s : σ) :
      rxringBytes (atFeed data w.eng).rx = rxringBytes w.eng.rx ++ data →
      Arrives P first rest ((w.putApp s).putEng (atFeed data w.eng)) w' →
      Arrives P (data ++ first) (data ++ rest) w w'
  /-- `at_process` in between -/
  | process {first rest env fuel r w₁} {w w' : World cfg σ} (s : σ) : rest ≠ [] → P env →
      exec env fuel .process (w.putApp s) = some (r, w₁) → Arrives P first rest w₁ w' →
      Arrives P [] rest w w'
  /-- `at_process` with nothing more to come -/
  | last {env fuel r} {w w' : World cfg σ} (s : σ) : P env →
      exec env fuel .process (w.putApp s) = some (r, w') → Arrives P [] [] w w'

/-- What is left in the ring and comes in in time, as far as a line can end in it. The
first `at_process` is the last one for a command without time left. -/
def inTime (g : Engine cfg) (first : List UInt8) : List UInt8 :=
  rxringBytes g.rx ++ if g.timerMs = 0 then first else [13, 10]

/-- The body of the active command and the Ctrl-Z behind it go out between two worlds
while it is the command's turn. -/
def BodySent (w w' : World cfg σ) : Prop :=
  ∃ X n m Y, w'.log = w.log ++ (X ++ .write .body (w.eng.queue w.eng.qTail).body.bytes n ::
    .write .ctrlZ [26] m :: Y) ∧ ∀ t ∈ X, t.isTurn = false

/-- No line ends in the `>` and the SPACE. -/
theorem bytesAsk_prompt (g : Engine cfg) (bs : List UInt8) :
    BytesAsk g (bs ++ promptBytes) ↔ BytesAsk g (bs ++ [13, 10]) := by
  have hsplit : bs ++ promptBytes = (bs ++ [13] ++ [10]) ++ [62, 32] := by simp [promptBytes]
  have hstart := after_lf cfg g.framer (bs ++ [13])
  have hnone : (framer cfg).output ((framer cfg).after g.framer (bs ++ [13] ++ [10])) [62, 32] = [] := by
    generalize (framer cfg).after g.framer (bs ++ [13] ++ [10]) = f at hstart
    obtain ⟨lfsm, line⟩ := f
    obtain rfl : lfsm = .start := hstart
    rfl
  rw [BytesAsk, BytesAsk, heard, heard, hsplit, Transducer.output_append, hnone]
  simp

section

variable {log₀ : List (Event cfg)} {first rest : List UInt8} {w w' : World cfg σ}

/-- A piece that found room. -/
theorem Unasked.feed {T : Nat → Prop} {data : List UInt8} (s : σ)
    (hroom : rxringBytes (atFeed data w.eng).rx = rxringBytes w.eng.rx ++ data)
    (h : Unasked log₀ (Unasking T (data ++ rest)) w) :
    Unasked log₀ (Unasking T rest) ((w.putApp s).putEng (atFeed data w.eng)) := by
  obtain ⟨evs, hlog, hlate, heng⟩ := h
  refine ⟨evs, hlog, hlate, heng.imp_right (Or.imp_right fun ⟨hs, htimer, hask⟩ => ⟨hs, htimer, ?_⟩)⟩
  rw [World.putEng_eng, hroom, List.append_assoc]
  exact hask

/-- Bytes that do not ask for the body while they come in. -/
theorem Arrives.unasked (ha : Arrives (fun env => env.Respects NotFeeding) first rest w w')
    {T : Nat → Prop} (hT : ∀ m n, m ≤ n → T n → T m)
    (h : Unasked log₀ (Unasking T rest) w) : ∃ evs, w'.log = log₀ ++ evs ∧ Late evs := by
  induction ha with
  | feed data s hroom _ ih => exact ih (h.feed s hroom)
  | process s _ henv hx _ ih =>
    obtain ⟨w₁, hp, hw⟩ := Option.map_eq_some_iff.mp hx
    obtain ⟨-, rfl⟩ := Prod.mk.inj hw
    exact ih (Unasked.atProcess hT henv hp h)
  | last s henv hx =>
    obtain ⟨w₁, hp, hw⟩ := Option.map_eq_some_iff.mp hx
    obtain ⟨-, rfl⟩ := Prod.mk.inj hw
    obtain ⟨evs, hlog, hlate, -⟩ := Unasked.atProcess hT henv hp h
    exact ⟨evs, hlog, hlate⟩

/-- With no time left, only what comes in before the first `at_process` counts. -/
theorem Arrives.expired (ha : Arrives (fun env => env.Respects NotFeeding) first rest w w')
    (h : Unasked log₀ (Unasking (· = 0) first) w) : ∃ evs, w'.log = log₀ ++ evs ∧ Late evs := by
  induction ha with
  | feed data s hroom _ ih => exact ih (h.feed s hroom)
  | process s _ henv hx hrest _ =>
    obtain ⟨w₁, hp, hw⟩ := Option.map_eq_some_iff.mp hx
    obtain ⟨-, rfl⟩ := Prod.mk.inj hw
    obtain ⟨evs, hlog, hlate, heng⟩ := Unasked.expires henv hp h
    refine hrest.unasked (T := fun _ => False) (fun _ _ _ => id) ⟨evs, hlog, hlate, ?_⟩
    exact heng.imp_right (Or.imp_right fun hs => hs.2.elim)
  | last s henv hx =>
    obtain ⟨w₁, hp, hw⟩ := Option.map_eq_some_iff.mp hx
    obtain ⟨-, rfl⟩ := Prod.mk.inj hw
    obtain ⟨evs, hlog, hlate, -⟩ := Unasked.expires henv hp h
    exact ⟨evs, hlog, hlate⟩

/-- **The body goes out only if it is asked for.** -/
theorem asks_of_bodySent (hs : w.eng.state = .waiting)
    (ha : Arrives (fun env => env.Respects NotFeeding) first promptBytes w w')
    (hsent : BodySent w w') : BytesAsk w.eng (inTime w.eng first) := by
  by_contra hask
  obtain ⟨evs, hlog, hlate⟩ : ∃ evs, w'.log = w.log ++ evs ∧ Late evs := by
    rw [inTime] at hask
    by_cases h0 : w.eng.timerMs = 0
    · rw [if_pos h0] at hask
      exact ha.expired ⟨[], (List.append_nil _).symm, fun X ev Y h => by simp at h,
        .inr (.inr ⟨hs, h0, hask⟩)⟩
    · rw [if_neg h0, ← bytesAsk_prompt] at hask
      exact ha.unasked (T := fun _ => True) (fun _ _ _ => id)
        ⟨[], (List.append_nil _).symm, fun X ev Y h => by simp at h,
          .inr (.inr ⟨hs, trivial, hask⟩)⟩
  obtain ⟨X, n, m, Y, hlog', hX⟩ := hsent
  rw [hlog] at hlog'
  obtain ⟨t, ht, hturn⟩ := hlate X _ _ (List.append_cancel_left hlog') rfl
  rw [hX t ht] at hturn
  cases hturn

end

/-! ## Bytes that ask -/

/-- Hooks that only send leave everything alone but the queue, and there the oldest
command. -/
structure Aside (w w' : World cfg σ) : Prop where
  log : GrowsBy (fun ev => ev.isTurn = false) w.log w'.log
  unmoved : Unmoved w.eng w'.eng
  timer : w'.eng.timerMs = w.eng.timerMs
  queue : QueueOk w.eng → QueueOk w'.eng ∧
    (0 < w.eng.qCount → w'.eng.queue w'.eng.qTail = w.eng.queue w.eng.qTail)

theorem SentOnly.unmoved {w w' : World cfg σ} (h : SentOnly w w') :
    Unmoved w.eng w'.eng ∧ w'.eng.timerMs = w.eng.timerMs := by
  obtain ⟨queue, qHead, qCount, heq⟩ : ∃ queue qHead qCount, w'.eng =
      { w.eng with queue := queue, qHead := qHead, qCount := qCount } :=
    ⟨w'.eng.queue, w'.eng.qHead, w'.eng.qCount, by rw [← h.eng]⟩
  rw [heq]
  exact ⟨⟨rfl, rfl, rfl, rfl, Nat.le_refl _⟩, rfl⟩

theorem Env.Respects.sendsOnly_notCancelling {env : Env σ} (henv : env.Respects SendsOnly) :
    env.Respects NotCancelling := by
  refine fun inv s => (henv inv s).mono fun c hc => ⟨?_, ?_⟩
  · rintro rfl
    exact hc
  · rintro rfl
    exact hc

theorem Env.Respects.sendsOnly_notFeeding {env : Env σ} (henv : env.Respects SendsOnly) :
    env.Respects NotFeeding := by
  refine fun inv s => (henv inv s).mono fun c hc data heq => ?_
  subst heq
  exact hc

/-- Hooks that cancel nothing do not get at the oldest command. -/
theorem Edits.undisturbed (hfit : cfg.Fits) {w w' : World cfg σ} (h : Edits w w')
    (hqueue : QueueOk w.eng) : QueueOk w'.eng ∧ Undisturbed w.eng w'.eng := by
  refine h.invariant (I := fun u => QueueOk u.eng ∧ Undisturbed w.eng u.eng)
    (fun u u' ⟨hok, hu⟩ he => ?_) ⟨hqueue, rfl, rfl, Nat.le_refl _, fun _ => rfl⟩
  obtain ⟨hok', hu'⟩ := he.queue hfit hok
  refine ⟨hok', hu'.state.trans hu.state, hu'.qTail.trans hu.qTail,
    hu.count_le.trans hu'.count_le, fun h0 => ?_⟩
  have hold := hu'.oldest (h0.trans_le hu.count_le)
  rw [hu.qTail] at hold
  exact hold.trans (hu.oldest h0)

/-- What such a hook can do. -/
theorem invoke_aside (hfit : cfg.Fits) {env : Env σ} (henv : env.Respects SendsOnly) {n : Nat}
    {inv : Invocation} {w w' : World cfg σ} (h : invoke env n inv w = some w') : Aside w w' := by
  have hedits : Edits w w' :=
    (invokeIf_follow henv.sendsOnly_notCancelling (fun _ => True) n _ _ _ trivial h).2
  obtain ⟨n, rfl⟩ : ∃ m, n = m + 1 := by
    cases n with
    | zero => cases h
    | succ m => exact ⟨m, rfl⟩
  obtain ⟨v, hsent, hv⟩ := invoke_sends hfit inv w (henv inv w.app)
  obtain rfl : v = w' := Option.some.inj ((hv n).symm.trans h)
  obtain ⟨hunmoved, htimer⟩ := hsent.unmoved
  refine ⟨?_, hunmoved, htimer, fun hqueue => ?_⟩
  · obtain ⟨evs, hlog, haside⟩ := hedits.log
    refine ⟨evs, hlog, fun ev hev => ?_⟩
    have := haside ev hev
    cases ev <;> first | rfl | cases this
  · obtain ⟨hok, hkept⟩ := hedits.undisturbed hfit hqueue
    exact ⟨hok, fun h0 => by rw [hkept.qTail, hkept.oldest h0]⟩

/-- The body of `e` and the Ctrl-Z are in the log while it is the command's turn. -/
def SentIn (e : CmdEntry cfg) (evs : List (Event cfg)) : Prop :=
  ∃ X n m Y, evs = X ++ .write .body e.body.bytes n :: .write .ctrlZ [26] m :: Y ∧
    ∀ t ∈ X, t.isTurn = false

/-- The message `e` is waited for, with the time `t`, and `Q` holds. -/
structure AwaitsPrompt (e : CmdEntry cfg) (t : Nat) (Q : Engine cfg → Prop) (g : Engine cfg) : Prop where
  state : g.state = .waiting
  queue : QueueOk g
  entry : g.queue g.qTail = e
  timer : g.timerMs = t
  ask : Q g

/-- Since `log₀` the body has been sent in turn, or it is still the command's turn and
`Q` holds. -/
def Asked (log₀ : List (Event cfg)) (e : CmdEntry cfg) (t : Nat) (Q : Engine cfg → Prop)
    (w : World cfg σ) : Prop :=
  ∃ evs, w.log = log₀ ++ evs ∧
    (SentIn e evs ∨ (∀ t ∈ evs, t.isTurn = false) ∧ AwaitsPrompt e t Q w.eng)

section

variable {log₀ : List (Event cfg)} {e : CmdEntry cfg} {t : Nat} {Q : Engine cfg → Prop}
  {w w' : World cfg σ}

/-- What is in the log stays there. -/
theorem Asked.sent {evs evs' : List (Event cfg)} (hlog : w.log = log₀ ++ evs) (h : SentIn e evs)
    (hlog' : w'.log = w.log ++ evs') : Asked log₀ e t Q w' := by
  obtain ⟨X, n, m, Y, rfl, hX⟩ := h
  exact ⟨_, by rw [hlog', hlog, List.append_assoc], .inl ⟨X, n, m, Y ++ evs', by simp, hX⟩⟩

/-- A change that leaves the command and its turn alone. -/
theorem Asked.frame {evs evs' : List (Event cfg)} (hlog : w.log = log₀ ++ evs)
    (hturn : ∀ t ∈ evs, t.isTurn = false) (hlog' : w'.log = w.log ++ evs')
    (hturn' : ∀ t ∈ evs', t.isTurn = false) (hw : AwaitsPrompt e t Q w'.eng) : Asked log₀ e t Q w' :=
  ⟨evs ++ evs', by rw [hlog', hlog, List.append_assoc],
    .inr ⟨List.forall_mem_append.mpr ⟨hturn, hturn'⟩, hw⟩⟩

section

variable (hfit : cfg.Fits) (hsms : e.prompt = .sms) (hbody : e.hasBody = true) {env : Env σ}
  (henv : env.Respects SendsOnly) (hwrite : env.Delivers) {n : Nat}

include hfit hsms hbody henv hwrite

/-- **A line.** If the line and those behind it ask, the body goes out, or those behind it
do. -/
theorem Asked.line {l : List UInt8} {ls : List (List UInt8)} {rx : RxRing cfg}
    (h : Asked log₀ e t (fun g => g.rx = rx ∧ LinesAsk g (l :: ls)) w)
    (hd : Handled (invoke env n) env l w w') :
    Asked log₀ e t (fun g => g.rx = rx ∧ LinesAsk g ls) w' := by
  obtain ⟨evs, hlog, hsent | ⟨hturn, hs, hqueue, rfl, htimer, hrx, hask⟩⟩ := h
  · obtain ⟨evs', hlog'⟩ := hd.log henv.sendsOnly_notFeeding
    exact .sent hlog hsent hlog'
  have h0 : 0 < w.eng.qCount := hqueue.active (by simp [hs])
  cases hd with
  | echo he =>
    rw [linesAsk_echo he] at hask
    exact .frame hlog hturn rfl (by simp [Event.isTurn])
      ⟨hs, hqueue.congr ⟨rfl, rfl, rfl, rfl⟩ hqueue.active, rfl, htimer, hrx, hask⟩
  | ignored _ _ hno => exact absurd ⟨hsms, hbody⟩ hno
  | answered _ _ _ ha =>
    obtain ⟨evs', hpair, hlog'⟩ := answerPrompt_sent env (w.eng.queue w.eng.qTail)
      (w.emit (.line (.prompt true) l))
    rw [ha] at hpair hlog'
    refine ⟨evs ++ .line (.prompt true) l :: evs', ?_, .inl ?_⟩
    · rw [hlog', World.emit_log, hlog]
      simp
    · cases hpair with
      | sent =>
        refine ⟨evs ++ [.line (.prompt true) l], _, _, _, List.append_cons _ _ _, ?_⟩
        exact List.forall_mem_append.mpr ⟨hturn, by simp [Event.isTurn]⟩
  | failed v _ _ _ ha =>
    have hall := answerPrompt_delivers hwrite (w.eng.queue w.eng.qTail)
      (w.emit (.line (.prompt true) l))
    rw [ha] at hall
    cases hall
  | final s c _ he _ _ hf => exact absurd hask (not_linesAsk_final he (by simp [hf]))
  | urc i _ he hp hf hi =>
    rw [linesAsk_other he ((isPrompt_eq_false_iff hs).mp hp) (hf hs)] at hask
    obtain ⟨⟨evs', hlog', hturn'⟩, hunmoved, htimer', hkept⟩ := invoke_aside hfit henv hi
    obtain ⟨hqueue', hentry⟩ := hkept hqueue
    rw [World.emit_log, World.emit_log, List.append_assoc, List.append_assoc] at hlog'
    refine .frame hlog hturn hlog' ?_
      ⟨hunmoved.state.trans hs, hqueue', hentry h0, htimer'.trans htimer, hunmoved.rx.trans hrx, ?_⟩
    · exact List.forall_mem_append.mpr ⟨by simp [Event.isTurn],
        List.forall_mem_append.mpr ⟨by simp [Event.isTurn], hturn'⟩⟩
    · rwa [LinesAsk.congr hunmoved.echo]
  | other he hp hf =>
    rw [linesAsk_other he ((isPrompt_eq_false_iff hs).mp hp) (hf hs)] at hask
    obtain ⟨pool, response, heng⟩ := accumulate_eng l w
    refine .frame hlog hturn (accumulate_log l w) (by simp [Event.isTurn]) ?_
    rw [heng]
    exact ⟨hs, hqueue.congr ⟨rfl, rfl, rfl, rfl⟩ hqueue.active, rfl, htimer, hrx, hask⟩

/-- **A byte.** -/
theorem Asked.byte {rest : List UInt8} {b : UInt8}
    (h : Asked log₀ e t (fun g => BytesAsk g (b :: (rxringBytes g.rx ++ rest))) w)
    (hb : processByte (invoke env n) env b w = some w') :
    Asked log₀ e t (fun g => BytesAsk g (rxringBytes g.rx ++ rest)) w' := by
  rw [processByte] at hb
  cases hf : lfsmByte b w.eng with
  | more g =>
    rw [hf] at hb
    obtain rfl := Option.some.inj hb
    obtain ⟨evs, hlog, hsent | ⟨hturn, hs, hqueue, hentry, htimer, hask⟩⟩ := h
    · exact ⟨evs, hlog, .inl hsent⟩
    · rw [bytesAsk_more hf] at hask
      obtain ⟨line, lfsm, rfl⟩ := lfsmByte_eq hf
      exact ⟨evs, hlog, .inr ⟨hturn, hs, hqueue.congr ⟨rfl, rfl, rfl, rfl⟩ hqueue.active, hentry,
        htimer, hask⟩⟩
  | line l =>
    rw [hf] at hb
    obtain ⟨v, hd, rfl⟩ := Option.map_eq_some_iff.mp hb
    suffices hv : Asked log₀ e t (fun g => g.rx = w.eng.rx ∧
        LinesAsk g (heard w.eng.betweenLines (rxringBytes w.eng.rx ++ rest))) v by
      obtain ⟨evs, hlog, hsent | ⟨hturn, hs, hqueue, hentry, htimer, hrx, hask⟩⟩ := hv
      · exact ⟨evs, hlog, .inl hsent⟩
      · rw [← hrx] at hask
        exact ⟨evs, hlog, .inr ⟨hturn, hs, hqueue.congr ⟨rfl, rfl, rfl, rfl⟩ hqueue.active, hentry,
          htimer, hask⟩⟩
    have hline : Asked log₀ e t (fun g => g.rx = w.eng.rx ∧ LinesAsk g
        ([l].filter (· ≠ []) ++ heard w.eng.betweenLines (rxringBytes w.eng.rx ++ rest))) w := by
      obtain ⟨evs, hlog, hevs⟩ := h
      refine ⟨evs, hlog, hevs.imp_right (And.imp_right fun hw => ?_)⟩
      exact ⟨hw.state, hw.queue, hw.entry, hw.timer, rfl, (bytesAsk_line hf _).mp hw.ask⟩
    by_cases hl : l = []
    · subst hl
      obtain rfl := Option.some.inj hd
      exact hline
    · have hkeep : [l].filter (· ≠ []) = [l] := by simp [hl]
      rw [hkeep] at hline
      exact hline.line hfit hsms hbody henv hwrite (engineDispatchLine_handled hl hd)

/-- **An `at_process`.** The body has gone out, or the time is up, or more bytes are to
come. -/
theorem Asked.atProcess {rest : List UInt8}
    (h : LibAt.atProcess (invoke env n) env n w = some w')
    (hw : Asked log₀ e t (fun g => BytesAsk g (rxringBytes g.rx ++ rest)) w) :
    (∃ evs, w'.log = log₀ ++ evs ∧ SentIn e evs) ∨
      rest ≠ [] ∧ (t ≠ 0 → Asked log₀ e t (fun g => BytesAsk g (rxringBytes g.rx ++ rest)) w') := by
  obtain ⟨v, hv, h⟩ := Option.bind_eq_some_iff.mp h
  obtain ⟨⟨evs, hlog, hsent | ⟨hturn, hwait⟩⟩, hempty⟩ := drainRx_run
    (I := Asked log₀ e t fun g => BytesAsk g (rxringBytes g.rx ++ rest))
    (fun u u' b rx hu hp hb => by
      refine Asked.byte (w := u.putEng { u.eng with rx := rx }) hfit hsms hbody henv hwrite ?_ hb
      obtain ⟨evs, hlog, hevs⟩ := hu
      refine ⟨evs, hlog, hevs.imp_right fun ⟨hturn, hs, hqueue, hentry, htimer, hask⟩ =>
        ⟨hturn, hs, hqueue.congr ⟨rfl, rfl, rfl, rfl⟩ hqueue.active, hentry, htimer, ?_⟩⟩
      rw [rxringPop_bytes hp] at hask
      exact hask) hv hw
  · left
    obtain ⟨evs', hlog', -⟩ := lull_upkeep.afterDrain
      (hooks_lull henv.sendsOnly_notFeeding n) transmit_lull h
    obtain ⟨X, a, b, Y, rfl, hX⟩ := hsent
    exact ⟨_, by rw [hlog', hlog, List.append_assoc], X, a, b, Y ++ evs', by simp, hX⟩
  · right
    have hask := hwait.ask
    rw [hempty, List.nil_append] at hask
    refine ⟨?_, fun ht => ?_⟩
    · rintro rfl
      exact not_linesAsk_nil hask
    · have hcheck : checkTimeout (invoke env n) v = some v := by
        rw [checkTimeout, if_neg fun hc => ht (hwait.timer.symm.trans hc.2)]
      have hstart : startIfIdle (invoke env n) env v = some v := by
        rw [startIfIdle, if_neg (by simp [hwait.state])]
      have hret : (checkTimeout (invoke env n) v).bind (startIfIdle (invoke env n) env) = some v := by
        rw [hcheck, Option.bind_some, hstart]
      obtain rfl := Option.some.inj (hret.symm.trans h)
      exact ⟨evs, hlog, .inr ⟨hturn, hwait⟩⟩

end

end

section

variable {log₀ : List (Event cfg)} {e : CmdEntry cfg} {t : Nat} {first rest : List UInt8}
  {w w' : World cfg σ}

/-- A piece that found room. -/
theorem Asked.feed {data : List UInt8} (s : σ)
    (hroom : rxringBytes (atFeed data w.eng).rx = rxringBytes w.eng.rx ++ data)
    (h : Asked log₀ e t (fun g => BytesAsk g (rxringBytes g.rx ++ (data ++ rest))) w) :
    Asked log₀ e t (fun g => BytesAsk g (rxringBytes g.rx ++ rest))
      ((w.putApp s).putEng (atFeed data w.eng)) := by
  obtain ⟨evs, hlog, hevs⟩ := h
  refine ⟨evs, hlog, hevs.imp_right fun ⟨hturn, hs, hqueue, hentry, htimer, hask⟩ =>
    ⟨hturn, hs, hqueue.congr ⟨rfl, rfl, rfl, rfl⟩ hqueue.active, hentry, htimer, ?_⟩⟩
  rw [World.putEng_eng, hroom, List.append_assoc]
  exact hask

theorem Arrives.mono {P P' : Env σ → Prop} (hP : ∀ env, P env → P' env)
    (ha : Arrives P first rest w w') : Arrives P' first rest w w' := by
  induction ha with
  | feed data s hroom _ ih => exact .feed data s hroom ih
  | process s hrest henv hx _ ih => exact .process s hrest (hP _ henv) hx ih
  | last s henv hx => exact .last s (hP _ henv) hx

/-- The log only grows while bytes come in. -/
theorem Arrives.log_mono (ha : Arrives (fun env => env.Respects NotFeeding) first rest w w') :
    w.log <+: w'.log := by
  induction ha with
  | feed data s _ _ ih => exact ih
  | process s _ henv hx _ ih =>
    have hle := (exec_steps henv hx).log_mono
    exact List.IsPrefix.trans hle ih
  | last s henv hx =>
    have hle := (exec_steps henv hx).log_mono
    exact hle

/-- What has been sent stays in the log. -/
theorem sentIn_mono {evs : List (Event cfg)} (h : SentIn e evs) (hlog : w.log = log₀ ++ evs)
    (hle : w.log <+: w'.log) : ∃ evs, w'.log = log₀ ++ evs ∧ SentIn e evs := by
  obtain ⟨evs', hlog'⟩ := hle
  obtain ⟨X, n, m, Y, rfl, hX⟩ := h
  exact ⟨_, by rw [← hlog', hlog, List.append_assoc], X, n, m, Y ++ evs', by simp, hX⟩

/-- Hooks that only send, and writes that succeed. -/
def Delivering (env : Env σ) : Prop := env.Respects SendsOnly ∧ env.Delivers

section

variable (hfit : cfg.Fits) (hsms : e.prompt = .sms) (hbody : e.hasBody = true)
  (ha : Arrives Delivering first rest w w')

include hfit hsms hbody ha

/-- Bytes that ask for the body while they come in. -/
theorem Arrives.asked (ht : t ≠ 0)
    (h : Asked log₀ e t (fun g => BytesAsk g (rxringBytes g.rx ++ rest)) w) :
    ∃ evs, w'.log = log₀ ++ evs ∧ SentIn e evs := by
  induction ha with
  | feed data s hroom _ ih => exact ih (h.feed s hroom)
  | process s _ henv hx hrest ih =>
    obtain ⟨w₁, hp, hw⟩ := Option.map_eq_some_iff.mp hx
    obtain ⟨-, rfl⟩ := Prod.mk.inj hw
    rcases Asked.atProcess hfit hsms hbody henv.1 henv.2 hp h with ⟨evs, hlog, hsent⟩ | ⟨-, hask⟩
    · exact sentIn_mono hsent hlog
        (hrest.mono fun _ henv => henv.1.sendsOnly_notFeeding).log_mono
    · exact ih (hask ht)
  | last s henv hx =>
    obtain ⟨w₁, hp, hw⟩ := Option.map_eq_some_iff.mp hx
    obtain ⟨-, rfl⟩ := Prod.mk.inj hw
    rcases Asked.atProcess hfit hsms hbody henv.1 henv.2 hp h with hsent | ⟨hne, -⟩
    · exact hsent
    · exact absurd rfl hne

/-- With no time left, what comes in before the first `at_process` has to ask. -/
theorem Arrives.asked_first (h : Asked log₀ e t (fun g => BytesAsk g (rxringBytes g.rx ++ first)) w) :
    ∃ evs, w'.log = log₀ ++ evs ∧ SentIn e evs := by
  induction ha with
  | feed data s hroom _ ih => exact ih (h.feed s hroom)
  | process s _ henv hx hrest _ =>
    obtain ⟨w₁, hp, hw⟩ := Option.map_eq_some_iff.mp hx
    obtain ⟨-, rfl⟩ := Prod.mk.inj hw
    rcases Asked.atProcess hfit hsms hbody henv.1 henv.2 hp h with ⟨evs, hlog, hsent⟩ | ⟨hne, -⟩
    · exact sentIn_mono hsent hlog
        (hrest.mono fun _ henv => henv.1.sendsOnly_notFeeding).log_mono
    · exact absurd rfl hne
  | last s henv hx =>
    obtain ⟨w₁, hp, hw⟩ := Option.map_eq_some_iff.mp hx
    obtain ⟨-, rfl⟩ := Prod.mk.inj hw
    rcases Asked.atProcess hfit hsms hbody henv.1 henv.2 hp h with hsent | ⟨hne, -⟩
    · exact hsent
    · exact absurd rfl hne

end

/-- **The body goes out if it is asked for.** -/
theorem bodySent_of_asks (hfit : cfg.Fits) (hs : w.eng.state = .waiting) (hqueue : QueueOk w.eng)
    (hsms : (w.eng.queue w.eng.qTail).prompt = .sms)
    (hbody : (w.eng.queue w.eng.qTail).hasBody = true)
    (ha : Arrives Delivering first promptBytes w w') (hask : BytesAsk w.eng (inTime w.eng first)) :
    BodySent w w' := by
  have hstart {Q : Engine cfg → Prop} (hQ : Q w.eng) :
      Asked w.log (w.eng.queue w.eng.qTail) w.eng.timerMs Q w :=
    ⟨[], (List.append_nil _).symm, .inr ⟨by simp, hs, hqueue, rfl, rfl, hQ⟩⟩
  obtain ⟨evs, hlog, X, n, m, Y, rfl, hX⟩ :
      ∃ evs, w'.log = w.log ++ evs ∧ SentIn (w.eng.queue w.eng.qTail) evs := by
    rw [inTime] at hask
    by_cases h0 : w.eng.timerMs = 0
    · rw [if_pos h0] at hask
      exact ha.asked_first hfit hsms hbody (hstart hask)
    · rw [if_neg h0, ← bytesAsk_prompt] at hask
      exact ha.asked hfit hsms hbody h0 (hstart hask)
  exact ⟨X, n, m, Y, hlog, hX⟩

end

/-- A message waits for its prompt, and `left` is left in the ring. -/
def PromptScene (left : List UInt8) (w : World Config.default Unit) : Prop :=
  w.eng.state = .waiting ∧ w.eng.queue w.eng.qTail = cmdEntryOf _ message ∧
    w.eng.lfsm = .start ∧ rxringBytes w.eng.rx = left

instance (left : List UInt8) (w : World Config.default Unit) : Decidable (PromptScene left w) :=
  inferInstanceAs (Decidable (_ ∧ _ ∧ _ ∧ _))

theorem plainEnv_delivering : Delivering plainEnv :=
  ⟨plainEnv_respects _, fun _ _ => rfl⟩

end LibAt
