import LibAt.EchoTrap
import LibAt.Streams
import LibAt.Upkeep

/-!
# The line FSM as a machine

The `switch` of `at_process` looks at nothing but its state and the line
buffer, so it is a `Transducer` that reads bytes and hands over lines
(`framer`). A `Session` is a run in which nobody resets the engine, with the
bytes that were offered to the ring and the bytes that the drain loop took out
of it. Whatever the calls and their hooks do meanwhile, the lines dispatched are
those the machine hands over for the bytes taken, and the ring conserves the
bytes (`Session.took`).

On the machine alone, any LF leads between two lines, and from there every
framed line is handed over once, cut to what the line buffer holds
(`line_framing`).
-/

namespace LibAt

variable {cfg : Config} {σ : Type}

/-! ## The machine -/

/-- Where the line FSM stands, and the bytes it has collected. -/
structure Framer where
  lfsm : LineFsm
  line : List UInt8
  deriving DecidableEq, Repr

/-- The line FSM of an engine. -/
def Engine.framer (g : Engine cfg) : Framer := ⟨g.lfsm, g.line⟩

/-- The `switch` of `at_process` as a machine. -/
def framer (cfg : Config) : Transducer Framer UInt8 (List UInt8) where
  step f b :=
    match f.lfsm with
    | .start => if b = 13 ∨ b = 10 then (f, []) else (⟨.data, [b]⟩, [])
    | .data =>
      if b = 13 then (⟨.cr, f.line⟩, [])
      else if b = 10 then (⟨.start, []⟩, [f.line])
      else (⟨.data, pushLine cfg f.line b⟩, [])
    | .cr =>
      if b = 10 then (⟨.start, []⟩, [f.line])
      else if b = 32 ∧ f.line.length = 1 ∧ f.line.head? = some 62 then (⟨.start, []⟩, [[62, 32]])
      else (⟨.data, pushLine cfg f.line b⟩, [])

/-- **The machine is the FSM.** A byte moves it as it moves the engine, and it
hands over a line where the engine dispatches it. -/
theorem framer_step (b : UInt8) (g : Engine cfg) :
    (∃ g', lfsmByte b g = .more g' ∧ (framer cfg).step g.framer b = (g'.framer, []) ∧
      g'.rx = g.rx) ∨
    ∃ l, lfsmByte b g = .line l ∧ (framer cfg).step g.framer b = (⟨.start, []⟩, [l]) := by
  simp only [framer, lfsmByte, Engine.framer]
  cases hs : g.lfsm with
  | start =>
    left
    dsimp only
    split
    · exact ⟨g, rfl, by rw [hs], rfl⟩
    · exact ⟨_, rfl, rfl, rfl⟩
  | data =>
    dsimp only
    split
    · exact .inl ⟨_, rfl, rfl, rfl⟩
    · split
      · exact .inr ⟨_, rfl, rfl⟩
      · exact .inl ⟨_, rfl, rfl, rfl⟩
  | cr =>
    dsimp only
    split
    · exact .inr ⟨_, rfl, rfl⟩
    · split
      · exact .inr ⟨_, rfl, rfl⟩
      · exact .inl ⟨_, rfl, rfl, rfl⟩

/-! ## Framed lines -/

/-- A line as it comes from the modem: any CR and LF, the line, and CR LF or LF
alone. -/
structure Framed where
  blank : List UInt8
  text : List UInt8
  crlf : Bool
  blank_eol : ∀ b ∈ blank, b = 13 ∨ b = 10
  text_line : ModemLine text

/-- The bytes of a framed line. -/
def Framed.bytes (p : Framed) : List UInt8 :=
  p.blank ++ (p.text ++ if p.crlf then [13, 10] else [10])

section

variable (cfg)

/-- What is handed over leaves room for the terminator in the line buffer, if what has been
collected does. -/
theorem framer_fits {f : Framer} (hf : f.line.length ≤ cfg.lineMax - 1) (bs : List UInt8) :
    ∀ l ∈ (framer cfg).output f bs, l.length ≤ cfg.lineMax - 1 := by
  have hline := cfg.line_ge
  refine ((framer cfg).invariant (P := fun f => f.line.length ≤ cfg.lineMax - 1)
    (Q := fun l => l.length ≤ cfg.lineMax - 1) (fun f b hf => ?_) bs hf).2
  have hpush := length_pushLine_le hf b
  rcases f with ⟨_ | _ | _, line⟩ <;> simp only [framer] <;> split_ifs <;>
    simp only [List.not_mem_nil, List.mem_singleton, List.length_nil, List.length_cons, Nat.zero_le,
      false_imp_iff, forall_eq, implies_true, and_true, true_and]
  all_goals first | exact hf | exact hpush | omega

/-- Any LF leads between two lines. -/
theorem after_lf (f : Framer) (bs : List UInt8) :
    ((framer cfg).after f (bs ++ [10])).lfsm = .start := by
  rw [Transducer.after_append, Transducer.after_cons, Transducer.after_nil]
  generalize (framer cfg).after f bs = f'
  rcases f' with ⟨_ | _ | _, line⟩ <;> simp [framer]

/-- CR and LF between two lines are skipped. -/
theorem framer_blank {bs : List UInt8} (hbs : ∀ b ∈ bs, b = 13 ∨ b = 10) {f : Framer}
    (hf : f.lfsm = .start) : (framer cfg).after f bs = f ∧ (framer cfg).output f bs = [] := by
  induction bs with
  | nil => exact ⟨rfl, rfl⟩
  | cons b bs ih =>
    obtain ⟨hb, hbs⟩ := List.forall_mem_cons.mp hbs
    have hstep : (framer cfg).step f b = (f, []) := by
      simp only [framer, hf]
      exact if_pos hb
    rw [Transducer.after_cons, Transducer.output_cons, hstep]
    exact ih hbs

/-- Bytes inside a line are collected, as far as the buffer goes. -/
theorem framer_inside {l : List UInt8} (hcr : (13 : UInt8) ∉ l) (hlf : (10 : UInt8) ∉ l)
    (a : List UInt8) : (framer cfg).after ⟨.data, cut cfg a⟩ l = ⟨.data, cut cfg (a ++ l)⟩ ∧
      (framer cfg).output ⟨.data, cut cfg a⟩ l = [] := by
  induction l generalizing a with
  | nil => exact ⟨by rw [List.append_nil]; rfl, rfl⟩
  | cons b l ih =>
    rw [List.mem_cons, not_or] at hcr hlf
    have hstep : (framer cfg).step ⟨.data, cut cfg a⟩ b = (⟨.data, cut cfg (a ++ [b])⟩, []) := by
      rw [← pushLine_cut]
      simp only [framer, if_neg (Ne.symm hcr.1), if_neg (Ne.symm hlf.1)]
    rw [Transducer.after_cons, Transducer.output_cons, hstep]
    obtain ⟨hafter, hout⟩ := ih hcr.2 hlf.2 (a ++ [b])
    rw [List.append_assoc, List.singleton_append] at hafter
    exact ⟨hafter, hout⟩

/-- A line is collected from its first byte on. -/
theorem framer_text {l : List UInt8} (hl : ModemLine l) {f : Framer} (hf : f.lfsm = .start) :
    (framer cfg).after f l = ⟨.data, cut cfg l⟩ ∧ (framer cfg).output f l = [] := by
  cases l with
  | nil => exact absurd rfl hl.ne_nil
  | cons b l =>
    have hcr := hl.cr
    have hlf := hl.lf
    rw [List.mem_cons, not_or] at hcr hlf
    have hline := cfg.line_ge
    have hone : [b] = cut cfg [b] :=
      (List.take_of_length_le (by rw [List.length_singleton]; omega)).symm
    have hstep : (framer cfg).step f b = (⟨.data, cut cfg [b]⟩, []) := by
      rw [← hone]
      simp only [framer, hf]
      exact if_neg (not_or.mpr ⟨Ne.symm hcr.1, Ne.symm hlf.1⟩)
    rw [Transducer.after_cons, Transducer.output_cons, hstep]
    exact framer_inside cfg hcr.2 hlf.2 [b]

/-- The end of a line hands it over. -/
theorem framer_eol (l : List UInt8) (crlf : Bool) :
    ((framer cfg).after ⟨.data, l⟩ (if crlf then [13, 10] else [10])).lfsm = .start ∧
      (framer cfg).output ⟨.data, l⟩ (if crlf then [13, 10] else [10]) = [l] := by
  cases crlf <;> simp [framer, Transducer.after, Transducer.output]

/-- **A framed line** is handed over once, cut to the buffer. -/
theorem framer_framed (p : Framed) {f : Framer} (hf : f.lfsm = .start) :
    ((framer cfg).after f p.bytes).lfsm = .start ∧
      (framer cfg).output f p.bytes = [cut cfg p.text] := by
  obtain ⟨hblank, hskip⟩ := framer_blank cfg p.blank_eol hf
  obtain ⟨htext, hnone⟩ := framer_text cfg p.text_line hf
  obtain ⟨hend, hout⟩ := framer_eol cfg (cut cfg p.text) p.crlf
  rw [Framed.bytes, Transducer.after_append, Transducer.output_append, hblank, hskip,
    Transducer.after_append, Transducer.output_append, htext, hnone]
  exact ⟨hend, hout⟩

/-- Framed lines are handed over one after the other. -/
theorem framer_lines (ps : List Framed) : ∀ {f : Framer}, f.lfsm = .start →
    (framer cfg).output f (ps.flatMap Framed.bytes) = ps.map fun p => cut cfg p.text := by
  induction ps with
  | nil => exact fun _ => rfl
  | cons p ps ih =>
    intro f hf
    obtain ⟨hend, hout⟩ := framer_framed cfg p hf
    rw [List.flatMap_cons, Transducer.output_append, hout, ih hend]
    rfl

end

/-! ## The ring conserves bytes -/

/-- Feeding a byte stores it, or drops it. -/
theorem rxringPush_conserves (r : RxRing cfg) (b : UInt8) :
    Conserves (rxringBytes r) [b] [] (rxringBytes ((rxringPush r b).getD r)) := by
  cases hp : rxringPush r b with
  | none => exact .drop b (Nat.le_refl _)
  | some r' =>
    rw [Option.getD_some]
    by_cases hlt : rxringUsed r + 1 < 2 ^ 16
    · rw [rxringPush_bytes hp hlt]
      exact .store b _
    · -- the indices meet, and the ring reads as empty
      refine .drop b ?_
      rw [length_rxringBytes, length_rxringBytes]
      have hr : r'.head = r.head + 1 ∧ r'.tail = r.tail := by
        rw [rxringPush] at hp
        split at hp
        · cases hp
        · obtain rfl := Option.some.inj hp
          exact ⟨rfl, rfl⟩
      have hhead := r.head.toNat_lt
      have htail := r.tail.toNat_lt
      simp only [rxringUsed, hr, UInt16.toNat_sub, UInt16.toNat_add, UInt16.toNat_one] at hlt ⊢
      omega

theorem atFeed_conserves (data : List UInt8) : ∀ (g : Engine cfg),
    Conserves (rxringBytes g.rx) data [] (rxringBytes (atFeed data g).rx) := by
  induction data with
  | nil => exact fun g => .refl _
  | cons b data ih =>
    intro g
    exact (rxringPush_conserves g.rx b).trans (ih { g with rx := (rxringPush g.rx b).getD g.rx })

/-! ## What a call takes and offers -/

/-- The lines of a log that were dispatched. -/
def dispatched (evs : List (Event cfg)) : List (List UInt8) :=
  evs.filterMap fun | .line _ l => some l | _ => none

/-- The bytes hooks fed. -/
def hookFed (evs : List (Event cfg)) : List UInt8 :=
  evs.flatMap fun | .nested _ (.feed data) _ => data | _ => []

theorem dispatched_append (as bs : List (Event cfg)) :
    dispatched (as ++ bs) = dispatched as ++ dispatched bs := List.filterMap_append

theorem hookFed_append (as bs : List (Event cfg)) :
    hookFed (as ++ bs) = hookFed as ++ hookFed bs := List.flatMap_append

/-- Hooks that do not call `at_reset`. -/
def NotResetting (_ : HookKind) (c : ApiCall) : Prop := c ≠ .reset

/-- From `w` to `w'` the lines `ls` were dispatched, and no byte was taken. -/
structure Beside (ls : List (List UInt8)) (w w' : World cfg σ) : Prop where
  framer : w'.eng.framer = w.eng.framer
  log : ∃ evs, w'.log = w.log ++ evs ∧ dispatched evs = ls ∧
    Conserves (rxringBytes w.eng.rx) (hookFed evs) [] (rxringBytes w'.eng.rx)

theorem Beside.trans {ls ls' : List (List UInt8)} {u v w : World cfg σ} (h : Beside ls u v)
    (h' : Beside ls' v w) : Beside (ls ++ ls') u w := by
  obtain ⟨evs, hlog, hls, hring⟩ := h.log
  obtain ⟨evs', hlog', hls', hring'⟩ := h'.log
  refine ⟨h'.framer.trans h.framer, evs ++ evs', ?_, ?_, ?_⟩
  · rw [hlog', hlog, List.append_assoc]
  · rw [dispatched_append, hls, hls']
  · rw [hookFed_append]
    exact hring.trans hring'

/-- What leaves the FSM and the ring alone. -/
theorem Beside.of_log {ls : List (List UInt8)} {w w' : World cfg σ} {evs : List (Event cfg)}
    (hlog : w'.log = w.log ++ evs) (hframer : w'.eng.framer = w.eng.framer)
    (hrx : w'.eng.rx = w.eng.rx) (hls : dispatched evs = ls) (hfed : hookFed evs = []) :
    Beside ls w w' := by
  refine ⟨hframer, evs, hlog, hls, ?_⟩
  rw [hfed, hrx]
  exact .refl _

/-- A pair of writes dispatches nothing and feeds nothing. -/
theorem SentPair.beside {hook : Bool} {site₁ site₂ : WriteSite} {data term : List UInt8} {b : Bool}
    {evs : List (Event cfg)} (h : SentPair hook site₁ site₂ data term b evs) :
    dispatched evs = [] ∧ hookFed evs = [] := by
  cases h with
  | shortData | shortTerm => exact ⟨rfl, rfl⟩
  | sent => cases hook <;> exact ⟨rfl, rfl⟩

theorem CmdEntry.notice_beside (e : CmdEntry cfg) (r : Response) :
    dispatched (e.notice r) = [] ∧ hookFed (e.notice r) = [] := by
  rw [CmdEntry.notice]
  split <;> exact ⟨rfl, rfl⟩

/-- **Whatever else a call does**, it dispatches a line once and leaves the FSM
alone, if nobody resets the engine. -/
theorem beside_handling :
    Handling NotResetting (Beside [] : World cfg σ → World cfg σ → Prop) fun l => Beside ([l].filter (· ≠ [])) where
  refl w := .of_log (List.append_nil _).symm rfl rfl rfl rfl
  trans := .trans
  app w s := .of_log (List.append_nil _).symm rfl rfl rfl rfl
  nested w k c _ hc := by
    refine .of_log rfl rfl rfl rfl ?_
    cases c with
    | feed data => exact absurd rfl (hc data)
    | _ => rfl
  feed w k data _ := by
    refine ⟨rfl, _, rfl, rfl, ?_⟩
    change Conserves _ (data ++ []) _ _
    rw [List.append_nil]
    exact atFeed_conserves data w.eng
  send w d g hd := by
    obtain ⟨-, -, rfl⟩ := atSend_ok hd
    exact .of_log rfl rfl rfl rfl rfl
  tick w n _ := .of_log (List.append_nil _).symm rfl rfl rfl rfl
  table w t := .of_log (List.append_nil _).symm rfl rfl rfl rfl
  finalize w s c := by
    obtain ⟨hls, hfed⟩ := (w.eng.queue w.eng.qTail).notice_beside (finalResponse s c w.eng)
    refine .of_log (World.fire_log _ _ _) ?_ ?_ hls hfed <;> rw [World.fire_eng] <;> rfl
  dequeue w i e := .of_log rfl rfl rfl rfl rfl
  drainNotify w e := by
    obtain ⟨hls, hfed⟩ := e.notice_beside abortedResponse
    refine .of_log (World.fire_log _ _ _) ?_ ?_ hls hfed
    all_goals rw [World.fire_eng]
  drainNext w e := .of_log rfl rfl rfl rfl rfl
  reset h := by
    obtain ⟨k, hk⟩ := h
    exact absurd rfl hk
  line_trans h h' := by
    have := h.trans h'
    rwa [List.append_nil] at this
  empty w := .of_log (List.append_nil _).symm rfl rfl rfl rfl
  echo w l hl := .of_log rfl rfl rfl (by simp [dispatched, hl]) rfl
  ignored w l hl := .of_log rfl rfl rfl (by simp [dispatched, hl]) rfl
  answered env w l hl := by
    obtain ⟨evs, hsent, hlog⟩ := answerPrompt_sent env (w.eng.queue w.eng.qTail)
      (w.emit (.line (.prompt true) l))
    obtain ⟨hls, hfed⟩ := hsent.beside
    refine .of_log (hlog.trans (List.append_assoc _ _ _)) ?_ ?_ ?_ ?_
    · rw [answerPrompt_eng]
      rfl
    · rw [answerPrompt_eng]
      rfl
    · rw [dispatched_append, hls]
      simp [dispatched, hl]
    · rw [hookFed_append, hfed]
      rfl
  final w l hl := .of_log rfl rfl rfl (by simp [dispatched, hl]) rfl
  urc w l i hl := .of_log (List.append_assoc _ _ _) rfl rfl (by simp [dispatched, hl]) rfl
  other w l hl := by
    obtain ⟨pool, response, heng⟩ := accumulate_eng l w
    refine .of_log (accumulate_log l w) ?_ ?_ (by simp [dispatched, hl]) rfl
    · rw [heng]
      rfl
    · rw [heng]
  transmit env w := by
    obtain ⟨evs, hsent, hlog⟩ := transmit_sent env w
    obtain ⟨hls, hfed⟩ := hsent.beside
    refine .of_log hlog ?_ ?_ hls hfed <;> rw [transmit_eng] <;> rfl

/-! ## The drain loop -/

/-- From `w` to `w'` the bytes `taken` came out of the ring, and the lines
dispatched are those of the machine. -/
structure Drained (taken : List UInt8) (w w' : World cfg σ) : Prop where
  framer : w'.eng.framer = (framer cfg).after w.eng.framer taken
  log : ∃ evs, w'.log = w.log ++ evs ∧
    dispatched evs = ((LibAt.framer cfg).output w.eng.framer taken).filter (· ≠ []) ∧
    Conserves (rxringBytes w.eng.rx) (hookFed evs) taken (rxringBytes w'.eng.rx)

theorem Drained.trans {taken taken' : List UInt8} {u v w : World cfg σ} (h : Drained taken u v)
    (h' : Drained taken' v w) : Drained (taken ++ taken') u w := by
  obtain ⟨evs, hlog, hls, hring⟩ := h.log
  obtain ⟨evs', hlog', hls', hring'⟩ := h'.log
  refine ⟨?_, evs ++ evs', ?_, ?_, ?_⟩
  · rw [h'.framer, h.framer, Transducer.after_append]
  · rw [hlog', hlog, List.append_assoc]
  · rw [dispatched_append, hls, hls', h.framer, Transducer.output_append, List.filter_append]
  · rw [hookFed_append]
    exact hring.trans hring'

theorem Beside.drained {w w' : World cfg σ} (h : Beside [] w w') : Drained [] w w' :=
  ⟨h.framer, h.log⟩

section

variable {invoke : Invocation → World cfg σ → Option (World cfg σ)} {env : Env σ}
  (hinv : InvokeKeeps (Beside []) invoke)

include hinv

/-- **One round** of the drain loop. -/
theorem round_drained {w w' : World cfg σ} {b : UInt8} {rx : RxRing cfg}
    (hpop : rxringPop w.eng.rx = some (b, rx))
    (h : processByte invoke env b (w.putEng { w.eng with rx := rx }) = some w') :
    Drained [b] w w' := by
  have hring : Conserves (rxringBytes w.eng.rx) [] [b] (rxringBytes rx) := by
    rw [rxringPop_bytes hpop]
    exact .take b _
  rw [processByte] at h
  rcases framer_step b (w.putEng { w.eng with rx := rx }).eng with
    ⟨g, hb, hstep, hrx⟩ | ⟨l, hb, hstep⟩ <;> rw [hb] at h
  · obtain rfl := Option.some.inj h
    have hstep' : (framer cfg).step w.eng.framer b = (g.framer, []) := hstep
    refine ⟨?_, [], (List.append_nil _).symm, ?_, ?_⟩
    · rw [Transducer.after_cons, hstep']
      rfl
    · rw [Transducer.output_cons, hstep']
      rfl
    · rw [World.putEng_eng, hrx]
      exact hring
  · obtain ⟨v, hd, rfl⟩ := Option.map_eq_some_iff.mp h
    have hstep' : (framer cfg).step w.eng.framer b = (⟨.start, []⟩, [l]) := hstep
    obtain ⟨evs, hlog, hls, hring'⟩ := (beside_handling.engineDispatchLine hinv hd).log
    refine ⟨?_, evs, hlog, ?_, hring.trans hring'⟩
    · rw [Transducer.after_cons, hstep']
      rfl
    · rw [Transducer.output_cons, hstep']
      exact hls

/-- The bytes the drain loop takes. -/
def drainTaken (invoke : Invocation → World cfg σ → Option (World cfg σ)) (env : Env σ) :
    Nat → World cfg σ → List UInt8
  | 0, _ => []
  | fuel + 1, w =>
    match rxringPop w.eng.rx with
    | none => []
    | some (b, rx) =>
      b :: (processByte invoke env b (w.putEng { w.eng with rx := rx })).elim []
        (drainTaken invoke env fuel)

theorem drainRx_drained {fuel : Nat} : ∀ {w w' : World cfg σ},
    drainRx invoke env fuel w = some w' → Drained (drainTaken invoke env fuel w) w w' := by
  induction fuel with
  | zero => intro w w' h; cases h
  | succ fuel ih =>
    intro w w' h
    rw [drainRx] at h
    rw [drainTaken]
    rcases hp : rxringPop w.eng.rx with _ | ⟨b, rx⟩ <;> rw [hp] at h
    · obtain rfl := Option.some.inj h
      exact (beside_handling.refl w).drained
    · obtain ⟨v, hb, h⟩ := Option.bind_eq_some_iff.mp h
      dsimp only
      rw [hb]
      exact (round_drained hinv hp hb).trans (ih h)

/-- **An `at_process`** takes the bytes its drain loop takes. -/
theorem atProcess_drained {fuel : Nat} {w w' : World cfg σ}
    (h : atProcess invoke env fuel w = some w') :
    Drained (drainTaken invoke env fuel w) w w' := by
  obtain ⟨v, hv, h⟩ := Option.bind_eq_some_iff.mp h
  have hrest : Drained [] v w' := (beside_handling.afterDrain hinv h).drained
  have hall := (drainRx_drained hinv hv).trans hrest
  rwa [List.append_nil] at hall

end

/-! ## Sessions -/

/-- The bytes a call takes out of the ring. -/
def takenBy (env : Env σ) (fuel : Nat) : TopCall → World cfg σ → List UInt8
  | .process, w => drainTaken (invoke env fuel) env fuel w
  | _, _ => []

/-- The bytes a call from `w` to `w'` offers to the ring: those it is given to
feed, or those that hooks feed meanwhile. -/
def offered (w w' : World cfg σ) : TopCall → List UInt8
  | .api (.feed data) => data
  | _ => hookFed (w'.log.drop w.log.length)

/-- A run in which nobody resets the engine, with the bytes it offers to the
ring and the bytes it takes out. Each call may meet a different environment. -/
inductive Session (w : World cfg σ) : List UInt8 → List UInt8 → World cfg σ → Prop
  /-- no call -/
  | nil : Session w [] [] w
  /-- one more call -/
  | call {fed taken} {v v' : World cfg σ} {env : Env σ} {fuel : Nat} {c : TopCall} {r : ApiRet}
      (s : σ) : Session w fed taken v → env.Respects NotResetting → c ≠ .api .reset → c ≠ .deinit →
      exec env fuel c (v.putApp s) = some (r, v') →
      Session w (fed ++ offered v v' c) (taken ++ takenBy env fuel c (v.putApp s)) v'

/-- Several calls in one environment, with the bytes offered and taken. -/
def sessionRun (env : Env σ) (fuel : Nat) :
    List TopCall → World cfg σ → Option ((List UInt8 × List UInt8) × World cfg σ)
  | [], w => some (([], []), w)
  | c :: cs, w => (exec env fuel c w).bind fun r =>
    (sessionRun env fuel cs r.2).map fun q =>
      ((offered w r.2 c ++ q.1.1, takenBy env fuel c w ++ q.1.2), q.2)

/-- A session that can be computed. -/
theorem Session.of_run {env : Env σ} (henv : env.Respects NotResetting) {fuel : Nat}
    {cs : List TopCall} (hcs : ∀ c ∈ cs, c ≠ .api .reset ∧ c ≠ .deinit) :
    ∀ {w v v' : World cfg σ} {fed taken fed' taken' : List UInt8}, Session w fed taken v →
      sessionRun env fuel cs v = some ((fed', taken'), v') →
      Session w (fed ++ fed') (taken ++ taken') v' := by
  induction cs with
  | nil =>
    intro w v v' fed taken fed' taken' h hrun
    obtain ⟨hbytes, rfl⟩ := Prod.mk.inj (Option.some.inj hrun)
    obtain ⟨rfl, rfl⟩ := Prod.mk.inj hbytes
    rwa [List.append_nil, List.append_nil]
  | cons c cs ih =>
    intro w v v' fed taken fed' taken' h hrun
    obtain ⟨hc, hcs⟩ := List.forall_mem_cons.mp hcs
    obtain ⟨⟨r, u⟩, hx, hrun⟩ := Option.bind_eq_some_iff.mp hrun
    obtain ⟨⟨⟨fed₁, taken₁⟩, u'⟩, hrest, heq⟩ := Option.map_eq_some_iff.mp hrun
    obtain ⟨hbytes, rfl⟩ := Prod.mk.inj heq
    obtain ⟨rfl, rfl⟩ := Prod.mk.inj hbytes
    rw [← List.append_assoc, ← List.append_assoc]
    exact ih hcs (h.call v.app henv hc.1 hc.2 hx) hrest

/-- From `w` to `w'` the bytes `fed` were offered to the ring and `taken` came
out of it, and the lines dispatched are those of the machine. -/
structure Took (fed taken : List UInt8) (w w' : World cfg σ) : Prop where
  framer : w'.eng.framer = (framer cfg).after w.eng.framer taken
  ring : Conserves (rxringBytes w.eng.rx) fed taken (rxringBytes w'.eng.rx)
  log : ∃ evs, w'.log = w.log ++ evs ∧
    dispatched evs = ((LibAt.framer cfg).output w.eng.framer taken).filter (· ≠ [])

theorem Took.trans {fed fed' taken taken' : List UInt8} {u v w : World cfg σ}
    (h : Took fed taken u v) (h' : Took fed' taken' v w) :
    Took (fed ++ fed') (taken ++ taken') u w := by
  obtain ⟨evs, hlog, hls⟩ := h.log
  obtain ⟨evs', hlog', hls'⟩ := h'.log
  refine ⟨?_, h.ring.trans h'.ring, evs ++ evs', ?_, ?_⟩
  · rw [h'.framer, h.framer, Transducer.after_append]
  · rw [hlog', hlog, List.append_assoc]
  · rw [dispatched_append, hls, hls', h.framer, Transducer.output_append, List.filter_append]

theorem Drained.took {taken : List UInt8} {w w' : World cfg σ} (h : Drained taken w w') :
    Took (hookFed (w'.log.drop w.log.length)) taken w w' := by
  obtain ⟨evs, hlog, hls, hring⟩ := h.log
  refine ⟨h.framer, ?_, evs, hlog, hls⟩
  rwa [hlog, List.drop_left]

/-- **A call.** -/
theorem exec_took {env : Env σ} (henv : env.Respects NotResetting) {fuel : Nat} {c : TopCall}
    {r : ApiRet} {w w' : World cfg σ} (hreset : c ≠ .api .reset) (hdeinit : c ≠ .deinit)
    (h : exec env fuel c w = some (r, w')) : Took (offered w w' c) (takenBy env fuel c w) w w' := by
  have hinv : InvokeKeeps (Beside []) (fun inv (w : World cfg σ) => invoke env fuel inv w) :=
    beside_handling.hooks henv fuel
  cases c with
  | process =>
    obtain ⟨w₁, h₁, hret⟩ := Option.map_eq_some_iff.mp h
    obtain ⟨-, rfl⟩ := Prod.mk.inj hret
    exact (atProcess_drained hinv h₁).took
  | setTraceHook hook =>
    obtain ⟨-, rfl⟩ := Prod.mk.inj (Option.some.inj h)
    have hbeside : Beside [] w (w.putEng { w.eng with traceHook := hook }) :=
      .of_log (List.append_nil _).symm rfl rfl rfl rfl
    exact hbeside.drained.took
  | deinit => exact absurd rfl hdeinit
  | api c =>
    by_cases hfeed : ∃ data, c = .feed data
    · obtain ⟨data, rfl⟩ := hfeed
      obtain ⟨-, rfl⟩ := Prod.mk.inj (Option.some.inj h)
      exact ⟨rfl, atFeed_conserves data w.eng, [], (List.append_nil _).symm, rfl⟩
    · have hno (data : List UInt8) : c ≠ .feed data := fun he => hfeed ⟨data, he⟩
      have hbeside : Beside [] w w' :=
        beside_handling.apiCall hinv hno (fun he => absurd (congrArg TopCall.api he) hreset) h
      have htook := hbeside.drained.took
      cases c with
      | feed data => exact absurd rfl (hno data)
      | _ => exact htook

/-- **A session** hands over the lines of the machine, and the ring conserves
the bytes. -/
theorem Session.took {w w' : World cfg σ} {fed taken : List UInt8} (h : Session w fed taken w') :
    Took fed taken w w' := by
  induction h with
  | nil => exact ⟨rfl, .refl _, [], (List.append_nil _).symm, rfl⟩
  | @call fed taken v v' env fuel c r s _ henv hreset hdeinit hx ih =>
    have hcall : Took (offered v v' c) (takenBy env fuel c (v.putApp s)) v v' := by
      have hput := exec_took henv hreset hdeinit hx
      exact ⟨hput.framer, hput.ring, hput.log⟩
    exact ih.trans hcall

/-- **Line framing.** A session takes bytes and empties the ring, and drops none
of those offered. If they are any garbage up to an LF, and then framed lines, what
it dispatches behind the garbage is each line once, in order, cut to its first
`AT_CFG_LINE_MAX - 1` bytes. No line that it dispatches is empty, and all of them leave
room for the terminator in the line buffer, as the line that was begun before does. -/
theorem line_framing {w w' : World cfg σ} {fed taken garbage : List UInt8} {ps : List Framed}
    (h : Session w fed taken w') (hempty : rxringBytes w'.eng.rx = [])
    (hkept : taken.length + rxringUsed w'.eng.rx = rxringUsed w.eng.rx + fed.length)
    (hbytes : rxringBytes w.eng.rx ++ fed = garbage ++ 10 :: ps.flatMap Framed.bytes) :
    ∃ evs, w'.log = w.log ++ evs ∧
      dispatched evs =
        ((framer cfg).output w.eng.framer (garbage ++ [10])).filter (· ≠ []) ++
          ps.map (fun p => p.text.take (cfg.lineMax - 1)) ∧
      (w.eng.line.length < cfg.lineMax →
        ∀ l ∈ dispatched evs, 0 < l.length ∧ l.length < cfg.lineMax) := by
  have hline := cfg.line_ge
  have htook := h.took
  have htaken : taken = garbage ++ [10] ++ ps.flatMap Framed.bytes := by
    have heq := htook.ring.eq (by simpa using hkept)
    rw [hempty, List.append_nil] at heq
    rw [heq, hbytes, List.append_assoc, List.singleton_append]
  obtain ⟨evs, hlog, hls⟩ := htook.log
  refine ⟨evs, hlog, ?_, fun hroom l hl => ?_⟩
  · rw [hls, htaken, Transducer.output_append, List.filter_append,
      framer_lines cfg ps (after_lf cfg _ garbage)]
    congr 1
    -- a framed line is not empty, and neither is what is kept of it
    refine List.filter_eq_self.mpr fun l hl => ?_
    obtain ⟨p, -, rfl⟩ := List.mem_map.mp hl
    simpa using cut_ne_nil p.text_line.ne_nil
  · rw [hls] at hl
    obtain ⟨hmem, hne⟩ := List.mem_filter.mp hl
    have hfits := framer_fits cfg (Nat.le_sub_one_of_lt hroom) taken l hmem
    exact ⟨List.length_pos_of_ne_nil (of_decide_eq_true hne), by omega⟩

/-- A line with CR LF and, behind a blank line, one with LF alone. -/
def twoLines : List Framed :=
  [⟨[], ascii "A", true, by simp, ⟨by decide, by decide, by decide⟩⟩,
    ⟨[13, 10], ascii "B", false, by simp, ⟨by decide, by decide, by decide⟩⟩]

/-- They come behind garbage, and are cut inside the first. -/
theorem line_framing_twoLines : ∃ (fed taken : List UInt8) (w : World Config.default Unit),
    Session ⟨atInit _, (), []⟩ fed taken w ∧
      fed = ascii "x" ++ 10 :: twoLines.flatMap Framed.bytes ∧ rxringBytes w.eng.rx = [] ∧
      dispatched w.log = [ascii "x", ascii "A", ascii "B"] ∧
      ∀ l ∈ dispatched w.log, 0 < l.length ∧ l.length < 320 := by
  let w₀ : World Config.default Unit := ⟨atInit _, (), []⟩
  have hrun : (sessionRun plainEnv 16
      [.api (.feed (ascii "x\n")), .process, .api (.feed (ascii "A\r")), .process,
        .api (.feed (ascii "\n\r\nB\n")), .process] w₀).any (fun q =>
      decide (q.1.2.length + rxringUsed q.2.eng.rx = rxringUsed w₀.eng.rx + q.1.1.length ∧
        rxringBytes q.2.eng.rx = [] ∧
        q.1.1 = ascii "x" ++ 10 :: twoLines.flatMap Framed.bytes)) = true := by
    decide +kernel
  obtain ⟨⟨⟨fed, taken⟩, w⟩, hw, hp⟩ := (Option.any_eq_true _ _).mp hrun
  obtain ⟨hkept, hempty, hfed⟩ := of_decide_eq_true hp
  have hsession : Session w₀ fed taken w :=
    Session.of_run (plainEnv_respects _) (by decide) .nil hw
  have hring : rxringBytes w₀.eng.rx = [] := by decide +kernel
  obtain ⟨evs, hlog, hls, hfits⟩ := line_framing hsession hempty hkept (by rw [hring]; exact hfed)
  obtain rfl : w.log = evs := hlog
  exact ⟨fed, taken, w, hsession, hfed, hempty, hls.trans (by decide +kernel), hfits (by decide)⟩

end LibAt
