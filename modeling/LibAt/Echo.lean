import LibAt.Oblivious
import LibAt.OwnAnswer
import LibAt.Upkeep

/-!
# With and without echo

A modem with its echo on sends a command back before it answers. Taken line by
line (`consume_transcript`, `consume_echoed`), the two runs differ by the one
line that is the echo: where it is recognised, it disarms the echo test and
leaves a log entry, and an engine that is disarmed does what an armed one does
until a line comes that begins with the command (`takeLines_adapt`). This holds
whatever hooks call (`echo_transparent`); all that is used of them is that they
are oblivious and settle (`Settled`).
-/

namespace LibAt

variable {cfg : Config} {σ : Type}

/-! ## What hooks leave alone -/

/-- The state is what it was or idle, and the copy of the echo is the same. -/
structure Settled (g g' : Engine cfg) : Prop where
  state : g'.state = g.state ∨ g'.state = .idle
  expect : g'.echoExpect = g.echoExpect
  len : g'.echoLen = g.echoLen

theorem Settled.refl (g : Engine cfg) : Settled g g := ⟨.inl rfl, rfl, rfl⟩

theorem Settled.trans {g₁ g₂ g₃ : Engine cfg} (h : Settled g₁ g₂) (h' : Settled g₂ g₃) :
    Settled g₁ g₃ where
  state := h'.state.elim (fun hs => hs ▸ h.state) .inr
  expect := h'.expect.trans h.expect
  len := h'.len.trans h.len

/-- Foreign code settles. -/
abbrev Settles (invoke : Invocation → World cfg σ → Option (World cfg σ)) : Prop :=
  ∀ {inv w w'}, invoke inv w = some w' → Settled w.eng w'.eng

section

variable {invoke : Invocation → World cfg σ → Option (World cfg σ)} {env : Env σ}
  {w w' : World cfg σ}

/-- Nothing outside the drain loop waits for an answer or makes a copy of the echo. -/
theorem settled_upkeep :
    Upkeep (fun _ _ => True) fun w w' : World cfg σ => Settled w.eng w'.eng where
  refl w := .refl w.eng
  trans := .trans
  app _ _ := .refl _
  nested _ _ _ _ _ := .refl _
  feed _ _ _ _ := ⟨.inl rfl, rfl, rfl⟩
  send w d g hd := by
    obtain ⟨-, -, rfl⟩ := atSend_ok hd
    exact ⟨.inl rfl, rfl, rfl⟩
  tick _ _ _ := ⟨.inl rfl, rfl, rfl⟩
  table _ _ := ⟨.inl rfl, rfl, rfl⟩
  finalize w s c := by
    rw [World.fire_eng]
    exact ⟨.inl rfl, rfl, rfl⟩
  dequeue _ _ _ := ⟨.inr rfl, rfl, rfl⟩
  drainNotify w e := by
    rw [World.fire_eng]
    exact .refl _
  drainNext _ _ := ⟨.inl rfl, rfl, rfl⟩
  reset _ _ := ⟨.inr rfl, rfl, rfl⟩

theorem engineFinalize_settled (hinv : Settles invoke) {s : AtResult} {c : Int}
    (h : engineFinalize invoke s c w = some w') : Settled w.eng w'.eng :=
  settled_upkeep.engineFinalize (fun _ _ _ => hinv) h

/-- **Hooks settle**, however deep they nest. -/
theorem invoke_settles (env : Env σ) (n : Nat) :
    Settles fun inv (w : World cfg σ) => LibAt.invoke env n inv w := by
  intro inv w w' h
  exact settled_upkeep.hooks env.respects_true n inv w w' h

/-- A line settles too, and completes the command that is waited for if it is a
final result and not the echo. -/
theorem engineDispatchLine_settled (hinv : Settles invoke) {l : List UInt8}
    (h : engineDispatchLine invoke env l w = some w') : Settled w.eng w'.eng ∧
      (l ≠ [] → isEcho w.eng l = false → w.eng.state = .waiting → engineIsFinal l ≠ none →
        w'.eng.state = .idle) := by
  rw [engineDispatchLine] at h
  by_cases h0 : l.length = 0
  · rw [if_pos h0] at h
    obtain rfl := Option.some.inj h
    exact ⟨.refl _, fun hne => absurd (List.length_eq_zero_iff.mp h0) hne⟩
  rw [if_neg h0] at h
  cases he : isEcho w.eng l with
  | true =>
    rw [if_pos he] at h
    obtain rfl := Option.some.inj h
    exact ⟨⟨.inl rfl, rfl, rfl⟩, fun _ hne => by cases hne⟩
  | false =>
  rw [if_neg (by simp [he])] at h
  cases hp : isPrompt w.eng l with
  | true =>
    refine ⟨?_, fun _ _ _ hf => absurd (engineIsFinal_prompt (isPrompt_begins hp)) hf⟩
    rw [if_pos hp] at h
    dsimp only at h
    split at h
    · have heng := answerPrompt_eng env (w.eng.queue w.eng.qTail) (w.emit (.line (.prompt true) l))
      rcases ha : answerPrompt env (w.eng.queue w.eng.qTail) (w.emit (.line (.prompt true) l)) with
        ⟨_ | _, w₁⟩ <;> rw [ha] at h heng
      · obtain ⟨-, hexpect, hlen⟩ := engineFinalize_settled hinv h
        rw [heng] at hexpect hlen
        exact ⟨.inr (engineFinalize_idle h), hexpect, hlen⟩
      · obtain rfl := Option.some.inj h
        exact heng ▸ ⟨.inl (isPrompt_waiting hp).symm, rfl, rfl⟩
    · obtain rfl := Option.some.inj h
      exact .refl _
  | false =>
  rw [if_neg (by simp [hp])] at h
  cases hf : if w.eng.state = .waiting then engineIsFinal l else none with
  | some r =>
    rw [hf] at h
    have hidle := engineFinalize_idle h
    obtain ⟨-, hexpect, hlen⟩ := engineFinalize_settled hinv h
    exact ⟨⟨.inr hidle, hexpect, hlen⟩, fun _ _ _ _ => hidle⟩
  | none =>
    rw [hf] at h
    refine ⟨?_, fun _ _ hs hfin => absurd ((if_pos hs).symm.trans hf) hfin⟩
    obtain ⟨⟨taken, u⟩, hu, rfl⟩ := Option.map_eq_some_iff.mp h
    obtain ⟨m, -, hu⟩ := Option.bind_eq_some_iff.mp hu
    cases m with
    | none =>
      obtain ⟨rfl, rfl⟩ := Prod.mk.inj (Option.some.inj hu)
      obtain ⟨pool, response, heng⟩ := accumulate_eng l w
      rw [if_neg (by simp), heng]
      exact ⟨.inl rfl, rfl, rfl⟩
    | some i =>
      obtain ⟨u₁, hhandler, hret⟩ := Option.bind_eq_some_iff.mp hu
      obtain ⟨rfl, rfl⟩ := Prod.mk.inj (Option.some.inj hret)
      exact hinv (w := (w.emit _).emit _) hhandler

end

/-! ## Lines of a transcript -/

/-- What the line buffer keeps of a line. -/
def cut (cfg : Config) (l : List UInt8) : List UInt8 := l.take (cfg.lineMax - 1)

/-- A line of a transcript: not empty, and without CR and LF. -/
structure ModemLine (l : List UInt8) : Prop where
  ne_nil : l ≠ []
  cr : (13 : UInt8) ∉ l
  lf : (10 : UInt8) ∉ l

/-- Lines as a modem sends them, each between CR LF and CR LF. -/
def transcript (lines : List (List UInt8)) : List UInt8 :=
  lines.flatMap fun l => 13 :: 10 :: (l ++ [13, 10])

theorem transcript_cons (l : List UInt8) (ls : List (List UInt8)) :
    transcript (l :: ls) = 13 :: 10 :: (l ++ [13, 10] ++ transcript ls) := rfl

theorem cut_ne_nil {l : List UInt8} (h : l ≠ []) : cut cfg l ≠ [] := by
  have hline := cfg.line_ge
  rw [cut, Ne, List.take_eq_nil_iff]
  exact not_or.mpr ⟨by omega, h⟩

theorem pushLine_cut (l : List UInt8) (b : UInt8) :
    pushLine cfg (cut cfg l) b = cut cfg (l ++ [b]) := by
  rw [pushLine, cut, cut, List.length_take]
  by_cases h : l.length < cfg.lineMax - 1
  · rw [if_pos (by omega), List.take_of_length_le (by omega), List.take_of_length_le]
    rw [List.length_append, List.length_singleton]
    omega
  · rw [if_neg (by omega), List.take_append_of_le_length (by omega)]

section

variable (invoke : Invocation → World cfg σ → Option (World cfg σ)) (env : Env σ)

/-- A line is dispatched, out of the FSM state its last byte was taken in. -/
def takeLine (s : LineFsm) (l : List UInt8) (w : World cfg σ) : Option (World cfg σ) :=
  (engineDispatchLine invoke env l (w.putEng { w.eng with line := l, lfsm := s })).map lineDone

/-- Lines with CR LF behind them are dispatched. -/
def takeLines : List (List UInt8) → World cfg σ → Option (World cfg σ)
  | [], w => some w
  | l :: ls, w => (takeLine invoke env .cr (cut cfg l) w).bind (takeLines ls)

variable {invoke env} {w : World cfg σ} {l : List UInt8}

theorem takeLines_append (as bs : List (List UInt8)) (w : World cfg σ) :
    takeLines invoke env (as ++ bs) w =
      (takeLines invoke env as w).bind (takeLines invoke env bs) := by
  induction as generalizing w with
  | nil => rfl
  | cons a as ih =>
    rw [List.cons_append, takeLines, takeLines, Option.bind_assoc]
    exact Option.bind_congr fun w' _ => ih w'

/-- Bytes inside a line are added to it. -/
theorem consume_data (hcr : (13 : UInt8) ∉ l) (hlf : (10 : UInt8) ∉ l) (a : List UInt8) :
    consume invoke env l (w.putEng { w.eng with line := cut cfg a, lfsm := .data }) =
      some (w.putEng { w.eng with line := cut cfg (a ++ l), lfsm := .data }) := by
  induction l generalizing a with
  | nil =>
    rw [List.append_nil]
    rfl
  | cons b l ih =>
    rw [List.mem_cons, not_or] at hcr hlf
    have hb : lfsmByte b { w.eng with line := cut cfg a, lfsm := .data } =
        .more { w.eng with line := cut cfg (a ++ [b]), lfsm := .data } := by
      simp only [lfsmByte, if_neg (Ne.symm hcr.1), if_neg (Ne.symm hlf.1), pushLine_cut]
    rw [consume, processByte, World.putEng_eng, hb, Option.bind_some]
    refine (ih hcr.2 hlf.2 (a ++ [b])).trans ?_
    rw [List.append_assoc, List.singleton_append]

/-- The bytes of a line up to its CR. -/
theorem consume_text (hl : ModemLine l) (hs : w.eng.lfsm = .start) :
    consume invoke env (l ++ [13]) w =
      some (w.putEng { w.eng with line := cut cfg l, lfsm := .cr }) := by
  match l, hl with
  | [], hl => exact absurd rfl hl.ne_nil
  | b :: l, ⟨_, hcr, hlf⟩ =>
    rw [List.mem_cons, not_or] at hcr hlf
    have hline := cfg.line_ge
    have hone : [b] = cut cfg [b] := (List.take_of_length_le (by rw [List.length_singleton]; omega)).symm
    have hb : lfsmByte b w.eng = .more { w.eng with line := cut cfg [b], lfsm := .data } := by
      rw [← hone]
      simp only [lfsmByte, hs, if_neg (not_or.mpr ⟨Ne.symm hcr.1, Ne.symm hlf.1⟩)]
    rw [List.cons_append, consume, processByte, hb, Option.bind_some, consume_append,
      consume_data hcr.2 hlf.2]
    rfl

/-- **A line and its CR LF** dispatch what the line buffer keeps of it. -/
theorem consume_line (hl : ModemLine l) (hs : w.eng.lfsm = .start) :
    consume invoke env (l ++ [13, 10]) w = takeLine invoke env .cr (cut cfg l) w := by
  rw [show l ++ [13, 10] = l ++ [13] ++ [10] by simp, consume_append, consume_text hl hs,
    Option.bind_some, consume, processByte]
  exact Option.bind_fun_some _

/-- CR LF between lines is skipped. -/
theorem consume_crlf (hs : w.eng.lfsm = .start) (bs : List UInt8) :
    consume invoke env (13 :: 10 :: bs) w = consume invoke env bs w := by
  have hb (b : UInt8) (h : b = 13 ∨ b = 10) : processByte invoke env b w = some w := by
    simp only [processByte, lfsmByte, hs, if_pos h]
    rfl
  rw [consume, hb 13 (.inl rfl), Option.bind_some, consume, hb 10 (.inr rfl), Option.bind_some]

theorem takeLine_start {s : LineFsm} {w' : World cfg σ} (h : takeLine invoke env s l w = some w') :
    w'.eng.lfsm = .start := by
  obtain ⟨w₁, -, rfl⟩ := Option.map_eq_some_iff.mp h
  rfl

theorem consume_lines {ls : List (List UInt8)} (hl : ModemLine l) (hs : w.eng.lfsm = .start)
    (hls : ∀ {w' : World cfg σ}, w'.eng.lfsm = .start →
      consume invoke env (transcript ls) w' = takeLines invoke env ls w') :
    consume invoke env (l ++ [13, 10] ++ transcript ls) w = takeLines invoke env (l :: ls) w := by
  rw [consume_append, consume_line hl hs, takeLines]
  cases h : takeLine invoke env .cr (cut cfg l) w with
  | none => rfl
  | some w' => exact hls (takeLine_start h)

/-- **A transcript** is taken line by line. -/
theorem consume_transcript {ls : List (List UInt8)} (hls : ∀ l ∈ ls, ModemLine l) :
    ∀ {w : World cfg σ}, w.eng.lfsm = .start →
      consume invoke env (transcript ls) w = takeLines invoke env ls w := by
  induction ls with
  | nil => exact fun _ => rfl
  | cons l ls ih =>
    intro w hs
    obtain ⟨hl, hls⟩ := List.forall_mem_cons.mp hls
    rw [transcript_cons, consume_crlf hs]
    exact consume_lines hl hs (ih hls)

/-- **Behind an echo** the CR LF in front of the first line is taken for the end
of the echo, with the CR of the echo inside it. -/
theorem consume_echoed {c : List UInt8} (hc : ModemLine c) {ls : List (List UInt8)}
    (hls : ∀ m ∈ l :: ls, ModemLine m) (hs : w.eng.lfsm = .start) :
    consume invoke env (c ++ 13 :: transcript (l :: ls)) w =
      (takeLine invoke env .data (cut cfg (c ++ [13])) w).bind (takeLines invoke env (l :: ls)) := by
  obtain ⟨hl, hls⟩ := List.forall_mem_cons.mp hls
  rw [transcript_cons, show c ++ 13 :: 13 :: 10 :: (l ++ [13, 10] ++ transcript ls) =
      c ++ [13] ++ 13 :: 10 :: (l ++ [13, 10] ++ transcript ls) by simp,
    consume_append, consume_text hc hs, Option.bind_some]
  have hcr : processByte invoke env 13 (w.putEng { w.eng with line := cut cfg c, lfsm := .cr }) =
      some (w.putEng { w.eng with line := cut cfg (c ++ [13]), lfsm := .data }) := by
    rw [← pushLine_cut]
    rfl
  rw [consume, hcr, Option.bind_some, consume]
  have hlf : processByte invoke env 10
      (w.putEng { w.eng with line := cut cfg (c ++ [13]), lfsm := .data }) =
        takeLine invoke env .data (cut cfg (c ++ [13])) w := rfl
  rw [hlf]
  cases h : takeLine invoke env .data (cut cfg (c ++ [13])) w with
  | none => rfl
  | some w' => exact consume_lines hl (takeLine_start h) (consume_transcript hls)

end

/-! ## Two runs -/

/-- What the application sees of a run: completion callbacks and handler calls. -/
def reports (evs : List (Event cfg)) : List (Event cfg) :=
  evs.filter fun | .fired .. | .urc .. => true | _ => false

theorem reports_append (as bs : List (Event cfg)) :
    reports (as ++ bs) = reports as ++ reports bs := List.filter_append ..

theorem reports_eq_nil {evs : List (Event cfg)} (h : ∀ ev ∈ evs, reports [ev] = []) :
    reports evs = [] := by
  induction evs with
  | nil => rfl
  | cons ev evs ih =>
    obtain ⟨hev, hevs⟩ := List.forall_mem_cons.mp h
    rw [← List.singleton_append, reports_append, hev, ih hevs, List.append_nil]

/-- An `at_process` has just transmitted the command `c`, and the line buffer is
empty. -/
structure JustSent (c : List UInt8) (w : World cfg σ) : Prop where
  sent : ∃ (env : Env σ) (fuel : Nat) (s : σ) (w₁ w₂ w₃ : World cfg σ),
    Reachable (fun _ _ => True) w₁ ∧
      drainRx (invoke env fuel) env fuel (w₁.putApp s) = some w₂ ∧
      checkTimeout (invoke env fuel) w₂ = some w₃ ∧
      w₃.eng.state = .idle ∧ 0 < w₃.eng.qCount ∧
      (w₃.eng.queue w₃.eng.qTail).cmd.bytes = c ∧ transmit env w₃ = (true, w)
  lfsm : w.eng.lfsm = .start

/-- With nothing to read, an idle engine sends its next command. -/
theorem JustSent.of_idle {env : Env σ} {w : World cfg σ} (hreach : Reachable (fun _ _ => True) w)
    (hempty : rxringEmpty w.eng.rx = true) (hidle : w.eng.state = .idle) (hcount : 0 < w.eng.qCount)
    (hlfsm : w.eng.lfsm = .start) (hsent : (transmit env w).1 = true) :
    JustSent (w.eng.queue w.eng.qTail).cmd.bytes (transmit env w).2 := by
  have hdrain : drainRx (invoke env 1) env 1 (w.putApp w.app) = some w := by
    rw [drainRx, World.putApp_eng, rxringPop, if_pos hempty]
    rfl
  have htimeout : checkTimeout (invoke env 1) w = some w := if_neg (by simp [hidle])
  refine ⟨⟨env, 1, w.app, w, w, w, hreach, hdrain, htimeout, hidle, hcount, rfl, ?_⟩, ?_⟩
  · exact Prod.ext hsent rfl
  · rw [transmit_eng]
    exact hlfsm

/-- The application cannot tell whether the modem sends the command `c` back
before it answers with `lines`. -/
def EchoTransparent (cfg : Config) (c : List UInt8) (lines : List (List UInt8)) : Prop :=
  ∀ {σ : Type} (env : Env σ) (n : Nat) (w : World cfg σ) (s : σ), JustSent c w →
    (consume (invoke env n) env (c ++ 13 :: transcript lines) (w.putApp s)).map (reports ·.log) =
      (consume (invoke env n) env (transcript lines) (w.putApp s)).map (reports ·.log)

/-- No line begins with the command, as far as the first final result. -/
def Unmistakable (cfg : Config) (c : List UInt8) : List (List UInt8) → Prop
  | [] => True
  | l :: ls =>
    ¬c <+: cut cfg l ∧ (engineIsFinal (cut cfg l) = none → Unmistakable cfg c ls)

instance decidableUnmistakable (c : List UInt8) :
    (lines : List (List UInt8)) → Decidable (Unmistakable cfg c lines)
  | [] => .isTrue trivial
  | l :: ls =>
    have := decidableUnmistakable c ls
    inferInstanceAs (Decidable (¬c <+: cut cfg l ∧
      (engineIsFinal (cut cfg l) = none → Unmistakable cfg c ls)))

/-- The copy of the echo is that of `c`. -/
structure Expects (c : List UInt8) (g : Engine cfg) : Prop where
  expect : g.echoExpect.bytes = c
  len : g.echoLen = c.length

section

variable {invoke : Invocation → World cfg σ → Option (World cfg σ)} {env : Env σ}
  {c l : List UInt8} {g : Engine cfg} {w w' : World cfg σ}

theorem Expects.isEcho_iff (h : Expects c g) (h0 : (0 : UInt8) ∉ c) :
    isEcho g l = true ↔
      cfg.echoCancel = true ∧ g.echoArmed = true ∧ g.state = .waiting ∧ c <+: l := by
  have hpre : c <+: cstr l ↔ c <+: l := by
    constructor
    · exact fun hp => hp.trans (List.takeWhile_prefix _)
    · rintro ⟨t, rfl⟩
      rw [cstr_append h0]
      exact List.prefix_append c _
  rw [isEcho, h.expect, h.len, Bool.and_eq_true, Bool.and_eq_true, Bool.and_eq_true, beq_iff_eq,
    strncmpEq_length_iff h0, hpre, and_assoc, and_assoc]

theorem takeLine_adapt {u : Engine cfg → Engine cfg} {past : List (Event cfg)} (hu : InertByte u)
    (hinv : Oblivious invoke u past) {s : LineFsm} (hecho : isEcho (u w.eng) l = isEcho w.eng l) :
    takeLine invoke env s l (w.adapt u past) =
      (takeLine invoke env s l w).map (World.adapt u past) := by
  have hput : (w.adapt u past).putEng { u w.eng with line := l, lfsm := s } =
      (w.putEng { w.eng with line := l, lfsm := s }).adapt u past :=
    w.putEng_adapt past (hu.setLine _ _ _)
  have hecho' : isEcho (u { w.eng with line := l, lfsm := s }) l =
      isEcho { w.eng with line := l, lfsm := s } l := by
    rw [hu.setLine]
    exact hecho
  rw [takeLine, takeLine, World.adapt_eng, hput, engineDispatchLine_adapt hu.toInert hinv hecho',
    Option.map_map, Option.map_map]
  exact Option.map_congr fun v _ => lineDone_adapt hu v

/-- **Lines do not notice an inert change**, as long as the echo test does not. -/
theorem takeLines_adapt {u : Engine cfg → Engine cfg} {past : List (Event cfg)} (hu : InertByte u)
    (hinv : Oblivious invoke u past) {I : List (List UInt8) → Engine cfg → Prop}
    (hecho : ∀ l ls g, I (l :: ls) g → isEcho (u g) (cut cfg l) = isEcho g (cut cfg l))
    (hline : ∀ l ls (w w' : World cfg σ), I (l :: ls) w.eng →
      takeLine invoke env .cr (cut cfg l) w = some w' → I ls w'.eng) (ls : List (List UInt8)) :
    ∀ {w : World cfg σ}, I ls w.eng → takeLines invoke env ls (w.adapt u past) =
      (takeLines invoke env ls w).map (World.adapt u past) := by
  induction ls with
  | nil => exact fun _ => rfl
  | cons l ls ih =>
    intro w hI
    rw [takeLines, takeLines, takeLine_adapt hu hinv (hecho l ls _ hI), Option.bind_map,
      Option.map_bind]
    exact Option.bind_congr fun w' hw' => ih (hline l ls w w' hI hw')

theorem takeLine_settled (hinv : Settles invoke) {s : LineFsm}
    (h : takeLine invoke env s l w = some w') : Settled w.eng w'.eng ∧
      (l ≠ [] → isEcho w.eng l = false → w.eng.state = .waiting → engineIsFinal l ≠ none →
        w'.eng.state = .idle) := by
  obtain ⟨v, hv, rfl⟩ := Option.map_eq_some_iff.mp h
  obtain ⟨⟨hs, hexpect, hlen⟩, hfinal⟩ := engineDispatchLine_settled hinv hv
  exact ⟨⟨hs, hexpect, hlen⟩, hfinal⟩

/-- The engine listens to the echo of `c`, and the lines that are left hold
nothing that it could take for it. -/
structure Unmistaking (c : List UInt8) (ls : List (List UInt8)) (g : Engine cfg) : Prop where
  expects : Expects c g
  waiting : g.state = .waiting → Unmistakable cfg c ls

theorem Unmistaking.isEcho_eq (h : Unmistaking c (l :: ls) g) (h0 : (0 : UInt8) ∉ c) :
    isEcho g (cut cfg l) = false := by
  rw [Bool.eq_false_iff, Ne, h.expects.isEcho_iff h0]
  rintro ⟨-, -, hs, hpre⟩
  exact (h.waiting hs).1 hpre

theorem Unmistaking.takeLine (hinv : Settles invoke) (h0 : (0 : UInt8) ∉ c) (hl : l ≠ [])
    (h : Unmistaking c (l :: ls) w.eng) (hw : takeLine invoke env .cr (cut cfg l) w = some w') :
    Unmistaking c ls w'.eng := by
  obtain ⟨⟨hs, hexpect, hlen⟩, hfinal⟩ := takeLine_settled hinv hw
  refine ⟨⟨hexpect ▸ h.expects.expect, hlen.trans h.expects.len⟩, fun hs' => ?_⟩
  have hwait : w.eng.state = .waiting := by
    rcases hs with hs | hs
    · exact hs.symm.trans hs'
    · rw [hs] at hs'
      cases hs'
  refine (h.waiting hwait).2 ?_
  by_contra hne
  have hidle := hfinal (cut_ne_nil hl) (h.isEcho_eq h0) hwait hne
  rw [hidle] at hs'
  cases hs'

end

/-- The engine right after a transmission. -/
theorem JustSent.eng (htx : cfg.txBufSize ≤ 2 ^ 16) (hecho : cfg.echoCancel = true)
    {c : List UInt8} {w : World cfg σ} (h : JustSent c w) :
    w.eng.state = .waiting ∧ w.eng.echoArmed = true ∧ Expects c w.eng := by
  obtain ⟨env, fuel, s, w₁, w₂, w₃, -, -, -, -, -, rfl, ht⟩ := h.sent
  have heng := transmit_eng env w₃
  have hawaits := AwaitsEcho.transmit htx env w₃
  rw [ht] at heng hawaits
  have hs : w.eng.state = .waiting := by rw [heng]; rfl
  have harmed : w.eng.echoArmed = true := by rw [heng]; exact hecho
  have hqueue : w.eng.queue w.eng.qTail = w₃.eng.queue w₃.eng.qTail := by rw [heng]; rfl
  obtain ⟨hexpect, hlen⟩ := hawaits hs harmed
  exact ⟨hs, harmed, hexpect.trans (by rw [hqueue]), hlen.trans (by rw [hqueue])⟩

/-- The line of the echo begins with the command, if the line buffer holds it. -/
theorem prefix_echo {c : List UInt8} (h : c.length < cfg.lineMax) : c <+: cut cfg (c ++ [13]) := by
  rw [cut, List.prefix_take_iff]
  exact ⟨List.prefix_append c [13], by omega⟩

/-- The echo is recognised. -/
theorem takeLine_echo {invoke : Invocation → World cfg σ → Option (World cfg σ)} {env : Env σ}
    {s : LineFsm} {l : List UInt8} {w : World cfg σ} (hl : l ≠ []) (h : isEcho w.eng l = true) :
    takeLine invoke env s l w =
      some (lineDone ((w.putEng (disarm w.eng)).emit (.line .echo l))) := by
  have h' : isEcho { w.eng with line := l, lfsm := s } l = true := h
  rw [takeLine, engineDispatchLine, if_neg (fun h0 => hl (List.length_eq_zero_iff.mp h0)),
    World.putEng_eng, if_pos h']
  rfl

/-- **With echo, the same is reported**: when the command fits the line buffer
and no line is mistaken for it, the echo and what follows it lead to the same
callbacks and handler calls as the lines alone, whatever the hooks do. -/
theorem echo_transparent (htx : cfg.txBufSize ≤ 2 ^ 16) (hecho : cfg.echoCancel = true)
    {c : List UInt8} (hc : ModemLine c) (h0 : (0 : UInt8) ∉ c) (hfits : c.length < cfg.lineMax)
    {lines : List (List UInt8)} (hne : lines ≠ []) (hlines : ∀ l ∈ lines, ModemLine l)
    (hun : Unmistakable cfg c lines) : EchoTransparent cfg c lines := by
  intro σ env n w s hsent
  obtain ⟨hs, harmed, hexpects⟩ := hsent.eng htx hecho
  obtain ⟨l, ls, rfl⟩ := List.exists_cons_of_ne_nil hne
  have hstart : (w.putApp s).eng.lfsm = .start := hsent.lfsm
  have hecho' : isEcho (w.putApp s).eng (cut cfg (c ++ [13])) = true :=
    (hexpects.isEcho_iff h0).mpr ⟨hecho, harmed, hs, prefix_echo hfits⟩
  rw [consume_echoed hc hlines hstart, consume_transcript hlines hstart,
    takeLine_echo (cut_ne_nil (by simp)) hecho', Option.bind_some]
  -- both runs are the run of a world without a past
  let v : World cfg σ := ⟨w.eng, s, []⟩
  have hid : InertApi (fun _ _ => True) fun g : Engine cfg => g := .id
  have hdisarm : InertApi (fun _ _ => True) (disarm : Engine cfg → Engine cfg) := disarm_inertApi
  have halone : takeLines (LibAt.invoke env n) env (l :: ls) (v.adapt (fun g => g) w.log) =
      (takeLines (LibAt.invoke env n) env (l :: ls) v).map (World.adapt (fun g => g) w.log) :=
    takeLines_adapt hid.toInertByte (invoke_adapt hid env.respects_true n)
      (I := fun _ _ => True) (fun _ _ _ _ => rfl) (fun _ _ _ _ _ _ => trivial) _ trivial
  have hechoed : takeLines (LibAt.invoke env n) env (l :: ls)
      (v.adapt disarm (w.log ++ [.line .echo (cut cfg (c ++ [13]))])) =
        (takeLines (LibAt.invoke env n) env (l :: ls) v).map
          (World.adapt disarm (w.log ++ [.line .echo (cut cfg (c ++ [13]))])) := by
    refine takeLines_adapt hdisarm.toInertByte (invoke_adapt hdisarm env.respects_true n)
      (I := fun ls g => Unmistaking c ls g ∧ ∀ l ∈ ls, l ≠ []) (fun m ms g hI => ?_)
      (fun m ms u u' hI hu => ?_) _ ⟨⟨hexpects, fun _ => hun⟩, fun m hm => (hlines m hm).ne_nil⟩
    · rw [hI.1.isEcho_eq h0, isEcho, disarm]
      simp
    · obtain ⟨hm, hms⟩ := List.forall_mem_cons.mp hI.2
      exact ⟨hI.1.takeLine (invoke_settles env n) h0 hm hu, hms⟩
  have hpast : v.adapt (fun g => g) w.log = w.putApp s :=
    congrArg (World.mk w.eng s) (List.append_nil _)
  have hpast' : v.adapt disarm (w.log ++ [.line .echo (cut cfg (c ++ [13]))]) =
      ((w.putApp s).putEng (disarm w.eng)).emit (.line .echo (cut cfg (c ++ [13]))) :=
    congrArg (World.mk (disarm w.eng) s) (List.append_nil _)
  rw [hpast] at halone
  rw [hpast'] at hechoed
  rw [halone]
  refine (congrArg (Option.map _) hechoed).trans ?_
  rw [Option.map_map, Option.map_map]
  refine Option.map_congr fun u _ => ?_
  simp only [Function.comp_apply, World.adapt_log, reports_append]
  rw [show reports [(.line .echo (cut cfg (c ++ [13])) : Event cfg)] = [] from rfl, List.append_nil]

/-- **However it is fed.** With silent hooks and no other command in the queue,
the echo does not show either when everything is fed in pieces, with an
`at_process` behind each. -/
theorem EchoTransparent.fed (hfit : cfg.Fits) (hsize : cfg.rxBufSize ≤ 2 ^ 15)
    (hprompt : 0 < cfg.promptTimeoutMs) {env : Env σ} (henv : env.Silent) {fuel : Nat}
    (hfuel : cfg.rxBufSize < fuel) {c : List UInt8} {lines : List (List UInt8)}
    (h : EchoTransparent cfg c lines) {w : World cfg σ} (hsent : JustSent c w)
    (hempty : rxringEmpty w.eng.rx) (hlone : Lone w.eng) {cs ds : List (List UInt8)}
    (hcs : ∀ c ∈ cs, c.length ≤ cfg.rxBufSize) (hds : ∀ d ∈ ds, d.length ≤ cfg.rxBufSize)
    (hechoed : cs.flatten = c ++ 13 :: transcript lines) (halone : ds.flatten = transcript lines) :
    ∃ u v, execAll env fuel (chunkCalls cs) w = some u ∧
      execAll env fuel (chunkCalls ds) w = some v ∧ reports u.log = reports v.log := by
  obtain ⟨u, hu, hxu⟩ := execAll_chunks hfit hsize hprompt henv hfuel cs hcs hempty hlone
  obtain ⟨v, hv, hxv⟩ := execAll_chunks hfit hsize hprompt henv hfuel ds hds hempty hlone
  have heq := h env 1 w w.app hsent
  rw [invoke_silent henv 0, ← hechoed, ← halone] at heq
  change (consume (quiet env) env cs.flatten w).map _ =
    (consume (quiet env) env ds.flatten w).map _ at heq
  rw [hu, hv] at heq
  exact ⟨_, _, hxu, hxv, Option.some.inj heq⟩

end LibAt
