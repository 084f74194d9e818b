import LibAt.Echo

/-!
# Where the echo shows

When a line is mistaken for the echo, or the echo is too long for the line
buffer to show it, some application can tell. This one registers a handler for
every line, counts what is reported to it, and waits for a command with a body
that it lets through a given number of times. Every line it hears then is one
report (`Counting.run`), except for as many prompts (`Awaited.run`) and for a line
that is taken for the echo, so the two runs end with different counts
(`echo_transparent_iff`).
-/

namespace LibAt

variable {cfg : Config}

/-! ## An application that counts -/

/-- Hooks do nothing, and as many bodies are written as the private state
says. -/
def countingEnv : Env Nat where
  write s data :=
    if data = [26] then (1, s)
    else
      match s with
      | 0 => (0, 0)
      | s + 1 => (data.length, s)
  completion _ _ _ s := .ret s
  handler _ _ _ s := .ret s

theorem countingEnv_silent : countingEnv.Silent := by
  rintro (⟨f, r, u⟩ | ⟨f, l, u⟩) s <;> trivial

/-- How much has been reported. -/
def reported (w : World cfg Nat) : Nat := (reports w.log).length

theorem reported_append {w w' : World cfg Nat} {evs : List (Event cfg)} {n : Nat}
    (h : w'.log = w.log ++ evs) (hn : (reports evs).length = n) :
    reported w' = reported w + n := by
  rw [reported, h, reports_append, List.length_append, hn, reported]

theorem reported_silent {w w' : World cfg Nat}
    (h : GrowsBy (fun ev => reports [ev] = []) w.log w'.log) : reported w' = reported w := by
  obtain ⟨evs, hlog, hevs⟩ := h
  exact reported_append (n := 0) hlog (by rw [reports_eq_nil hevs, List.length_nil])

/-- A body goes out as long as some are let through. -/
theorem answerPrompt_counting {e : CmdEntry cfg} (hbody : e.body.bytes = [120])
    (w : World cfg Nat) :
    (answerPrompt countingEnv e w).1 = decide (0 < w.app) ∧
      (answerPrompt countingEnv e w).2.app = w.app - 1 := by
  rw [answerPrompt]
  cases hk : w.app with
  | zero => simp [atPlatformWrite, countingEnv, hbody, CString.length, hk]
  | succ k => simp [atPlatformWrite, countingEnv, hbody, CString.length, hk]

/-- Some handler takes every line. -/
def CatchAll (g : Engine cfg) : Prop :=
  ∃ i, (g.urcTable i).active = true ∧ (g.urcTable i).pre.bytes = []

theorem CatchAll.urcMatch (hfit : cfg.Fits) {g : Engine cfg} (h : CatchAll g) (l : List UInt8) :
    urcMatch l g ≠ some none := by
  obtain ⟨i, hactive, hpre⟩ := h
  obtain ⟨m, hm, hnone⟩ := urcMatch_find hfit l g
  rw [hm]
  intro h
  exact hnone.mp (Option.some.inj h) i hactive (hpre ▸ List.nil_prefix)

/-- Nothing is waited for. -/
structure Rests (g : Engine cfg) : Prop where
  state : g.state = .idle
  catchAll : CatchAll g

/-- The command `c`, with a body and a callback, is waited for. -/
structure Awaited (c : List UInt8) (armed : Bool) (g : Engine cfg) : Prop where
  state : g.state = .waiting
  armed : g.echoArmed = armed
  expects : Expects c g
  catchAll : CatchAll g
  prompt : (g.queue g.qTail).prompt = .sms
  hasBody : (g.queue g.qTail).hasBody = true
  body : (g.queue g.qTail).body.bytes = [120]
  cb : (g.queue g.qTail).cb = some 0

section

variable {c l : List UInt8} {armed : Bool} {w w' : World cfg Nat} {s : LineFsm}

theorem Awaited.isEcho_iff (hecho : cfg.echoCancel = true) (h0 : (0 : UInt8) ∉ c) {g : Engine cfg}
    (h : Awaited c armed g) : isEcho g l = true ↔ armed = true ∧ c <+: l := by
  rw [h.expects.isEcho_iff h0, h.armed, h.state]
  simp [hecho]

/-! ## One line -/

/-- A line nobody waits for is reported. -/
theorem Rests.dispatches (hfit : cfg.Fits) (hl : l ≠ []) (h : Rests w.eng)
    (hd : Dispatches countingEnv l w w') : Rests w'.eng ∧ reported w' = reported w + 1 := by
  have hidle : w.eng.state ≠ .waiting := by
    rw [h.state]
    decide
  cases hd with
  | empty hnil => exact absurd hnil hl
  | echo he =>
    simp only [isEcho, Bool.and_eq_true, beq_iff_eq] at he
    exact absurd he.1.2 hidle
  | ignored _ hp | answered _ _ hp | failed _ _ hp => exact absurd (isPrompt_waiting hp) hidle
  | final _ _ _ _ hs => exact absurd hs hidle
  | urc i => exact ⟨⟨h.state, h.catchAll⟩, reported_append (List.append_assoc ..) rfl⟩
  | other _ _ _ hm => exact absurd hm (h.catchAll.urcMatch hfit l)

/-- When the command that is waited for is done, that is reported. -/
theorem finalized_counting (hcatch : CatchAll w.eng) (hcb : (w.eng.queue w.eng.qTail).cb = some 0)
    (status : AtResult) (code : Int) :
    Rests (finalized countingEnv status code w).eng ∧
      reported (finalized countingEnv status code w) = reported w + 1 := by
  refine ⟨⟨rfl, hcatch⟩, reported_append (List.append_assoc ..) ?_⟩
  rw [CmdEntry.notice, hcb]
  rfl

/-- What becomes of the command that is waited for when the line `l`, not taken
for its echo, comes in: it is done, it is still waited for, or its body has been
written. -/
inductive Heard (c l : List UInt8) (armed : Bool) (w w' : World cfg Nat) : Prop
  | done : Rests w'.eng → reported w' = reported w + 1 →
      (engineIsFinal l = none → [62, 32] <+: l ∧ w.app = 0) → Heard c l armed w w'
  | told : Awaited c armed w'.eng → w'.app = w.app → reported w' = reported w + 1 →
      ¬[62, 32] <+: l → Heard c l armed w w'
  | written : Awaited c armed w'.eng → w.app = w'.app + 1 → reported w' = reported w →
      [62, 32] <+: l → Heard c l armed w w'

theorem Awaited.dispatches (hfit : cfg.Fits) (hl : l ≠ []) (h : Awaited c armed w.eng)
    (hd : Dispatches countingEnv l w w') (he : isEcho w.eng l = false) : Heard c l armed w w' := by
  have hquiet (k : LineKind) : GrowsBy (fun ev => reports [ev] = []) w.log (w.emit (.line k l)).log :=
    .concat (.refl _) rfl
  obtain ⟨hsent, happ⟩ := answerPrompt_counting h.body (w.emit (.line (.prompt true) l))
  have heng := answerPrompt_eng countingEnv (w.eng.queue w.eng.qTail) (w.emit (.line (.prompt true) l))
  have hlog : GrowsBy (fun ev => reports [ev] = []) (w.emit (.line (.prompt true) l)).log _ :=
    answerPrompt_growsBy (fun _ _ _ => rfl) (fun _ => rfl) countingEnv
      (w.eng.queue w.eng.qTail) (w.emit (.line (.prompt true) l))
  cases hd with
  | empty hnil => exact absurd hnil hl
  | echo he' =>
    rw [he] at he'
    cases he'
  | ignored _ hp hb => exact absurd ⟨h.prompt, h.hasBody⟩ hb
  | answered _ _ hp _ ha =>
    rw [ha] at hsent happ heng hlog
    have hpos : 0 < w.app := of_decide_eq_true hsent.symm
    refine .written ?_ ?_ (reported_silent ((hquiet _).trans hlog)) (isPrompt_begins hp)
    · rw [heng]
      exact ⟨rfl, h.armed, ⟨h.expects.expect, h.expects.len⟩, h.catchAll, h.prompt, h.hasBody,
        h.body, h.cb⟩
    · change w'.app = w.app - 1 at happ
      omega
  | failed w₁ _ hp _ ha =>
    rw [ha] at hsent happ heng hlog
    have hzero : ¬0 < w.app := of_decide_eq_false hsent.symm
    obtain ⟨hrests, hrep⟩ := finalized_counting (w := w₁) (by rw [heng]; exact h.catchAll)
      (by rw [heng]; exact h.cb) .errIo 0
    rw [reported_silent ((hquiet _).trans hlog)] at hrep
    exact .done hrests hrep fun _ => ⟨isPrompt_begins hp, by omega⟩
  | final status code _ _ hs hf =>
    obtain ⟨hrests, hrep⟩ := finalized_counting (w := w.emit (.line .final l)) h.catchAll h.cb
      status code
    rw [reported_silent (hquiet _)] at hrep
    exact .done hrests hrep fun hne => by rw [hf] at hne; cases hne
  | urc i _ hp =>
    exact .told ⟨h.state, h.armed, h.expects, h.catchAll, h.prompt, h.hasBody, h.body, h.cb⟩ rfl
      (reported_append (List.append_assoc ..) rfl) ((isPrompt_eq_false_iff h.state).mp hp)
  | other _ _ _ hm => exact absurd hm (h.catchAll.urcMatch hfit l)

theorem Awaited.withLine {g : Engine cfg} (h : Awaited c armed g) (line : List UInt8) (lfsm : LineFsm) :
    Awaited c armed { g with line := line, lfsm := lfsm } :=
  ⟨h.state, h.armed, ⟨h.expects.expect, h.expects.len⟩, h.catchAll, h.prompt, h.hasBody, h.body,
    h.cb⟩

/-- The FSM is set back behind the dispatch. -/
theorem takeLine_quiet (hfit : cfg.Fits) (s : LineFsm) (l : List UInt8) (w : World cfg Nat) :
    ∃ w', takeLine (quiet countingEnv) countingEnv s l w = some (lineDone w') ∧
      Dispatches countingEnv l (w.putEng { w.eng with line := l, lfsm := s }) w' := by
  obtain ⟨w', hw', hd⟩ : ∃ w', engineDispatchLine (quiet countingEnv) countingEnv l
      (w.putEng { w.eng with line := l, lfsm := s }) = some w' ∧
      Dispatches countingEnv l (w.putEng { w.eng with line := l, lfsm := s }) w' :=
    engineDispatchLine_quiet hfit l _
  exact ⟨w', Option.map_eq_some_iff.mpr ⟨w', hw', rfl⟩, hd⟩

theorem Rests.takeLine (hfit : cfg.Fits) (hl : l ≠ []) (h : Rests w.eng) :
    ∃ w', takeLine (quiet countingEnv) countingEnv s l w = some w' ∧ Rests w'.eng ∧
      reported w' = reported w + 1 := by
  obtain ⟨w', hw', hd⟩ := takeLine_quiet hfit s l w
  obtain ⟨⟨hidle, hcatch⟩, hrep⟩ := Rests.dispatches (w := w.putEng { w.eng with line := l, lfsm := s })
    hfit hl ⟨h.state, h.catchAll⟩ hd
  exact ⟨_, hw', ⟨hidle, hcatch⟩, hrep⟩

theorem Awaited.takeLine (hfit : cfg.Fits) (hl : l ≠ []) (h : Awaited c armed w.eng)
    (he : isEcho w.eng l = false) :
    ∃ w', takeLine (quiet countingEnv) countingEnv s l w = some w' ∧ Heard c l armed w w' := by
  obtain ⟨w', hw', hd⟩ := takeLine_quiet hfit s l w
  refine ⟨_, hw', ?_⟩
  cases Awaited.dispatches hfit hl (h.withLine l s) hd he with
  | done hrests hrep hfinal => exact .done ⟨hrests.state, hrests.catchAll⟩ hrep hfinal
  | told hwaits happ hrep hl => exact .told (hwaits.withLine _ _) happ hrep hl
  | written hwaits happ hrep hl => exact .written (hwaits.withLine _ _) happ hrep hl

/-! ## Many lines -/

/-- No line can be taken for the echo, and no body is let through. -/
def Counting (c : List UInt8) (w : World cfg Nat) : Prop :=
  Rests w.eng ∨
    ∃ armed, Awaited c armed w.eng ∧ w.app = 0 ∧ (armed = true → cfg.lineMax ≤ c.length)

theorem length_cut (l : List UInt8) : (cut cfg l).length < cfg.lineMax := by
  have hline := cfg.line_pos
  have hle := List.length_take_le (cfg.lineMax - 1) l
  rw [cut]
  omega

/-- One line, one report. -/
theorem Counting.takeLine (hfit : cfg.Fits) (hecho : cfg.echoCancel = true) (h0 : (0 : UInt8) ∉ c)
    (hl : l ≠ []) (h : Counting c w) :
    ∃ w', takeLine (quiet countingEnv) countingEnv s (cut cfg l) w = some w' ∧ Counting c w' ∧
      reported w' = reported w + 1 := by
  rcases h with hrests | ⟨armed, hwaits, happ, harmed⟩
  · obtain ⟨w', hw', hrests', hrep⟩ := hrests.takeLine (s := s) hfit (cut_ne_nil hl)
    exact ⟨w', hw', .inl hrests', hrep⟩
  · have he : isEcho w.eng (cut cfg l) = false := by
      rw [← Bool.not_eq_true, hwaits.isEcho_iff hecho h0]
      rintro ⟨ha, hpre⟩
      have hlong := harmed ha
      have hshort := hpre.length_le
      have hcut : (cut cfg l).length < cfg.lineMax := length_cut l
      omega
    obtain ⟨w', hw', hheard⟩ := hwaits.takeLine (s := s) hfit (cut_ne_nil hl) he
    refine ⟨w', hw', ?_⟩
    cases hheard with
    | done hrests hrep => exact ⟨.inl hrests, hrep⟩
    | told hwaits' happ' hrep => exact ⟨.inr ⟨armed, hwaits', happ'.trans happ, harmed⟩, hrep⟩
    | written _ happ' => omega

/-- **Each line is one report** for an application that counts. -/
theorem Counting.run (hfit : cfg.Fits) (hecho : cfg.echoCancel = true) (h0 : (0 : UInt8) ∉ c)
    {ls : List (List UInt8)} (hls : ∀ l ∈ ls, ModemLine l) :
    ∀ {w : World cfg Nat}, Counting c w →
      ∃ w', takeLines (quiet countingEnv) countingEnv ls w = some w' ∧
        reported w' = reported w + ls.length := by
  induction ls with
  | nil => exact fun {w} _ => ⟨w, rfl, rfl⟩
  | cons l ls ih =>
    intro w h
    obtain ⟨hl, hls⟩ := List.forall_mem_cons.mp hls
    obtain ⟨w₁, hw₁, hcount, hrep⟩ := h.takeLine (s := .cr) hfit hecho h0 hl.ne_nil
    obtain ⟨w₂, hw₂, hrep'⟩ := ih hls hcount
    refine ⟨w₂, ?_, ?_⟩
    · rw [takeLines, hw₁, Option.bind_some, hw₂]
    · rw [hrep', hrep, List.length_cons]
      omega

/-- How many of the lines are prompts. -/
def prompts (cfg : Config) (ls : List (List UInt8)) : Nat :=
  ls.countP fun l => decide ([62, 32] <+: cut cfg l)

/-- **Until something is mistaken or final**, each line is one report unless it is
a prompt. -/
theorem Awaited.run (hfit : cfg.Fits) (hecho : cfg.echoCancel = true) (h0 : (0 : UInt8) ∉ c)
    {ls : List (List UInt8)} (hls : ∀ l ∈ ls, ModemLine l)
    (hother : ∀ l ∈ ls, ¬c <+: cut cfg l ∧ engineIsFinal (cut cfg l) = none) :
    ∀ {w : World cfg Nat}, Awaited c armed w.eng → w.app = prompts cfg ls →
      ∃ w', takeLines (quiet countingEnv) countingEnv ls w = some w' ∧ Awaited c armed w'.eng ∧
        w'.app = 0 ∧ reported w' + prompts cfg ls = reported w + ls.length := by
  induction ls with
  | nil => exact fun {w} h happ => ⟨w, rfl, h, happ, rfl⟩
  | cons l ls ih =>
    intro w h happ
    obtain ⟨hl, hls⟩ := List.forall_mem_cons.mp hls
    obtain ⟨⟨hpre, hfinal⟩, hother⟩ := List.forall_mem_cons.mp hother
    have he : isEcho w.eng (cut cfg l) = false := by
      rw [← Bool.not_eq_true, h.isEcho_iff hecho h0]
      exact fun hboth => hpre hboth.2
    obtain ⟨w₁, hw₁, hheard⟩ := h.takeLine (s := .cr) hfit (cut_ne_nil hl.ne_nil) he
    rw [takeLines, hw₁, Option.bind_some]
    simp only [prompts, List.countP_cons, decide_eq_true_eq] at happ ⊢
    cases hheard with
    | done _ _ hdone =>
      obtain ⟨hprompt, hzero⟩ := hdone hfinal
      rw [if_pos hprompt] at happ
      omega
    | told hwaits happ' hrep hprompt =>
      rw [if_neg hprompt] at happ ⊢
      obtain ⟨w₂, hw₂, hwaits', hzero, hrep'⟩ := ih hls hother hwaits (happ'.trans happ)
      refine ⟨w₂, hw₂, hwaits', hzero, ?_⟩
      rw [prompts] at hrep'
      rw [List.length_cons]
      omega
    | written hwaits happ' hrep hprompt =>
      rw [if_pos hprompt] at happ ⊢
      obtain ⟨w₂, hw₂, hwaits', hzero, hrep'⟩ := ih hls hother hwaits (by rw [prompts]; omega)
      refine ⟨w₂, hw₂, hwaits', hzero, ?_⟩
      rw [prompts] at hrep'
      rw [List.length_cons]
      omega

end

/-! ## Setting the trap -/

/-- The command `c` with a body. -/
def trapDesc (c : List UInt8) : CmdDesc := ⟨some c, some [120], 0, .sms, some 0, 0⟩

/-- An empty prefix registered first takes every line. -/
theorem register_catchAll (hfit : cfg.Fits) : ∃ g,
    atRegisterUrc (some []) (some 0) 0 (atInit cfg) = some (.ok, g) ∧ CatchAll g := by
  obtain ⟨i, hi⟩ : ∃ i, (List.finRange cfg.urcTableSize).find?
      (fun i => !((atInit cfg).urcTable i).active) = some i := by
    rw [← Option.isSome_iff_exists, List.find?_isSome]
    exact ⟨⟨0, cfg.urc_ge⟩, List.mem_finRange _, rfl⟩
  have hnone : (List.finRange cfg.urcTableSize).find?
      (fun i => ((atInit cfg).urcTable i).registered []) = none :=
    List.find?_eq_none.mpr fun i _ => by simp [UrcEntry.registered, atInit, UrcEntry.zero]
  let u : UrcEntry cfg := ⟨strCopySafe cfg.line_pos [], 0, 0, true⟩
  refine ⟨{ atInit cfg with urcTable := Function.update (atInit cfg).urcTable i u }, ?_, i, ?_, ?_⟩
  · simp only [atRegisterUrc, urcSearch_eq hfit, hnone, hi, Option.bind_eq_bind, Option.bind_some]
    rfl
  all_goals simp [u, strCopySafe]

/-- Everything is written. -/
def wholeEnv : Env Nat := { countingEnv with write := fun s data => (data.length, s) }

theorem transmit_whole (w : World cfg Nat) : (transmit wholeEnv w).1 = true := by
  simp [transmit, atPlatformWrite, wholeEnv, CString.length]

/-- **The trap can be set**: the command is waited for, with its echo. -/
theorem exists_awaited (hfit : cfg.Fits) (htx : cfg.txBufSize ≤ 2 ^ 16)
    (hecho : cfg.echoCancel = true) {c : List UInt8} (hne : c ≠ []) (h0 : (0 : UInt8) ∉ c)
    (hlen : c.length < cfg.txBufSize) : ∃ w : World cfg Nat, JustSent c w ∧ Awaited c true w.eng := by
  obtain ⟨g, hg, hcatch⟩ := register_catchAll hfit
  have hcstr : cstr c = c := cstr_eq_self h0
  -- what registering and sending make of the initial state
  let e := cmdEntryOf cfg (trapDesc c)
  let g' : Engine cfg := { g with
    queue := Function.update g.queue g.qHead e
    qHead := nextSlot g.qHead
    qCount := 1 }
  have hsend : atSend (some (trapDesc c)) g = (.ok, g') := by
    obtain ⟨table, rfl⟩ := atRegisterUrc_eq hg
    rw [atSend, if_neg (by rw [trapDesc, Option.getD_some, hcstr]; exact hne), if_neg]
    · rfl
    · exact Nat.not_le.mpr cfg.depth_ge
  obtain ⟨table, rfl⟩ := atRegisterUrc_eq hg
  let w : World cfg Nat := ⟨g', 0, [.accepted (trapDesc c)]⟩
  have hregister : exec wholeEnv 1 (.api (.registerUrc (some []) (some 0) 0))
      ((World.mk (atInit cfg) 0 []).putApp 0) =
        some (.result .ok, ⟨{ atInit cfg with urcTable := table }, 0, []⟩) :=
    congrArg (Option.map _) hg
  have hsent : exec wholeEnv 1 (.api (.send (some (trapDesc c))))
      ((World.mk { atInit cfg with urcTable := table } 0 []).putApp 0) = some (.result .ok, w) := by
    have hsend' : (World.mk { atInit cfg with urcTable := table } 0 []).send
        (some (trapDesc c)) = (.ok, w) := by
      rw [World.send, hsend]
      rfl
    exact congrArg (fun r => some (ApiRet.result r.1, r.2)) hsend'
  have hreach : Reachable (fun _ _ => True) w :=
    .step 0 (.step 0 (.init 0) trivial hregister) trivial hsent
  have hentry : g'.queue g'.qTail = e := by simp [g', atInit]
  have hcmd : e.cmd.bytes = c := by
    change (cstr c).take (cfg.txBufSize - 1) = c
    rw [hcstr, List.take_of_length_le (by omega)]
  have hjust : JustSent c (transmit wholeEnv w).2 := by
    rw [← hcmd, ← hentry]
    exact .of_idle hreach rfl rfl Nat.one_pos rfl (transmit_whole w)
  have heng := transmit_eng wholeEnv w
  rw [transmit_whole w] at heng
  obtain ⟨hstate, harmed, hexpects⟩ := hjust.eng htx hecho
  have hqueue : (transmit wholeEnv w).2.eng.queue (transmit wholeEnv w).2.eng.qTail = e := by
    rw [heng]
    exact hentry
  refine ⟨_, hjust, hstate, harmed, hexpects, ?_, ?_, ?_, ?_, ?_⟩
  · rw [heng]
    exact hcatch
  all_goals rw [hqueue]
  · rfl
  · rfl
  · change (cstr [120]).take (cfg.txBufSize * 2 - 1) = [120]
    have htx := cfg.tx_pos
    rw [cstr_eq_self (by decide), List.take_of_length_le (by rw [List.length_singleton]; omega)]
  · rfl

/-! ## When the echo does not show -/

/-- The line that is mistaken for the echo, with no final result in front of it. -/
theorem exists_mistaken {c : List UInt8} {lines : List (List UInt8)}
    (h : ¬Unmistakable cfg c lines) : ∃ pre l post, lines = pre ++ l :: post ∧
      (∀ m ∈ pre, ¬c <+: cut cfg m ∧ engineIsFinal (cut cfg m) = none) ∧ c <+: cut cfg l := by
  induction lines with
  | nil => exact absurd trivial h
  | cons l ls ih =>
    by_cases hl : c <+: cut cfg l
    · exact ⟨[], l, ls, rfl, by simp, hl⟩
    · have hfinal : engineIsFinal (cut cfg l) = none := by
        by_contra hne
        exact h ⟨hl, fun hnone => absurd hnone hne⟩
      obtain ⟨pre, m, post, rfl, hpre, hm⟩ := ih fun hls => h ⟨hl, fun _ => hls⟩
      exact ⟨l :: pre, m, post, rfl, List.forall_mem_cons.mpr ⟨⟨hl, hfinal⟩, hpre⟩, hm⟩

/-- With and without the echo, the application counts the same. -/
theorem EchoTransparent.reported_eq {c : List UInt8} (hc : ModemLine c) {lines : List (List UInt8)}
    (hne : lines ≠ []) (hlines : ∀ l ∈ lines, ModemLine l) (h : EchoTransparent cfg c lines)
    {w : World cfg Nat} (hsent : JustSent c w) (k : Nat) {u v : World cfg Nat}
    (hu : (takeLine (quiet countingEnv) countingEnv .data (cut cfg (c ++ [13])) (w.putApp k)).bind
      (takeLines (quiet countingEnv) countingEnv lines) = some u)
    (hv : takeLines (quiet countingEnv) countingEnv lines (w.putApp k) = some v) :
    reported u = reported v := by
  have hstart : (w.putApp k).eng.lfsm = .start := hsent.lfsm
  have heq := h countingEnv 1 w k hsent
  obtain ⟨l, ls, rfl⟩ := List.exists_cons_of_ne_nil hne
  rw [invoke_silent countingEnv_silent 0, consume_echoed hc hlines hstart,
    consume_transcript hlines hstart, hu, hv] at heq
  exact congrArg List.length (Option.some.inj heq)

/-- A line that is taken for the echo is not reported, and the next one is not
taken for it. -/
theorem Awaited.takeLine_echo (hecho : cfg.echoCancel = true) {c l : List UInt8}
    (h0 : (0 : UInt8) ∉ c) {s : LineFsm} {w : World cfg Nat} (h : Awaited c true w.eng) (hl : l ≠ [])
    (hpre : c <+: l) :
    ∃ w', LibAt.takeLine (quiet countingEnv) countingEnv s l w = some w' ∧ Awaited c false w'.eng ∧
      w'.app = w.app ∧ reported w' = reported w :=
  ⟨_, LibAt.takeLine_echo hl ((h.isEcho_iff hecho h0).mpr ⟨rfl, hpre⟩),
    ⟨h.state, rfl, ⟨h.expects.expect, h.expects.len⟩, h.catchAll, h.prompt, h.hasBody, h.body, h.cb⟩,
    rfl, reported_append (n := 0) rfl rfl⟩

/-- A command that fills the line buffer has an echo that shows. -/
theorem EchoTransparent.fits (hfit : cfg.Fits) (htx : cfg.txBufSize ≤ 2 ^ 16)
    (hecho : cfg.echoCancel = true) {c : List UInt8} (hc : ModemLine c) (h0 : (0 : UInt8) ∉ c)
    (hlen : c.length < cfg.txBufSize) {lines : List (List UInt8)} (hne : lines ≠ [])
    (hlines : ∀ l ∈ lines, ModemLine l) (h : EchoTransparent cfg c lines) :
    c.length < cfg.lineMax := by
  by_contra hlong
  obtain ⟨w, hsent, hwaits⟩ := exists_awaited hfit htx hecho hc.ne_nil h0 hlen
  have hcount : Counting c (w.putApp 0) := .inr ⟨true, hwaits, rfl, fun _ => Nat.le_of_not_lt hlong⟩
  obtain ⟨w₁, hw₁, hcount₁, hrep₁⟩ := hcount.takeLine (s := .data) hfit hecho h0 
    (l := c ++ [13]) (by simp)
  obtain ⟨u, hu, hrepu⟩ := hcount₁.run hfit hecho h0 hlines
  obtain ⟨v, hv, hrepv⟩ := hcount.run hfit hecho h0 hlines
  have heq := h.reported_eq hc hne hlines hsent 0 (by rw [hw₁, Option.bind_some, hu]) hv
  omega

/-- A line that is taken for the echo is missed. -/
theorem EchoTransparent.unmistakable (hfit : cfg.Fits) (htx : cfg.txBufSize ≤ 2 ^ 16)
    (hecho : cfg.echoCancel = true) {c : List UInt8} (hc : ModemLine c) (h0 : (0 : UInt8) ∉ c)
    (hlen : c.length < cfg.txBufSize) (hfits : c.length < cfg.lineMax)
    {lines : List (List UInt8)} (hne : lines ≠ []) (hlines : ∀ l ∈ lines, ModemLine l)
    (h : EchoTransparent cfg c lines) : Unmistakable cfg c lines := by
  by_contra hmistaken
  obtain ⟨pre, l, post, rfl, hother, hpre⟩ := exists_mistaken hmistaken
  obtain ⟨w, hsent, hwaits⟩ := exists_awaited hfit htx hecho hc.ne_nil h0 hlen
  have hlines' := fun m hm => hlines m (List.mem_append_left _ hm)
  have hrest : ∀ m ∈ l :: post, ModemLine m := fun m hm => hlines m (List.mem_append_right _ hm)
  have hl := hrest l List.mem_cons_self
  -- with the echo: every line is heard
  obtain ⟨u₁, hu₁, hwaits₁, happ₁, hrep₁⟩ := Awaited.takeLine_echo (w := w.putApp (prompts cfg pre))
    (s := .data) hecho h0 hwaits (cut_ne_nil (by simp)) (prefix_echo hfits)
  obtain ⟨u₂, hu₂, hwaits₂, happ₂, hrep₂⟩ := hwaits₁.run hfit hecho h0 hlines' hother happ₁
  obtain ⟨u₃, hu₃, hrep₃⟩ := Counting.run hfit hecho h0 hrest
    (.inr ⟨false, hwaits₂, happ₂, fun hf => by cases hf⟩)
  -- without it: the line that begins with the command is not
  obtain ⟨v₁, hv₁, hwaits₁', happ₁', hrep₁'⟩ := Awaited.run (w := w.putApp (prompts cfg pre))
    hfit hecho h0 hlines' hother hwaits rfl
  obtain ⟨v₂, hv₂, hwaits₂', happ₂', hrep₂'⟩ :=
    hwaits₁'.takeLine_echo (s := .cr) hecho h0 (cut_ne_nil hl.ne_nil) hpre
  obtain ⟨v₃, hv₃, hrep₃'⟩ := Counting.run hfit hecho h0 (fun m hm => hrest m (List.mem_cons_of_mem _ hm))
    (.inr ⟨false, hwaits₂', happ₂'.trans happ₁', fun hf => by cases hf⟩)
  have heq := h.reported_eq hc hne hlines hsent (prompts cfg pre) (u := u₃) (v := v₃)
    (by rw [hu₁, Option.bind_some, takeLines_append, hu₂, Option.bind_some, hu₃])
    (by rw [takeLines_append, hv₁, Option.bind_some, takeLines, hv₂, Option.bind_some, hv₃])
  rw [List.length_cons] at hrep₃
  omega

/-- **When the echo does not show.** With echo cancellation on, a modem that
sends the command back and one that does not are the same to every application
exactly when the command is shorter than the line buffer and no line as far as
the first final result begins with it. -/
theorem echo_transparent_iff (hfit : cfg.Fits) (htx : cfg.txBufSize ≤ 2 ^ 16)
    (hecho : cfg.echoCancel = true) {c : List UInt8} (hc : ModemLine c) (h0 : (0 : UInt8) ∉ c)
    (hlen : c.length < cfg.txBufSize) {lines : List (List UInt8)} (hne : lines ≠ [])
    (hlines : ∀ l ∈ lines, ModemLine l) :
    EchoTransparent cfg c lines ↔ c.length < cfg.lineMax ∧ Unmistakable cfg c lines := by
  constructor
  · intro h
    have hfits := h.fits hfit htx hecho hc h0 hlen hne hlines
    exact ⟨hfits, h.unmistakable hfit htx hecho hc h0 hlen hfits hne hlines⟩
  · rintro ⟨hfits, hun⟩
    exact echo_transparent htx hecho hc h0 hfits hne hlines hun

theorem echo_transparent_iff_csq :
    EchoTransparent Config.default (ascii "AT+CSQ") [ascii "+CSQ: 21,0", ascii "OK"] :=
  (echo_transparent_iff Config.default_fits (by decide) rfl ⟨by decide, by decide, by decide⟩
    (by decide) (by decide) (by decide)
    (List.forall_mem_cons.mpr ⟨⟨by decide, by decide, by decide⟩,
      List.forall_mem_singleton.mpr ⟨by decide, by decide, by decide⟩⟩)).mpr
    ⟨by decide, by decide⟩

/-- Without echo, the line `ATTACHED` behind an `AT` is lost. -/
theorem echo_shows :
    ¬EchoTransparent Config.default (ascii "AT") [ascii "ATTACHED", ascii "OK"] := by
  intro h
  obtain ⟨w, hw, hp⟩ := Reachable.of_execAll (P := fun _ _ => True) plainEnv 1
    [.api (.send (some probe))] () (fun _ => trivial)
    (fun w : World Config.default Unit => decide (w.eng.state = .idle ∧ 0 < w.eng.qCount ∧
      rxringEmpty w.eng.rx = true ∧ w.eng.lfsm = .start ∧ (transmit plainEnv w).1 = true ∧
      (w.eng.queue w.eng.qTail).cmd.bytes = ascii "AT" ∧
      (consume (invoke plainEnv 1) plainEnv
        (ascii "AT" ++ 13 :: transcript [ascii "ATTACHED", ascii "OK"])
        (transmit plainEnv w).2).map (reports ·.log) =
          some [.fired 1 7 ⟨.ok, 0, 1, [ascii "ATTACHED"]⟩] ∧
      (consume (invoke plainEnv 1) plainEnv (transcript [ascii "ATTACHED", ascii "OK"])
        (transmit plainEnv w).2).map (reports ·.log) = some [.fired 1 7 ⟨.ok, 0, 0, []⟩]))
    (by decide +kernel)
  obtain ⟨hidle, hcount, hempty, hlfsm, hsent, hcmd, hechoed, halone⟩ := of_decide_eq_true hp
  have hjust : JustSent (ascii "AT") (transmit plainEnv w).2 := by
    rw [← hcmd]
    exact .of_idle hw hempty hidle hcount hlfsm hsent
  have heq := h plainEnv 1 _ () hjust
  have hlines := hechoed.symm.trans (heq.trans halone)
  revert hlines
  decide

end LibAt
