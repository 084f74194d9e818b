import LibAt.Lifecycle
import LibAt.RxRing

/-!
# The drain loop as a function of the bytes

`at_process` takes bytes out of the ring one at a time and puts each through
the line FSM. What that does depends on the bytes and not on where in the ring
they stood: `consume` is the loop without the ring. Nor does the dispatch of a
line look at everything in the engine, or at the log. A change of the engine
that it does not notice is `Inert`, and commutes with it
(`engineDispatchLine_adapt`).
-/

namespace LibAt

variable {cfg : Config} {σ : Type}

/-! ## Consuming bytes -/

/-- The drain loop of `at_process` on a given list of bytes. -/
def consume (invoke : Invocation → World cfg σ → Option (World cfg σ)) (env : Env σ) :
    List UInt8 → World cfg σ → Option (World cfg σ)
  | [], w => some w
  | b :: bs, w => (processByte invoke env b w).bind (consume invoke env bs)

/-- Bytes are consumed one after the other, so it does not matter where they are cut. -/
theorem consume_append (invoke : Invocation → World cfg σ → Option (World cfg σ)) (env : Env σ)
    (as bs : List UInt8) (w : World cfg σ) :
    consume invoke env (as ++ bs) w = (consume invoke env as w).bind (consume invoke env bs) := by
  induction as generalizing w with
  | nil => rfl
  | cons a as ih =>
    rw [List.cons_append, consume, consume, Option.bind_assoc]
    exact Option.bind_congr fun w' _ => ih w'

/-! ## What a dispatch does not notice -/

/-- Change the engine, and let the log begin with other entries. -/
def World.adapt (u : Engine cfg → Engine cfg) (past : List (Event cfg)) (w : World cfg σ) :
    World cfg σ :=
  ⟨u w.eng, w.app, past ++ w.log⟩

/-- Change the engine. -/
def World.mapEng (u : Engine cfg → Engine cfg) (w : World cfg σ) : World cfg σ := w.putEng (u w.eng)

section

variable (u : Engine cfg → Engine cfg) (past : List (Event cfg)) (w : World cfg σ)

@[simp] theorem World.adapt_eng : (w.adapt u past).eng = u w.eng := rfl
@[simp] theorem World.adapt_app : (w.adapt u past).app = w.app := rfl
@[simp] theorem World.adapt_log : (w.adapt u past).log = past ++ w.log := rfl
@[simp] theorem World.mapEng_eng : (w.mapEng u).eng = u w.eng := rfl
@[simp] theorem World.mapEng_app : (w.mapEng u).app = w.app := rfl
@[simp] theorem World.mapEng_log : (w.mapEng u).log = w.log := rfl

/-- A change of the engine alone is one with no past. -/
theorem World.mapEng_eq_adapt : (World.mapEng u : World cfg σ → World cfg σ) = World.adapt u [] :=
  rfl

/-- A log entry goes behind the others. -/
theorem World.emit_adapt (ev : Event cfg) :
    (w.adapt u past).emit ev = (w.emit ev).adapt u past := by
  rw [World.emit, World.emit, World.adapt, World.adapt, List.append_assoc]

/-- The changed world with another engine. -/
theorem World.putEng_adapt {u : Engine cfg → Engine cfg} {g g' : Engine cfg} (w : World cfg σ)
    (h : u g = g') : (w.adapt u past).putEng g' = (w.putEng g).adapt u past := by
  rw [← h]
  rfl

end

/-- A change of the engine that leaves alone what the dispatch of a line reads,
except possibly for the echo test, and does not depend on what it writes. -/
structure Inert (u : Engine cfg → Engine cfg) : Prop where
  state : ∀ g, (u g).state = g.state
  queue : ∀ g, (u g).queue = g.queue
  qTail : ∀ g, (u g).qTail = g.qTail
  pool : ∀ g, (u g).pool = g.pool
  response : ∀ g, (u g).response = g.response
  urcTable : ∀ g, (u g).urcTable = g.urcTable
  traceHook : ∀ g, (u g).traceHook = g.traceHook
  setState : ∀ g s, u { g with state := s } = { u g with state := s }
  rearm : ∀ g s t, u { g with state := s, timerMs := t } = { u g with state := s, timerMs := t }
  disarm : ∀ g, u { g with echoArmed := false } = { u g with echoArmed := false }
  setPool : ∀ g p, u { g with pool := p } = { u g with pool := p }
  setResponse : ∀ g r, u { g with response := r } = { u g with response := r }
  dequeue : ∀ g i, u (dequeue i g) = dequeue i (u g)

section

variable {invoke : Invocation → World cfg σ → Option (World cfg σ)} {env : Env σ}
  {u : Engine cfg → Engine cfg} {past : List (Event cfg)}

/-- Foreign code does not notice the change, nor what is in the log. -/
abbrev Oblivious (invoke : Invocation → World cfg σ → Option (World cfg σ))
    (u : Engine cfg → Engine cfg) (past : List (Event cfg)) : Prop :=
  ∀ inv w, invoke inv (w.adapt u past) = (invoke inv w).map (World.adapt u past)

/-- Foreign code does not notice the change either. -/
abbrev Unnoticed (invoke : Invocation → World cfg σ → Option (World cfg σ))
    (u : Engine cfg → Engine cfg) : Prop :=
  ∀ inv w, invoke inv (w.mapEng u) = (invoke inv w).map (World.mapEng u)

/-- A notification does not notice an inert change, -/
theorem notify_adapt (hinv : Oblivious invoke u past) (e : CmdEntry cfg) (r : Response)
    (w : World cfg σ) :
    notify invoke e r (w.adapt u past) = (notify invoke e r w).map (World.adapt u past) := by
  rw [notify, notify]
  cases e.cb with
  | none => rfl
  | some f =>
    dsimp only
    rw [World.emit_adapt]
    exact hinv (.completion f r e.user) (w.emit (.fired f e.user r))

/-- nor does a completion. -/
theorem engineFinalize_adapt (hu : Inert u) (hinv : Oblivious invoke u past) (status : AtResult)
    (c : Int) (w : World cfg σ) :
    engineFinalize invoke status c (w.adapt u past) =
      (engineFinalize invoke status c w).map (World.adapt u past) := by
  have hr : finalResponse status c (u w.eng) = finalResponse status c w.eng := by
    rw [finalResponse, hu.pool]
    rfl
  have hset : (w.adapt u past).putEng (setResponse (finalResponse status c w.eng) (u w.eng)) =
      (w.putEng (setResponse (finalResponse status c w.eng) w.eng)).adapt u past :=
    w.putEng_adapt past (hu.setResponse _ _)
  simp only [engineFinalize, World.adapt_eng, hr, hset, hu.qTail, hu.queue,
    notify_adapt hinv, Option.bind_eq_bind, Option.pure_def]
  rw [Option.bind_map, Option.map_bind]
  refine Option.bind_congr fun w' _ => ?_
  have hput : (w'.adapt u past).putEng (dequeue w.eng.qTail (u w'.eng)) =
      (w'.putEng (dequeue w.eng.qTail w'.eng)).adapt u past :=
    w'.putEng_adapt past (hu.dequeue _ _)
  simp only [Function.comp_apply, World.adapt_eng, hput, Option.map_some]
  rw [World.emit_adapt]

/-- Neither do the trace hook, -/
theorem traceTx_adapt (hu : Inert u) (data : List UInt8) (w : World cfg σ) :
    traceTx data (w.adapt u past) = (traceTx data w).adapt u past := by
  rw [traceTx, traceTx, World.adapt_eng, hu.traceHook]
  split
  · exact w.emit_adapt u past _
  · rfl

/-- a write, -/
theorem atPlatformWrite_adapt (site : WriteSite) (data : List UInt8) (w : World cfg σ) :
    atPlatformWrite env site data (w.adapt u past) =
      ((atPlatformWrite env site data w).1, (atPlatformWrite env site data w).2.adapt u past) :=
  Prod.ext rfl ((w.putApp (env.write w.app data).2).emit_adapt u past _)

/-- or the answer to a prompt. -/
theorem answerPrompt_adapt (hu : Inert u) (e : CmdEntry cfg) (w : World cfg σ) :
    answerPrompt env e (w.adapt u past) =
      ((answerPrompt env e w).1, (answerPrompt env e w).2.adapt u past) := by
  have hset : (w.adapt u past).putEng
      { u w.eng with state := .prompt, timerMs := cfg.promptTimeoutMs } =
        (w.putEng { w.eng with state := .prompt, timerMs := cfg.promptTimeoutMs }).adapt u past :=
    w.putEng_adapt past (hu.rearm _ _ _)
  have hwaiting (v : World cfg σ) : (v.adapt u past).putEng { u v.eng with state := .waiting } =
      (v.putEng { v.eng with state := .waiting }).adapt u past :=
    v.putEng_adapt past (hu.setState _ _)
  simp only [answerPrompt, World.adapt_eng, hset, atPlatformWrite_adapt, traceTx_adapt hu]
  split
  · rfl
  · split
    · rfl
    · exact congrArg (Prod.mk true) (hwaiting _)

/-- The URC table is what it was, -/
theorem urcMatch_inert (hu : Inert u) (l : List UInt8) (g : Engine cfg) :
    urcMatch l (u g) = urcMatch l g := by
  rw [urcMatch, urcMatch, hu.urcTable]

/-- so that the same handler is called. -/
theorem urcDispatch_adapt (hu : Inert u) (hinv : Oblivious invoke u past) (l : List UInt8)
    (w : World cfg σ) :
    urcDispatch invoke l (w.adapt u past) =
      (urcDispatch invoke l w).map fun r => (r.1, r.2.adapt u past) := by
  simp only [urcDispatch, World.adapt_eng, urcMatch_inert hu, hu.urcTable, Option.bind_eq_bind]
  rw [Option.map_bind]
  refine Option.bind_congr fun m _ => ?_
  cases m with
  | none => rfl
  | some i =>
    have h := hinv (.handler (w.eng.urcTable i).cb l (w.eng.urcTable i).user)
      ((w.emit (.line .urc l)).emit (.urc (w.eng.urcTable i).cb (w.eng.urcTable i).user l))
    dsimp only [Function.comp_apply]
    rw [Option.map_bind, World.emit_adapt, World.emit_adapt]
    refine (congrArg (Option.bind · _) h).trans ?_
    rw [Option.bind_map]
    rfl

/-- A payload line goes into the same place in the pool. -/
theorem accumulate_adapt (hu : Inert u) (l : List UInt8) (w : World cfg σ) :
    accumulate l (w.adapt u past) = (accumulate l w).adapt u past := by
  have happend : respPoolAppend (u w.eng).pool l = respPoolAppend w.eng.pool l := by rw [hu.pool]
  simp only [accumulate, World.adapt_eng, hu.state]
  split
  · simp only [World.emit_adapt, World.emit_eng, World.adapt_eng, happend]
    split
    · exact (w.emit (.line .payload l)).putEng_adapt past (hu.setPool _ _)
    · refine (w.emit (.line .payload l)).putEng_adapt past ?_
      rw [hu.setResponse, hu.response]
  · exact w.emit_adapt u past _

/-- The prompt test looks at the state and the line only. -/
theorem isPrompt_inert (hu : Inert u) (g : Engine cfg) (l : List UInt8) :
    isPrompt (u g) l = isPrompt g l := by
  rw [isPrompt, isPrompt, hu.state]

/-- **A dispatch does not notice an inert change**, if the echo test does
not. -/
theorem engineDispatchLine_adapt (hu : Inert u) (hinv : Oblivious invoke u past) {l : List UInt8}
    {w : World cfg σ} (hecho : isEcho (u w.eng) l = isEcho w.eng l) :
    engineDispatchLine invoke env l (w.adapt u past) =
      (engineDispatchLine invoke env l w).map (World.adapt u past) := by
  rw [engineDispatchLine, engineDispatchLine, World.adapt_eng, hecho, isPrompt_inert hu, hu.state,
    hu.queue, hu.qTail]
  split
  · rfl
  split
  · rw [← hu.disarm, World.putEng_adapt past w rfl, World.emit_adapt]
    rfl
  split
  · dsimp only
    split
    · rw [World.emit_adapt, answerPrompt_adapt hu]
      rcases answerPrompt env (w.eng.queue w.eng.qTail) (w.emit (.line (.prompt true) l)) with
        ⟨_ | _, w₁⟩
      · exact engineFinalize_adapt hu hinv .errIo 0 w₁
      · rfl
    · rw [World.emit_adapt]
      rfl
  split
  · rw [World.emit_adapt]
    exact engineFinalize_adapt hu hinv _ _ (w.emit (.line .final l))
  · rw [urcDispatch_adapt hu hinv, Option.map_map, Option.map_map]
    congr 1
    funext r
    simp only [Function.comp_apply, accumulate_adapt hu]
    split <;> rfl

/-! ## Bytes -/

/-- An inert change that the line FSM does not notice either. -/
structure InertByte (u : Engine cfg → Engine cfg) : Prop extends Inert u where
  lfsm : ∀ g, (u g).lfsm = g.lfsm
  line : ∀ g, (u g).line = g.line
  setLine : ∀ g l s, u { g with line := l, lfsm := s } = { u g with line := l, lfsm := s }

/-- Change the engine in the outcome of a byte. -/
def ByteStep.mapEng (u : Engine cfg → Engine cfg) : ByteStep cfg → ByteStep cfg
  | .more g => .more (u g)
  | .line l => .line l

/-- The line FSM does not notice a change that is inert for bytes, -/
theorem lfsmByte_mapEng (hu : InertByte u) (b : UInt8) (g : Engine cfg) :
    lfsmByte b (u g) = (lfsmByte b g).mapEng u := by
  rw [lfsmByte, lfsmByte, hu.lfsm, hu.line]
  split <;> repeat' split
  all_goals first
    | rfl
    | exact congrArg ByteStep.more (hu.setLine g _ _).symm

/-- at the end of a line either. -/
theorem lineDone_adapt (hu : InertByte u) (w : World cfg σ) :
    lineDone (w.adapt u past) = (lineDone w).adapt u past :=
  w.putEng_adapt past (hu.setLine _ _ _)

/-- **A byte does not notice an inert change**, unless it completes a line for
which the echo test does. -/
theorem processByte_mapEng (hu : InertByte u) (hinv : Unnoticed invoke u) {b : UInt8}
    {w : World cfg σ}
    (hecho : ∀ l, lfsmByte b w.eng = .line l → isEcho (u w.eng) l = isEcho w.eng l) :
    processByte invoke env b (w.mapEng u) =
      (processByte invoke env b w).map (World.mapEng u) := by
  rw [processByte, processByte, World.mapEng_eng, lfsmByte_mapEng hu]
  cases hb : lfsmByte b w.eng with
  | more g => rfl
  | line l =>
    simp only [ByteStep.mapEng]
    rw [World.mapEng_eq_adapt, engineDispatchLine_adapt hu.toInert hinv (hecho l hb),
      Option.map_map, Option.map_map]
    congr 1
    exact funext (lineDone_adapt hu)

/-- **Consuming bytes** does not notice such a change, if the echo test does not. -/
theorem consume_mapEng (hu : InertByte u) (hinv : Unnoticed invoke u)
    (hecho : ∀ g l, isEcho (u g) l = isEcho g l) (bs : List UInt8) (w : World cfg σ) :
    consume invoke env bs (w.mapEng u) = (consume invoke env bs w).map (World.mapEng u) := by
  induction bs generalizing w with
  | nil => rfl
  | cons b bs ih =>
    rw [consume, consume, processByte_mapEng hu hinv fun l _ => hecho w.eng l, Option.bind_map,
      Option.map_bind]
    exact Option.bind_congr fun w' _ => ih w'

/-! ## The ring -/

/-- `g_at.rx = r`. -/
def setRx (r : RxRing cfg) (g : Engine cfg) : Engine cfg := { g with rx := r }

/-- The ring is nothing that a byte looks at once it is taken. -/
theorem setRx_inert (r : RxRing cfg) : InertByte (setRx r) := by
  constructor <;> first | intros; rfl | constructor <;> intros <;> rfl

/-- The ring when everything in it has been read. -/
def RxRing.drained (r : RxRing cfg) : RxRing cfg := { r with tail := r.head }

/-- Nothing comes out of an empty ring only, -/
theorem rxringPop_none {r : RxRing cfg} (h : rxringPop r = none) :
    rxringBytes r = [] ∧ r.drained = r := by
  rw [rxringPop] at h
  split at h
  · rename_i hempty
    refine ⟨rxringEmpty_iff.mp hempty, ?_⟩
    obtain ⟨head, tail, buf⟩ := r
    obtain rfl : head = tail := beq_iff_eq.mp hempty
    rfl
  · cases h

/-- and what comes out of another does not change where it will be empty. -/
theorem rxringPop_drained {r r' : RxRing cfg} {b : UInt8} (h : rxringPop r = some (b, r')) :
    r'.drained = r.drained := by
  rw [rxringPop] at h
  split at h
  · cases h
  · obtain ⟨-, rfl⟩ := Prod.mk.inj (Option.some.inj h)
    rfl

/-- **The drain loop consumes what is in the ring**, when foreign code has
nothing to do with the ring. -/
theorem drainRx_eq_consume (hinv : ∀ r : RxRing cfg, Unnoticed invoke (setRx r)) (k : Nat) :
    ∀ w : World cfg σ, rxringUsed w.eng.rx ≤ k →
      drainRx invoke env (k + 1) w =
        (consume invoke env (rxringBytes w.eng.rx) w).map
          (World.mapEng (setRx w.eng.rx.drained)) := by
  induction k with
  | zero =>
    intro w hk
    rw [drainRx]
    cases hp : rxringPop w.eng.rx with
    | none =>
      obtain ⟨hbytes, hdrained⟩ := rxringPop_none hp
      rw [hbytes, hdrained]
      rfl
    | some r => exact absurd (rxringUsed_pop hp) (by omega)
  | succ k ih =>
    intro w hk
    rw [drainRx]
    cases hp : rxringPop w.eng.rx with
    | none =>
      obtain ⟨hbytes, hdrained⟩ := rxringPop_none hp
      rw [hbytes, hdrained]
      rfl
    | some r =>
      obtain ⟨b, rx⟩ := r
      have hused := rxringUsed_pop hp
      rw [rxringPop_bytes hp, consume, ← rxringPop_drained hp]
      change (processByte invoke env b (w.mapEng (setRx rx))).bind (drainRx invoke env (k + 1)) = _
      rw [processByte_mapEng (setRx_inert rx) (hinv rx) fun _ _ => rfl, Option.bind_map,
        Option.map_bind]
      refine Option.bind_congr fun w' _ => ?_
      -- the rest of the bytes, with the ring put back
      have hrest := ih (w'.mapEng (setRx rx)) (by change rxringUsed rx ≤ k; omega)
      refine hrest.trans ?_
      change (consume invoke env (rxringBytes rx) (w'.mapEng (setRx rx))).map _ = _
      rw [consume_mapEng (setRx_inert rx) (hinv rx) fun _ _ => rfl, Option.map_map]
      rfl

end

end LibAt
