import LibAt.Engine
import LibAt.Interaction

/-!
# Dispatch, completion, and the API

The part of `at.c` that calls out: the write hook, completion callbacks and
URC handlers. Callbacks and handlers may call back into the API, so each
function here takes `invoke`, the way a hook is run, as a parameter, and
`LibAt.invoke` ties the knot: it runs the hook's program (`Interaction`), each
of whose API calls runs the same functions at one level less of nesting. The
`Nat` argument bounds the nesting depth and the number of rounds of each loop;
`none` means that it did not suffice.

A `World` is the engine, the private state `σ` of everything outside the
library (application, board support), and the chronological log of what
happened. The log is bookkeeping: nothing reads it.
-/

namespace LibAt

variable {cfg : Config} {σ : Type}

/-! ## What is logged -/

/-- The four places that call `at_platform_write`. -/
inductive WriteSite where
  | cmd | cr | body | ctrlZ
  deriving DecidableEq, Repr

/-- The branch `engine_dispatch_line` takes for a line. `prompt true` is a
prompt that is answered with the body of the active command, `prompt false`
one the active command has no body for; `stray` is a line nobody waits for. -/
inductive LineKind where
  | echo
  | prompt (answered : Bool)
  | final
  | urc
  | payload
  | stray
  deriving DecidableEq, Repr

/-- The two kinds of foreign code the engine runs. -/
inductive HookKind where
  | completion
  | handler
  deriving DecidableEq, Repr

/-- The API functions a callback or handler may call. `at_process` is not
re-entrant and not among them. -/
inductive ApiCall where
  | send (desc : Option CmdDesc)
  | abort
  | reset
  | feed (data : List UInt8)
  | tick (msElapsed : Nat)
  | registerUrc (pre : Option (List UInt8)) (cb : Option Ptr) (user : Ptr)
  | deregisterUrc (pre : Option (List UInt8))
  | state
  | queueDepth
  deriving DecidableEq, Repr

/-- What an API function returns. -/
inductive ApiRet where
  | unit
  | result (r : AtResult)
  | state (s : AtState)
  | depth (n : Nat)
  deriving DecidableEq, Repr

/-- A log entry.

* `accepted d` — `at_send` returned `AT_OK` for `d`;
* `start e` — `engine_start_next` took up the command `e`;
* `write site data n` — `at_platform_write(data)` returned `n`;
* `trace data` — the trace hook was called with direction `'T'`;
* `line k l` — `engine_dispatch_line` got the line `l` and took branch `k`;
* `urc f u l` — the handler `f` was called;
* `fired f u r` — the completion callback `f` was called;
* `completed e` — the command `e` left the queue;
* `nested k c s` — a hook of kind `k` called `c` while the engine state was
  `s`. -/
inductive Event (cfg : Config) where
  | accepted (d : CmdDesc)
  | start (e : CmdEntry cfg)
  | write (site : WriteSite) (data : List UInt8) (n : Nat)
  | trace (data : List UInt8)
  | line (kind : LineKind) (l : List UInt8)
  | urc (f : Ptr) (user : Ptr) (l : List UInt8)
  | fired (f : Ptr) (user : Ptr) (r : Response)
  | completed (e : CmdEntry cfg)
  | nested (by_ : HookKind) (c : ApiCall) (s : AtState)
  deriving DecidableEq

/-! ## The world and the environment -/

/-- The engine, the state of the code around it, and the log. -/
structure World (cfg : Config) (σ : Type) where
  eng : Engine cfg
  app : σ
  log : List (Event cfg)

namespace World

/-- Add a log entry. -/
def emit (ev : Event cfg) (w : World cfg σ) : World cfg σ := { w with log := w.log ++ [ev] }

/-- Replace the private state. -/
def putApp (s : σ) (w : World cfg σ) : World cfg σ := { w with app := s }

/-- Replace the engine. -/
def putEng (g : Engine cfg) (w : World cfg σ) : World cfg σ := { w with eng := g }

variable (ev : Event cfg) (s : σ) (g : Engine cfg) (w : World cfg σ)

@[simp] theorem emit_eng : (w.emit ev).eng = w.eng := rfl
@[simp] theorem emit_app : (w.emit ev).app = w.app := rfl
@[simp] theorem emit_log : (w.emit ev).log = w.log ++ [ev] := rfl
@[simp] theorem putApp_eng : (w.putApp s).eng = w.eng := rfl
@[simp] theorem putApp_app : (w.putApp s).app = s := rfl
@[simp] theorem putApp_log : (w.putApp s).log = w.log := rfl
@[simp] theorem putEng_eng : (w.putEng g).eng = g := rfl
@[simp] theorem putEng_app : (w.putEng g).app = w.app := rfl
@[simp] theorem putEng_log : (w.putEng g).log = w.log := rfl

end World

/-- A hook's program: what it calls and how it changes the private state. -/
abbrev Hook (σ : Type) := Interaction ApiCall ApiRet σ

/-- The code around the library: the write hook, and what the code at each
callback address does. -/
structure Env (σ : Type) where
  /-- `at_platform_write`: the returned count and the new private state -/
  write : σ → List UInt8 → Nat × σ
  /-- the completion callback at an address -/
  completion : Ptr → Response → Ptr → σ → Hook σ
  /-- the URC handler at an address -/
  handler : Ptr → List UInt8 → Ptr → σ → Hook σ

/-- A call of foreign code. -/
inductive Invocation where
  | completion (f : Ptr) (r : Response) (user : Ptr)
  | handler (f : Ptr) (l : List UInt8) (user : Ptr)

/-- Which kind of foreign code it is. -/
def Invocation.kind : Invocation → HookKind
  | completion .. => .completion
  | handler .. => .handler

/-- The program an invocation runs. -/
def Env.hook (env : Env σ) : Invocation → σ → Hook σ
  | .completion f r u => env.completion f r u
  | .handler f l u => env.handler f l u

/-- `at_platform_write`. -/
def atPlatformWrite (env : Env σ) (site : WriteSite) (data : List UInt8) (w : World cfg σ) :
    Nat × World cfg σ :=
  let (n, s) := env.write w.app data
  (n, (w.putApp s).emit (.write site data n))

/-- `if (g_trace_cb) g_trace_cb('T', data, ...)`. -/
def traceTx (data : List UInt8) (w : World cfg σ) : World cfg σ :=
  if w.eng.traceHook.isSome then w.emit (.trace data) else w

section

variable (invoke : Invocation → World cfg σ → Option (World cfg σ)) (env : Env σ)

/-! ## Completion -/

/-- `if (e->cb) e->cb(&resp, e->user);`. -/
def notify (e : CmdEntry cfg) (r : Response) (w : World cfg σ) : Option (World cfg σ) :=
  match e.cb with
  | none => some w
  | some f => invoke (.completion f r e.user) (w.emit (.fired f e.user r))

/-- The response `engine_finalize` hands to the callback. -/
def finalResponse (status : AtResult) (errCode : Int) (g : Engine cfg) : Response :=
  ⟨status, errCode, g.pool.count, g.pool.lines⟩

/-- `g_at.response = r`. -/
def setResponse (r : Response) (g : Engine cfg) : Engine cfg := { g with response := r }

/-- The dequeue part of `engine_finalize`. `slot` is the slot the entry
pointer was taken from, before the callback ran. -/
def dequeue (slot : Fin cfg.cmdQueueDepth) (g : Engine cfg) : Engine cfg :=
  { g with
    queue := Function.update g.queue slot (.zero cfg)
    qTail := nextSlot g.qTail
    qCount := (g.qCount + 255) % 256
    state := .idle
    timerMs := 0
    echoArmed := false }

/-- `engine_finalize`. -/
def engineFinalize (status : AtResult) (errCode : Int) (w : World cfg σ) :
    Option (World cfg σ) := do
  let r := finalResponse status errCode w.eng
  let slot := w.eng.qTail
  let e := w.eng.queue slot
  let w ← notify invoke e r (w.putEng (setResponse r w.eng))
  return (w.putEng (dequeue slot w.eng)).emit (.completed e)

/-! ## Transmission -/

/-- The state `engine_start_next` sets up before it writes. -/
def startState (e : CmdEntry cfg) (g : Engine cfg) : Engine cfg :=
  { g with
    pool := .zero cfg
    response := ⟨.pending, 0, 0, []⟩
    echoExpect := if cfg.echoCancel then strCopySafe cfg.tx_pos e.cmd.bytes else g.echoExpect
    echoLen := if cfg.echoCancel then (strCopySafe cfg.tx_pos e.cmd.bytes).length % 2 ^ 16
      else g.echoLen
    echoArmed := cfg.echoCancel
    timerMs := e.timeoutMs
    state := .sending }

/-- `engine_start_next` up to the outcome of its writes: `true` when the
command and its CR went out whole. -/
def transmit (w : World cfg σ) : Bool × World cfg σ :=
  let e := w.eng.queue w.eng.qTail
  let w := (w.putEng (startState e w.eng)).emit (.start e)
  let (n, w) := atPlatformWrite env .cmd e.cmd.bytes w
  if n ≠ e.cmd.length then (false, w)
  else
    let (n, w) := atPlatformWrite env .cr [13] w
    if n ≠ 1 then (false, w)
    else
      let w := traceTx [13] (traceTx e.cmd.bytes w)
      (true, w.putEng { w.eng with state := .waiting })

/-- `engine_start_next`. -/
def engineStartNext (w : World cfg σ) : Option (World cfg σ) :=
  match transmit env w with
  | (true, w) => some w
  | (false, w) => engineFinalize invoke .errIo 0 w

/-- Answering a prompt, up to the outcome of the writes: `true` when the body
and the Ctrl-Z went out whole. -/
def answerPrompt (e : CmdEntry cfg) (w : World cfg σ) : Bool × World cfg σ :=
  let w := w.putEng { w.eng with state := .prompt, timerMs := cfg.promptTimeoutMs }
  let (n, w) := atPlatformWrite env .body e.body.bytes w
  if n ≠ e.body.length then (false, w)
  else
    let (n, w) := atPlatformWrite env .ctrlZ [26] w
    if n ≠ 1 then (false, w)
    else
      let w := traceTx [26] (traceTx e.body.bytes w)
      (true, w.putEng { w.eng with state := .waiting })

/-! ## Line dispatch -/

/-- `urc_dispatch`: whether a handler took the line. -/
def urcDispatch (line : List UInt8) (w : World cfg σ) : Option (Bool × World cfg σ) := do
  match ← urcMatch line w.eng with
  | none => return (false, w)
  | some i =>
    let u := w.eng.urcTable i
    let w := (w.emit (.line .urc line)).emit (.urc u.cb u.user line)
    let w ← invoke (.handler u.cb line u.user) w
    return (true, w)

/-- The end of `engine_dispatch_line`: a line that is no URC is kept as a
response line while a command waits. -/
def accumulate (line : List UInt8) (w : World cfg σ) : World cfg σ :=
  if w.eng.state = .waiting then
    let w := w.emit (.line .payload line)
    match respPoolAppend w.eng.pool line with
    | some p => w.putEng { w.eng with pool := p }
    | none => w.putEng { w.eng with response := { w.eng.response with status := .errOverflow } }
  else w.emit (.line .stray line)

/-- `engine_dispatch_line`. -/
def engineDispatchLine (line : List UInt8) (w : World cfg σ) : Option (World cfg σ) :=
  if line.length = 0 then some w
  else if isEcho w.eng line then
    some ((w.putEng { w.eng with echoArmed := false }).emit (.line .echo line))
  else if isPrompt w.eng line then
    let e := w.eng.queue w.eng.qTail
    if e.prompt = .sms ∧ e.hasBody then
      match answerPrompt env e (w.emit (.line (.prompt true) line)) with
      | (true, w) => some w
      | (false, w) => engineFinalize invoke .errIo 0 w
    else some (w.emit (.line (.prompt false) line))
  else
    match if w.eng.state = .waiting then engineIsFinal line else none with
    | some (status, errCode) =>
      engineFinalize invoke status errCode (w.emit (.line .final line))
    | none =>
      (urcDispatch invoke line w).map fun r => if r.1 then r.2 else accumulate line r.2

/-! ## `at_process` -/

/-- After `engine_dispatch_line`: `line_len = 0; lfsm = LFSM_START;`. -/
def lineDone (w : World cfg σ) : World cfg σ :=
  w.putEng { w.eng with line := [], lfsm := .start }

/-- One round of the drain loop, for the byte `b`. -/
def processByte (b : UInt8) (w : World cfg σ) : Option (World cfg σ) :=
  match lfsmByte b w.eng with
  | .more g => some (w.putEng g)
  | .line l => (engineDispatchLine invoke env l w).map lineDone

/-- `while (rxring_pop(&g_at.rx, &b))`. -/
def drainRx : Nat → World cfg σ → Option (World cfg σ)
  | 0, _ => none
  | fuel + 1, w =>
    match rxringPop w.eng.rx with
    | none => some w
    | some (b, rx) => do
      let w ← processByte invoke env b (w.putEng { w.eng with rx := rx })
      drainRx fuel w

/-- Step 2 of `at_process`. -/
def checkTimeout (w : World cfg σ) : Option (World cfg σ) :=
  if (w.eng.state = .waiting ∨ w.eng.state = .prompt) ∧ w.eng.timerMs = 0 then
    engineFinalize invoke .errTimeout 0 w
  else some w

/-- Step 3 of `at_process`. -/
def startIfIdle (w : World cfg σ) : Option (World cfg σ) :=
  if w.eng.state = .idle ∧ w.eng.qCount > 0 then engineStartNext invoke env w else some w

/-- `at_process`. -/
def atProcess (fuel : Nat) (w : World cfg σ) : Option (World cfg σ) := do
  let w ← drainRx invoke env fuel w
  let w ← checkTimeout invoke w
  startIfIdle invoke env w

/-! ## `at_abort`, `at_reset`, `at_deinit` -/

/-- `at_abort`. -/
def atAbort (w : World cfg σ) : Option (World cfg σ) :=
  if w.eng.state = .waiting ∨ w.eng.state = .prompt then engineFinalize invoke .errAborted 0 w
  else some w

/-- The response a drained command gets. -/
def abortedResponse : Response := ⟨.errAborted, 0, 0, []⟩

/-- One round of the drain loop of `at_reset`. -/
def drainOne (w : World cfg σ) : Option (World cfg σ) := do
  let e := w.eng.queue w.eng.qTail
  let w ← notify invoke e abortedResponse w
  return (w.putEng { w.eng with
    qTail := nextSlot w.eng.qTail
    qCount := (w.eng.qCount + 255) % 256 }).emit (.completed e)

/-- `while (g_at.q_count > 0U)`. -/
def drainQueue : Nat → World cfg σ → Option (World cfg σ)
  | 0, _ => none
  | fuel + 1, w =>
    if w.eng.qCount > 0 then (drainOne invoke w).bind (drainQueue fuel) else some w

/-- The end of `at_reset`. -/
def resetState (g : Engine cfg) : Engine cfg :=
  { g with
    rx := { g.rx with head := 0, tail := 0 }
    state := .idle
    lfsm := .start
    line := []
    echoArmed := false
    pool := .zero cfg }

/-- The first part of `at_reset`: abort the active command. -/
def abortActive (w : World cfg σ) : Option (World cfg σ) :=
  if w.eng.state ≠ .idle ∧ w.eng.qCount > 0 then engineFinalize invoke .errAborted 0 w
  else some w

/-- `at_reset`. -/
def atReset (fuel : Nat) (w : World cfg σ) : Option (World cfg σ) := do
  let w ← abortActive invoke w
  let w ← drainQueue invoke fuel w
  return w.putEng (resetState w.eng)

/-! ## The API as hooks and the application see it -/

/-- `at_send`, logging an accepted descriptor. -/
def World.send (desc : Option CmdDesc) (w : World cfg σ) : AtResult × World cfg σ :=
  let (r, g) := atSend desc w.eng
  match r, desc with
  | .ok, some d => (r, (w.putEng g).emit (.accepted d))
  | _, _ => (r, w.putEng g)

/-- One API call. -/
def apiCall (fuel : Nat) : ApiCall → World cfg σ → Option (ApiRet × World cfg σ)
  | .send desc, w =>
    let (r, w) := w.send desc
    some (.result r, w)
  | .abort, w => (atAbort invoke w).map (ApiRet.unit, ·)
  | .reset, w => (atReset invoke fuel w).map (ApiRet.unit, ·)
  | .feed data, w => some (.unit, w.putEng (atFeed data w.eng))
  | .tick ms, w => some (.unit, w.putEng (atTick ms w.eng))
  | .registerUrc pre cb user, w =>
    (atRegisterUrc pre cb user w.eng).map fun r => (.result r.1, w.putEng r.2)
  | .deregisterUrc pre, w =>
    (atDeregisterUrc pre w.eng).map fun r => (.result r.1, w.putEng r.2)
  | .state, w => some (.state w.eng.state, w)
  | .queueDepth, w => some (.depth w.eng.qCount, w)

end

/-- Run foreign code, nested at most `n` deep. -/
def invoke (env : Env σ) : Nat → Invocation → World cfg σ → Option (World cfg σ)
  | 0, _, _ => none
  | n + 1, inv, w =>
    (env.hook inv w.app).run World.app World.putApp
      (fun c w => apiCall (invoke env n) n c (w.emit (.nested inv.kind c w.eng.state))) w

/-- What the application calls. -/
inductive TopCall where
  | api (c : ApiCall)
  | process
  | setTraceHook (hook : Option Ptr)
  | deinit
  deriving DecidableEq, Repr

/-- `at_deinit` behind its `at_reset`. -/
def deinitState (g : Engine cfg) : Engine cfg :=
  { g with urcTable := fun _ => .zero cfg, state := .idle, traceHook := none }

/-- A call from the application, with the environment it runs in. -/
def exec (env : Env σ) (fuel : Nat) : TopCall → World cfg σ → Option (ApiRet × World cfg σ)
  | .api c, w => apiCall (invoke env fuel) fuel c w
  | .process, w => (atProcess (invoke env fuel) env fuel w).map (ApiRet.unit, ·)
  | .setTraceHook hook, w => some (.unit, w.putEng { w.eng with traceHook := hook })
  | .deinit, w =>
    (atReset (invoke env fuel) fuel w).map fun w => (.unit, w.putEng (deinitState w.eng))

/-! ## Runs -/

/-- What the hooks of an environment are allowed to call. -/
def Env.Respects (env : Env σ) (allowed : HookKind → ApiCall → Prop) : Prop :=
  ∀ inv s, (env.hook inv s).Uses (allowed inv.kind)

/-- Nothing is forbidden. -/
theorem Env.respects_true (env : Env σ) : env.Respects fun _ _ => True :=
  fun inv s => (env.hook inv s).uses_true

/-- The worlds between API calls of a run that starts with `at_init`. Each
call may meet a different environment; `P` says which calls and environments
the run is made of, and between calls the private state changes freely. -/
inductive Reachable (P : Env σ → TopCall → Prop) : World cfg σ → Prop
  /-- after `at_init` -/
  | init (s : σ) : Reachable P ⟨atInit cfg, s, []⟩
  /-- one more call -/
  | step {w w' : World cfg σ} {env : Env σ} {call : TopCall} {fuel : Nat} {r : ApiRet} (s : σ) :
      Reachable P w → P env call → exec env fuel call (w.putApp s) = some (r, w') →
      Reachable P w'

/-- Several calls in one environment. -/
def execAll (env : Env σ) (fuel : Nat) : List TopCall → World cfg σ → Option (World cfg σ)
  | [], w => some w
  | call :: calls, w => (exec env fuel call w).bind fun r => execAll env fuel calls r.2

/-- A sequence of calls reaches what it ends in. -/
theorem Reachable.of_calls {P : Env σ → TopCall → Prop} {env : Env σ} {fuel : Nat}
    {calls : List TopCall} (hP : ∀ call ∈ calls, P env call) {w w' : World cfg σ}
    (h : Reachable P w) (hx : execAll env fuel calls w = some w') : Reachable P w' := by
  induction calls generalizing w with
  | nil =>
    obtain rfl := Option.some.inj hx
    exact h
  | cons call calls ih =>
    obtain ⟨⟨r, w₁⟩, h₁, hx⟩ := Option.bind_eq_some_iff.mp hx
    obtain ⟨hcall, hcalls⟩ := List.forall_mem_cons.mp hP
    exact ih hcalls (.step w.app h hcall h₁) hx

/-- A run that can be computed. -/
theorem Reachable.of_execAll {P : Env σ → TopCall → Prop} (env : Env σ) (fuel : Nat)
    (calls : List TopCall) (s : σ) (hP : ∀ call, P env call) (p : World cfg σ → Bool)
    (h : (execAll env fuel calls ⟨atInit cfg, s, []⟩).any p = true) :
    ∃ w, Reachable P w ∧ p w = true := by
  obtain ⟨w, hw, hp⟩ := (Option.any_eq_true _ _).mp h
  exact ⟨w, (Reachable.init s).of_calls (fun call _ => hP call) hw, hp⟩

end LibAt
