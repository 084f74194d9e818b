import Mathlib.Data.List.FinRange
import LibAt.Circular
import LibAt.Fmt
import LibAt.Types

/-!
# The engine state and its local operations (`at.c`)

`Engine` is `at_engine_t` together with the two trace-hook variables. Arrays
are functions from `Fin n`, so an index out of bounds cannot be written down;
the queue indices are `Fin`s of the queue depth because every assignment to
them is reduced modulo it. `qCount` and the pool counter are 8-bit and the
ring indices 16-bit, with the wrap-around written out.

This module has the operations that call no callback: the RX ring, the
response pool, `at_send`, `at_tick`, `at_feed`, the URC table, the byte step of
the line FSM and the final-result test. What runs foreign code is in
`LibAt.Process`.
-/

namespace LibAt

variable {cfg : Config}

/-! ## RX ring buffer -/

/-- `rxring_t`. -/
structure RxRing (cfg : Config) where
  /-- producer writes -/
  head : UInt16
  /-- consumer reads -/
  tail : UInt16
  buf : Fin cfg.rxBufSize → UInt8

/-- `i & AT_MASK(AT_CFG_RX_BUF_SIZE)`. -/
def rxIndex (cfg : Config) (i : UInt16) : Fin cfg.rxBufSize :=
  ⟨i.toNat &&& (cfg.rxBufSize - 1), by
    have h1 := cfg.rx_pos
    have h2 : i.toNat &&& (cfg.rxBufSize - 1) ≤ cfg.rxBufSize - 1 := Nat.and_le_right
    omega⟩

/-- `rxring_empty`. -/
def rxringEmpty (r : RxRing cfg) : Bool := r.head == r.tail

/-- `rxring_used`: the difference of the indices, modulo 2^16. -/
def rxringUsed (r : RxRing cfg) : Nat := (r.head - r.tail).toNat

/-- `rxring_push`; `none` is the return value `false`. -/
def rxringPush (r : RxRing cfg) (b : UInt8) : Option (RxRing cfg) :=
  if rxringUsed r ≥ cfg.rxBufSize then none
  else some { r with buf := Function.update r.buf (rxIndex cfg r.head) b, head := r.head + 1 }

/-- `rxring_pop`; `none` is the return value `false`. -/
def rxringPop (r : RxRing cfg) : Option (UInt8 × RxRing cfg) :=
  if rxringEmpty r then none
  else some (r.buf (rxIndex cfg r.tail), { r with tail := r.tail + 1 })

/-! ## Response line pool -/

/-- `resp_pool_t`. -/
structure RespPool (cfg : Config) where
  data : Fin cfg.respLinesMax → List UInt8
  count : Nat

/-- A zeroed pool. -/
def RespPool.zero (cfg : Config) : RespPool cfg := ⟨fun _ => [], 0⟩

/-- The first `count` lines. -/
def RespPool.lines (p : RespPool cfg) : List (List UInt8) := (List.ofFn p.data).take p.count

/-- `resp_pool_append`; `none` is the return value `false`. -/
def respPoolAppend (p : RespPool cfg) (line : List UInt8) : Option (RespPool cfg) :=
  if h : p.count < cfg.respLinesMax then
    some ⟨Function.update p.data ⟨p.count, h⟩ (line.take (cfg.lineMax - 1)), (p.count + 1) % 256⟩
  else none

/-! ## Engine state -/

/-- `line_fsm_t`. -/
inductive LineFsm where
  /-- waiting for the first character of a line -/
  | start
  /-- accumulating line data -/
  | data
  /-- saw `\r`, waiting for `\n` -/
  | cr
  deriving DecidableEq, Repr

/-- `at_engine_t` with `g_trace_cb` and `g_trace_user`. `line` is the first
`line_len` bytes of `line_buf`. -/
structure Engine (cfg : Config) where
  rx : RxRing cfg
  queue : Fin cfg.cmdQueueDepth → CmdEntry cfg
  /-- next slot to write -/
  qHead : Fin cfg.cmdQueueDepth
  /-- next slot to execute -/
  qTail : Fin cfg.cmdQueueDepth
  qCount : Nat
  state : AtState
  /-- countdown to timeout -/
  timerMs : Nat
  /-- accumulated response lines -/
  pool : RespPool cfg
  /-- built up during execution -/
  response : Response
  lfsm : LineFsm
  line : List UInt8
  urcTable : Fin cfg.urcTableSize → UrcEntry cfg
  echoExpect : CString cfg.txBufSize
  echoLen : Nat
  echoArmed : Bool
  /-- the user pointer of the installed trace hook, if there is one -/
  traceHook : Option Ptr

/-- `at_init`: everything zero. -/
def atInit (cfg : Config) : Engine cfg where
  rx := ⟨0, 0, fun _ => 0⟩
  queue := fun _ => .zero cfg
  qHead := ⟨0, cfg.depth_ge⟩
  qTail := ⟨0, cfg.depth_ge⟩
  qCount := 0
  state := .idle
  timerMs := 0
  pool := .zero cfg
  response := ⟨.ok, 0, 0, []⟩
  lfsm := .start
  line := []
  urcTable := fun _ => .zero cfg
  echoExpect := .empty cfg.tx_pos
  echoLen := 0
  echoArmed := false
  traceHook := none

/-! ## Command queue -/

/-- `(uint8_t)((i + 1U) % AT_CFG_CMD_QUEUE_DEPTH)`. -/
def nextSlot (i : Fin cfg.cmdQueueDepth) : Fin cfg.cmdQueueDepth :=
  ⟨(i.val + 1) % cfg.cmdQueueDepth % 256,
    Nat.lt_of_le_of_lt (Nat.mod_le _ _) (Nat.mod_lt _ cfg.depth_ge)⟩

/-- `str_copy_safe` into a buffer of `n` bytes. -/
def strCopySafe {n : Nat} (h : 0 < n) (src : List UInt8) : CString n := .copy h src

/-- The queue entry `at_send` fills in for a descriptor: the slot is zeroed,
the command copied, a zero timeout replaced by the default (through
`uint16_t`), and a non-empty body copied. -/
def cmdEntryOf (cfg : Config) (d : CmdDesc) : CmdEntry cfg where
  cmd := strCopySafe cfg.tx_pos (d.cmd.getD [])
  body := strCopySafe cfg.body_pos (d.body.getD [])
  timeoutMs := if d.timeoutMs ≠ 0 then d.timeoutMs else cfg.defaultTimeoutMs % 2 ^ 16
  prompt := d.prompt
  cb := d.cb
  user := d.user
  hasBody := !(cstr (d.body.getD [])).isEmpty

/-- `at_send`. -/
def atSend (desc : Option CmdDesc) (g : Engine cfg) : AtResult × Engine cfg :=
  match desc with
  | none => (.errParam, g)
  | some d =>
    if cstr (d.cmd.getD []) = [] then (.errParam, g)
    else if g.qCount ≥ cfg.cmdQueueDepth then (.errBusy, g)
    else (.ok, { g with
      queue := Function.update g.queue g.qHead (cmdEntryOf cfg d)
      qHead := nextSlot g.qHead
      qCount := (g.qCount + 1) % 256 })

/-- The descriptor `at_send_raw` builds. -/
def rawDesc (cmd : List UInt8) (timeoutMs : Nat) (cb : Option Ptr) (user : Ptr) : CmdDesc :=
  ⟨some cmd, none, timeoutMs, .none, cb, user⟩

/-- `at_send_raw`. -/
def atSendRaw (cmd : List UInt8) (timeoutMs : Nat) (cb : Option Ptr) (user : Ptr)
    (g : Engine cfg) : AtResult × Engine cfg :=
  atSend (some (rawDesc cmd timeoutMs cb user)) g

/-! ## Interrupt side -/

/-- `at_feed`: a byte that does not fit is dropped. -/
def atFeed (data : List UInt8) (g : Engine cfg) : Engine cfg :=
  { g with rx := data.foldl (fun r b => (rxringPush r b).getD r) g.rx }

/-- `at_tick`. -/
def atTick (msElapsed : Nat) (g : Engine cfg) : Engine cfg :=
  if g.state = .waiting ∨ g.state = .prompt then
    { g with timerMs := if g.timerMs ≤ msElapsed then 0 else g.timerMs - msElapsed }
  else g

/-! ## URC table -/

/-- `for (uint8_t i = 0; i < n; i++)`, left at the first index where `p`
holds: `some (some i)` when there is one, `some none` when the loop runs out.
The index is 8 bits wide, so after 256 rounds it starts again at 0 and, `p`
being the same, never leaves the loop: then there is no result. -/
def uint8Search {n : Nat} (p : Fin n → Bool) : Nat → Nat → Option (Option (Fin n))
  | 0, _ => none
  | rounds + 1, i =>
    if h : i < n then
      if p ⟨i, h⟩ then some (some ⟨i, h⟩) else uint8Search p rounds ((i + 1) % 256)
    else some none

/-- `uint8Search` from index 0. -/
def urcSearch (p : Fin cfg.urcTableSize → Bool) : Option (Option (Fin cfg.urcTableSize)) :=
  uint8Search p 256 0

/-- `u->active && strncmp(u->prefix, prefix, sizeof(u->prefix) - 1U) == 0`. -/
def UrcEntry.registered (u : UrcEntry cfg) (pre : List UInt8) : Bool :=
  u.active && strncmpEq u.pre.bytes pre (cfg.lineMax - 1)

/-- `at_register_urc`. -/
def atRegisterUrc (pre : Option (List UInt8)) (cb : Option Ptr) (user : Ptr) (g : Engine cfg) :
    Option (AtResult × Engine cfg) :=
  match pre, cb with
  | some p, some f => do
    match ← urcSearch fun i => (g.urcTable i).registered p with
    | some i =>
      let u := { g.urcTable i with cb := f, user := user }
      return (.ok, { g with urcTable := Function.update g.urcTable i u })
    | none =>
      match ← urcSearch fun i => !(g.urcTable i).active with
      | some i =>
        let u : UrcEntry cfg := ⟨strCopySafe cfg.line_pos p, f, user, true⟩
        return (.ok, { g with urcTable := Function.update g.urcTable i u })
      | none => return (.errBusy, g)
  | _, _ => some (.errParam, g)

/-- `at_deregister_urc`. -/
def atDeregisterUrc (pre : Option (List UInt8)) (g : Engine cfg) :
    Option (AtResult × Engine cfg) :=
  match pre with
  | none => some (.errParam, g)
  | some p => do
    match ← urcSearch fun i => (g.urcTable i).registered p with
    | some i => return (.ok, { g with urcTable := Function.update g.urcTable i (.zero cfg) })
    | none => return (.errParam, g)

/-- The loop of `urc_dispatch`: the first active entry whose prefix the line
starts with. -/
def urcMatch (line : List UInt8) (g : Engine cfg) : Option (Option (Fin cfg.urcTableSize)) :=
  urcSearch fun i =>
    (g.urcTable i).active && strncmpEq line (g.urcTable i).pre.bytes (g.urcTable i).pre.length

/-! ## Line FSM -/

/-- What one received byte does: only the FSM moves, or a line is complete and
goes to `engine_dispatch_line`. -/
inductive ByteStep (cfg : Config) where
  | more (g : Engine cfg)
  | line (l : List UInt8)

/-- `line_buf[line_len++] = b`, as long as the terminator still fits. -/
def pushLine (cfg : Config) (line : List UInt8) (b : UInt8) : List UInt8 :=
  if line.length < cfg.lineMax - 1 then line ++ [b] else line

/-- The `switch` of `at_process`. -/
def lfsmByte (b : UInt8) (g : Engine cfg) : ByteStep cfg :=
  match g.lfsm with
  | .start =>
    if b = 13 ∨ b = 10 then .more g
    else .more { g with line := [b], lfsm := .data }
  | .data =>
    if b = 13 then .more { g with lfsm := .cr }
    else if b = 10 then .line g.line
    else .more { g with line := pushLine cfg g.line b }
  | .cr =>
    if b = 10 then .line g.line
    else if b = 32 ∧ g.line.length = 1 ∧ g.line.head? = some 62 then .line [62, 32]
    else .more { g with line := pushLine cfg g.line b, lfsm := .data }

/-! ## Final result codes -/

/-- `engine_is_final`. -/
def engineIsFinal (line : List UInt8) : Option (AtResult × Int) :=
  if strcmpEq line (ascii "OK") then some (.ok, 0)
  else if strcmpEq line (ascii "ERROR") then some (.errGeneric, 0)
  else if strcmpEq line (ascii "NO CARRIER") || strcmpEq line (ascii "NO DIALTONE") ||
      strcmpEq line (ascii "BUSY") || strcmpEq line (ascii "NO ANSWER") then
    some (.errGeneric, 0)
  else if strncmpEq line (ascii "+CME ERROR:") 11 then
    some (.errCme, (atParseInt (line.drop 11)).1)
  else if strncmpEq line (ascii "+CMS ERROR:") 11 then
    some (.errCms, (atParseInt (line.drop 11)).1)
  else none

/-- The echo test of `engine_dispatch_line`. -/
def isEcho (g : Engine cfg) (line : List UInt8) : Bool :=
  cfg.echoCancel && g.echoArmed && g.state == .waiting &&
    strncmpEq line g.echoExpect.bytes g.echoLen

/-- The prompt test of `engine_dispatch_line`. -/
def isPrompt (g : Engine cfg) (line : List UInt8) : Bool :=
  g.state == .waiting && 2 ≤ line.length && line.getD 0 0 == 62 && line.getD 1 0 == 32

end LibAt
