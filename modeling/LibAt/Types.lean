import LibAt.CString

/-!
# Configuration and public types

`at_config.h` and the type part of `at.h`. A `Config` is one setting of the
`AT_CFG_*` macros; the static assertions of `at_config.h` are its proof
fields, so a setting that does not compile cannot be built. No assertion says
that the sizes fit the 8- and 16-bit variables the engine keeps them in. For
the tables that is `Config.Fits`; a line buffer that `line_len`, a `uint16_t`,
cannot index is left out (`line_le`).

A function pointer or a `void *user` is an address (`Ptr`); what the code at
an address does is the environment's business.
-/

namespace LibAt

/-- `AT__IS_POW2`. -/
def IsPow2 (n : Nat) : Prop := n ≠ 0 ∧ n &&& (n - 1) = 0

instance (n : Nat) : Decidable (IsPow2 n) := inferInstanceAs (Decidable (_ ∧ _))

/-- A setting of the `AT_CFG_*` macros that passes the static assertions. -/
structure Config where
  /-- `AT_CFG_RX_BUF_SIZE` -/
  rxBufSize : Nat := 512
  /-- `AT_CFG_TX_BUF_SIZE` -/
  txBufSize : Nat := 512
  /-- `AT_CFG_LINE_MAX` -/
  lineMax : Nat := 320
  /-- `AT_CFG_RESP_LINES_MAX` -/
  respLinesMax : Nat := 16
  /-- `AT_CFG_CMD_QUEUE_DEPTH` -/
  cmdQueueDepth : Nat := 8
  /-- `AT_CFG_URC_TABLE_SIZE` -/
  urcTableSize : Nat := 16
  /-- `AT_CFG_DEFAULT_TIMEOUT_MS` -/
  defaultTimeoutMs : Nat := 5000
  /-- `AT_CFG_PROMPT_TIMEOUT_MS` -/
  promptTimeoutMs : Nat := 30000
  /-- `AT_CFG_ECHO_CANCEL` -/
  echoCancel : Bool := true
  rx_pow2 : IsPow2 rxBufSize := by decide
  tx_pow2 : IsPow2 txBufSize := by decide
  line_ge : 8 ≤ lineMax := by decide
  /-- not asserted: `line_len` does not wrap around -/
  line_le : lineMax ≤ 65536 := by decide
  depth_ge : 1 ≤ cmdQueueDepth := by decide
  urc_ge : 1 ≤ urcTableSize := by decide

namespace Config

/-- The configuration the header ships. -/
def default : Config := {}

variable (cfg : Config)

theorem rx_pos : 0 < cfg.rxBufSize := Nat.pos_of_ne_zero cfg.rx_pow2.1

theorem tx_pos : 0 < cfg.txBufSize := Nat.pos_of_ne_zero cfg.tx_pow2.1

theorem body_pos : 0 < cfg.txBufSize * 2 := Nat.mul_pos cfg.tx_pos (by decide)

theorem line_pos : 0 < cfg.lineMax := Nat.lt_of_lt_of_le (by decide) cfg.line_ge

/-- The table sizes fit the 8-bit counters that run over them. -/
structure Fits : Prop where
  depth : cfg.cmdQueueDepth ≤ 255
  urc : cfg.urcTableSize ≤ 255
  lines : cfg.respLinesMax ≤ 255

theorem default_fits : default.Fits := ⟨by decide, by decide, by decide⟩

end Config

/-- `at_result_t`. -/
inductive AtResult where
  | ok | errCme | errCms | errGeneric | errTimeout | errBusy | errParam
  | errOverflow | errAborted | errIo | pending
  deriving DecidableEq, Repr

/-- `at_state_t`. -/
inductive AtState where
  | idle | sending | waiting | prompt | complete
  deriving DecidableEq, Repr

/-- `at_prompt_mode_t`. -/
inductive AtPromptMode where
  | none | sms
  deriving DecidableEq, Repr

/-- An address: of a callback, a handler, or a `void *user`. -/
abbrev Ptr := Nat

/-- `at_response_t`. `lines` are the first `numLines` entries of the pointer
array, each with the bytes it points at. -/
structure Response where
  status : AtResult
  errorCode : Int
  numLines : Nat
  lines : List (List UInt8)
  deriving DecidableEq, Repr

/-- `at_cmd_desc_t`. A string pointer is NULL or points at a memory block. -/
structure CmdDesc where
  cmd : Option (List UInt8)
  body : Option (List UInt8)
  timeoutMs : Nat
  prompt : AtPromptMode
  cb : Option Ptr
  user : Ptr
  deriving DecidableEq, Repr

/-- `cmd_entry_t`. -/
structure CmdEntry (cfg : Config) where
  cmd : CString cfg.txBufSize
  body : CString (cfg.txBufSize * 2)
  timeoutMs : Nat
  prompt : AtPromptMode
  cb : Option Ptr
  user : Ptr
  hasBody : Bool
  deriving DecidableEq, Repr

/-- A zeroed queue slot. -/
def CmdEntry.zero (cfg : Config) : CmdEntry cfg :=
  ⟨.empty cfg.tx_pos, .empty cfg.body_pos, 0, .none, none, 0, false⟩

/-- `urc_entry_t`. -/
structure UrcEntry (cfg : Config) where
  pre : CString cfg.lineMax
  cb : Ptr
  user : Ptr
  active : Bool
  deriving DecidableEq, Repr

/-- A zeroed table slot. -/
def UrcEntry.zero (cfg : Config) : UrcEntry cfg := ⟨.empty cfg.line_pos, 0, 0, false⟩

end LibAt
