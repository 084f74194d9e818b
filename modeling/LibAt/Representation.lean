import LibAt.Discipline
import LibAt.Exchange

/-!
# The representation invariant

What the fields of the engine have to do with each other in every run whose
hooks cancel nothing (`Representation`): the queue indices and the counter, the
commands in the queue, the line buffer and the line FSM, the response pool. It
holds between API calls, wherever a callback or handler is called, wherever
a byte is taken from the ring and after every step of a call that does not return,
and every array access of `at.c` is then in bounds (`Access.in_bounds`).
-/

namespace LibAt

variable {cfg : Config} {σ : Type}

/-! ## The invariant -/

/-- A command in the queue is not empty, and its flag says whether it has a
body. That both strings are terminated is part of `CString`. -/
structure CmdEntry.Stored (e : CmdEntry cfg) : Prop where
  cmd : e.cmd.bytes ≠ []
  body : e.hasBody = true ↔ e.body.bytes ≠ []

/-- The representation invariant of the engine. -/
structure Representation (g : Engine cfg) : Prop where
  head_lt : g.qHead.val < cfg.cmdQueueDepth
  tail_lt : g.qTail.val < cfg.cmdQueueDepth
  count_le : g.qCount ≤ cfg.cmdQueueDepth
  head : g.qHead.val = (g.qTail.val + g.qCount) % cfg.cmdQueueDepth
  /-- an active command is in the queue -/
  active : g.state ≠ .idle → 0 < g.qCount
  stored : ∀ e ∈ g.pending, e.Stored
  /-- the line and its terminator fit -/
  line_le : g.line.length ≤ cfg.lineMax - 1
  /-- a line that has begun is not empty -/
  line_pos : g.lfsm ≠ .start → 1 ≤ g.line.length
  pool_le : g.pool.count ≤ cfg.respLinesMax
  /-- the lines in the pool and their terminators fit -/
  pool_lines : ∀ i : Fin cfg.respLinesMax, i.val < g.pool.count →
    (g.pool.data i).length ≤ cfg.lineMax - 1

theorem Representation.queueOk {g : Engine cfg} (h : Representation g) : QueueOk g :=
  ⟨h.count_le, Fin.ext h.head, h.active⟩

/-- `at_init` establishes the invariant. -/
theorem Representation.init : Representation (atInit cfg) where
  head_lt := cfg.depth_ge
  tail_lt := cfg.depth_ge
  count_le := Nat.zero_le _
  head := (Nat.zero_mod _).symm
  active h := absurd rfl h
  stored _ h := absurd h List.not_mem_nil
  line_le := Nat.zero_le _
  line_pos h := absurd rfl h
  pool_le := Nat.zero_le _
  pool_lines _ h := absurd h (Nat.not_lt_zero _)

/-! ## Array accesses -/

/-- The array accesses of `at.c`, each with its index and the size of the
array. `g` is the engine when the operation begins, and the guards are those of
the source. Where the index is a loop counter (`urc_table[i]`) or runs over a
stored string, the bound is that of the loop or the string. -/
inductive Access (g : Engine cfg) : Nat → Nat → Prop
  /-- `r->buf[r->head & MASK]` -/
  | rxPush : Access g (g.rx.head.toNat &&& (cfg.rxBufSize - 1)) cfg.rxBufSize
  /-- `r->buf[r->tail & MASK]` -/
  | rxPop : Access g (g.rx.tail.toNat &&& (cfg.rxBufSize - 1)) cfg.rxBufSize
  /-- `queue[q_head]` -/
  | queueHead : Access g g.qHead.val cfg.cmdQueueDepth
  /-- `queue[q_tail]` -/
  | queueTail : Access g g.qTail.val cfg.cmdQueueDepth
  /-- `line_buf[line_len++] = b` -/
  | lineAppend : g.line.length < cfg.lineMax - 1 → Access g g.line.length cfg.lineMax
  /-- `line_buf[line_len] = '\0'` -/
  | lineEnd : Access g g.line.length cfg.lineMax
  /-- `line_buf[0]` of a new line, and the prompt with its terminator -/
  | linePrompt (i) : i ≤ 2 → Access g i cfg.lineMax
  /-- `line[i]` of a dispatched line, up to the terminator, and the same bytes
  in a slot of the pool -/
  | lineByte (l i) : Dispatched g l → i ≤ l.length → Access g i cfg.lineMax
  /-- `p->data[p->count]` -/
  | poolAppend : g.pool.count < cfg.respLinesMax → Access g g.pool.count cfg.respLinesMax
  /-- `response.lines[i] = pool.data[i]` -/
  | poolLine (i) : i < g.pool.count → Access g i cfg.respLinesMax
  /-- the bytes of a response line, up to the terminator -/
  | poolByte (i j) (hi : i < cfg.respLinesMax) : i < g.pool.count →
      j ≤ (g.pool.data ⟨i, hi⟩).length → Access g j cfg.lineMax

  /-- `urc_table[i]` in the loops over the table -/
  | urcSlot (i) : i < cfg.urcTableSize → Access g i cfg.urcTableSize
  /-- `dst[n]` in `str_copy_safe`: the bytes of `cmd`, `body`, `prefix` and
  `echo_expect` as they are stored, and the terminator -/
  | copied (n) (src : List UInt8) (i) : 0 < n → i ≤ min (cstr src).length (n - 1) → Access g i n
  /-- a byte of such a string when it is read, up to the terminator -/
  | textByte (n) (t : CString n) (i) : i ≤ t.bytes.length → Access g i n

/-- **No array access is out of bounds.** -/
theorem Access.in_bounds {g : Engine cfg} (h : Representation g) {i n : Nat} (ha : Access g i n) :
    i < n := by
  have hline := cfg.line_ge
  have hle := h.line_le
  cases ha with
  | rxPush => exact (rxIndex cfg g.rx.head).isLt
  | rxPop => exact (rxIndex cfg g.rx.tail).isLt
  | queueHead => exact h.head_lt
  | queueTail => exact h.tail_lt
  | lineAppend hlt => omega
  | lineEnd => omega
  | linePrompt i hi => omega
  | lineByte l i hl hi =>
    have := hl.length_le hle
    omega
  | poolAppend hlt => exact hlt
  | poolLine i hi => exact Nat.lt_of_lt_of_le hi h.pool_le
  | poolByte k i hk hcount hi =>
    have := h.pool_lines ⟨k, hk⟩ hcount
    omega
  | urcSlot i hi => exact hi
  | copied n src i hn hi => omega
  | textByte n t i hi => exact Nat.lt_of_le_of_lt hi t.fits

/-! ## What keeps it -/

/-- The invariant does not look at the other fields. -/
theorem Representation.congr {g g' : Engine cfg} (h : Representation g) (hq : SameQueue g g')
    (hs : g'.state ≠ .idle → 0 < g.qCount) (hline : g'.line = g.line) (hlfsm : g'.lfsm = g.lfsm)
    (hpool : g'.pool = g.pool) : Representation g' where
  head_lt := g'.qHead.isLt
  tail_lt := g'.qTail.isLt
  count_le := hq.qCount ▸ h.count_le
  head := by
    rw [hq.qHead, hq.qTail, hq.qCount]
    exact h.head
  active := hq.qCount ▸ hs
  stored := hq.pending ▸ h.stored
  line_le := hline ▸ h.line_le
  line_pos := by
    rw [hlfsm, hline]
    exact h.line_pos
  pool_le := hpool ▸ h.pool_le
  pool_lines := hpool ▸ h.pool_lines

theorem Representation.setLine {g : Engine cfg} (h : Representation g) {l : List UInt8}
    {s : LineFsm} (hle : l.length ≤ cfg.lineMax - 1) (hpos : s ≠ .start → 1 ≤ l.length) :
    Representation { g with line := l, lfsm := s } :=
  ⟨h.head_lt, h.tail_lt, h.count_le, h.head, h.active, h.stored, hle, hpos, h.pool_le,
    h.pool_lines⟩

theorem Representation.setPool {g : Engine cfg} (h : Representation g) {p : RespPool cfg}
    (hle : p.count ≤ cfg.respLinesMax)
    (hlines : ∀ i : Fin cfg.respLinesMax, i.val < p.count →
      (p.data i).length ≤ cfg.lineMax - 1) : Representation { g with pool := p } :=
  ⟨h.head_lt, h.tail_lt, h.count_le, h.head, h.active, h.stored, h.line_le, h.line_pos, hle,
    hlines⟩

/-- A byte that does not end a line leaves a line that has begun. -/
theorem lfsmByte_begun {b : UInt8} {g g' : Engine cfg} (h : lfsmByte b g = .more g')
    (hg : g.lfsm ≠ .start → 1 ≤ g.line.length) : g'.lfsm ≠ .start → 1 ≤ g'.line.length := by
  have hpush (hpos : 1 ≤ g.line.length) : 1 ≤ (pushLine cfg g.line b).length := by
    rw [pushLine]
    split
    · rw [List.length_append, List.length_singleton]
      omega
    · exact hpos
  rw [lfsmByte] at h
  cases hs : g.lfsm with
  | start =>
    rw [hs] at h
    dsimp only at h
    split at h <;> obtain rfl := ByteStep.more.inj h
    · exact fun hne => absurd hs hne
    · exact fun _ => Nat.le_refl 1
  | data | cr =>
    have hpos := hg (by simp [hs])
    rw [hs] at h
    dsimp only at h
    repeat' split at h
    all_goals first
      | (obtain rfl := ByteStep.more.inj h; exact fun _ => hpos)
      | (obtain rfl := ByteStep.more.inj h; exact fun _ => hpush hpos)
      | cases h

theorem Representation.byte {b : UInt8} {g g' : Engine cfg} (h : Representation g)
    (hb : lfsmByte b g = .more g') : Representation g' := by
  have hle := lfsmByte_line hb h.line_le
  have hpos := lfsmByte_begun hb h.line_pos
  obtain ⟨line, lfsm, rfl⟩ := lfsmByte_eq hb
  exact h.setLine hle hpos

theorem respPoolAppend_fits (hfit : cfg.Fits) {p p' : RespPool cfg} {l : List UInt8}
    (h : respPoolAppend p l = some p')
    (hp : ∀ i : Fin cfg.respLinesMax, i.val < p.count → (p.data i).length ≤ cfg.lineMax - 1) :
    p'.count ≤ cfg.respLinesMax ∧
      ∀ i : Fin cfg.respLinesMax, i.val < p'.count → (p'.data i).length ≤ cfg.lineMax - 1 := by
  obtain ⟨hlt, hcount, -⟩ := respPoolAppend_some hfit h
  refine ⟨by omega, fun i hi => ?_⟩
  rw [respPoolAppend, dif_pos hlt] at h
  obtain rfl := Option.some.inj h
  by_cases heq : i = ⟨p.count, hlt⟩
  · rw [heq]
    change (Function.update p.data ⟨p.count, hlt⟩ _ ⟨p.count, hlt⟩).length ≤ _
    rw [Function.update_self]
    exact List.length_take_le _ _
  · change (Function.update p.data ⟨p.count, hlt⟩ _ i).length ≤ _
    rw [Function.update_of_ne heq]
    have hne : i.val ≠ p.count := fun h => heq (Fin.ext h)
    exact hp i (by omega)

theorem Representation.accumulate (hfit : cfg.Fits) {w : World cfg σ}
    (h : Representation w.eng) (l : List UInt8) : Representation (accumulate l w).eng := by
  rw [LibAt.accumulate]
  split
  · dsimp only
    split
    · rename_i p hp
      obtain ⟨hle, hlines⟩ := respPoolAppend_fits hfit hp h.pool_lines
      exact h.setPool hle hlines
    · exact h.congr ⟨rfl, rfl, rfl, rfl⟩ h.active rfl rfl rfl
  · exact h

/-- What `at_send` stores is a command. -/
theorem cmdEntryOf_stored (htx : 2 ≤ cfg.txBufSize) {d : CmdDesc}
    (hd : cstr (d.cmd.getD []) ≠ []) : (cmdEntryOf cfg d).Stored where
  cmd := by
    change (cstr (d.cmd.getD [])).take (cfg.txBufSize - 1) ≠ []
    rw [Ne, List.take_eq_nil_iff, not_or]
    exact ⟨by omega, hd⟩
  body := by
    change (!(cstr (d.body.getD [])).isEmpty) = true ↔
      (cstr (d.body.getD [])).take (cfg.txBufSize * 2 - 1) ≠ []
    rw [Ne, List.take_eq_nil_iff, not_or, Bool.not_eq_true', List.isEmpty_eq_false_iff]
    exact ⟨fun h => ⟨by omega, h⟩, fun h => h.2⟩

theorem Representation.send (hfit : cfg.Fits) (htx : 2 ≤ cfg.txBufSize) {d : CmdDesc}
    {g g' : Engine cfg} (h : Representation g) (hd : atSend (some d) g = (.ok, g')) :
    Representation g' := by
  have hq := h.queueOk.send hfit hd
  have hpend := pending_send hfit h.queueOk hd
  obtain ⟨hne, -, rfl⟩ := atSend_ok hd
  refine ⟨Fin.isLt _, h.tail_lt, hq.count_le, congrArg Fin.val hq.head, hq.active, ?_, h.line_le,
    h.line_pos, h.pool_le, h.pool_lines⟩
  rw [hpend]
  intro e he
  rcases List.mem_append.mp he with he | he
  · exact h.stored e he
  · rw [List.mem_singleton.mp he]
    exact cmdEntryOf_stored htx hne

/-- The oldest command leaves an engine that is then idle. -/
theorem Representation.advance (hfit : cfg.Fits) {g g' : Engine cfg} (h : Representation g)
    (h0 : 0 < g.qCount) (hhead : g'.qHead = g.qHead) (htail : g'.qTail = nextSlot g.qTail)
    (hcount : g'.qCount = (g.qCount + 255) % 256) (hidle : g'.state = .idle)
    {e : CmdEntry cfg} (hpend : g.pending = e :: g'.pending) (hline : g'.line = g.line)
    (hlfsm : g'.lfsm = g.lfsm) (hpool : g'.pool = g.pool) : Representation g' := by
  have hq := h.queueOk.advance hfit h0 hhead htail hcount hidle
  refine ⟨Fin.isLt _, Fin.isLt _, hq.count_le, congrArg Fin.val hq.head, hq.active,
    fun e' he' => h.stored e' (hpend ▸ List.mem_cons_of_mem e he'), hline ▸ h.line_le, ?_,
    hpool ▸ h.pool_le, hpool ▸ h.pool_lines⟩
  rw [hlfsm, hline]
  exact h.line_pos

/-- A hook that cancels nothing keeps it. -/
theorem Representation.edit (hfit : cfg.Fits) (htx : 2 ≤ cfg.txBufSize) {w w' : World cfg σ}
    (h : Representation w.eng) (he : Edit w w') : Representation w'.eng := by
  cases he with
  | app | nested => exact h
  | send d g hd => exact h.send hfit htx hd
  | feed data => exact h.congr ⟨rfl, rfl, rfl, rfl⟩ h.active rfl rfl rfl
  | tick ms =>
    obtain ⟨n, hn⟩ := atTick_eq ms w.eng
    rw [hn]
    exact h.congr ⟨rfl, rfl, rfl, rfl⟩ h.active rfl rfl rfl
  | register pre cb user r g hr =>
    obtain ⟨table, rfl⟩ := atRegisterUrc_eq hr
    exact h.congr ⟨rfl, rfl, rfl, rfl⟩ h.active rfl rfl rfl
  | deregister pre r g hr =>
    obtain ⟨table, rfl⟩ := atDeregisterUrc_eq hr
    exact h.congr ⟨rfl, rfl, rfl, rfl⟩ h.active rfl rfl rfl

/-- Received bytes and lines keep it. -/
theorem Representation.receive (hfit : cfg.Fits) {w w' : World cfg σ} (h : Representation w.eng)
    (hr : Receive w w') : Representation w'.eng := by
  cases hr with
  | pop | echo => exact h.congr ⟨rfl, rfl, rfl, rfl⟩ h.active rfl rfl rfl
  | byte b g hb => exact h.byte hb
  | lineDone => exact h.setLine (Nat.zero_le _) (absurd rfl)
  | ignored | urc => exact h
  | accumulate l => exact h.accumulate hfit l

theorem Representation.transmit {w : World cfg σ} (h : Representation w.eng) (env : Env σ)
    (h0 : 0 < w.eng.qCount) : Representation (transmit env w).2.eng := by
  rw [transmit_eng]
  exact (h.setPool (p := .zero cfg) (Nat.zero_le _) fun _ hi => absurd hi (Nat.not_lt_zero _)).congr
    ⟨rfl, rfl, rfl, rfl⟩ (fun _ => h0) rfl rfl rfl

theorem Representation.answerPrompt {w : World cfg σ} (h : Representation w.eng) (env : Env σ)
    (e : CmdEntry cfg) (h0 : 0 < w.eng.qCount) : Representation (answerPrompt env e w).2.eng := by
  rw [answerPrompt_eng]
  exact h.congr ⟨rfl, rfl, rfl, rfl⟩ (fun _ => h0) rfl rfl rfl

/-- The end of `at_reset`, and of `at_deinit`. -/
theorem Representation.reset {g : Engine cfg} (h : Representation g) :
    Representation (resetState g) :=
  ((h.setLine (l := []) (s := .start) (Nat.zero_le _) (absurd rfl)).setPool (p := .zero cfg)
    (Nat.zero_le _) fun _ hi => absurd hi (Nat.not_lt_zero _)).congr ⟨rfl, rfl, rfl, rfl⟩
      (absurd rfl) rfl rfl rfl

/-! ## Every run keeps it -/

/-- The engine between API calls: well represented, and idle or waiting. -/
def AtRest (g : Engine cfg) : Prop :=
  Representation g ∧ (g.state = .idle ∨ g.state = .waiting)

/-- The assertions that carry the invariant. Inside a completion the oldest
command is still in the queue. -/
def representationDiscipline (hfit : cfg.Fits) (htx : 2 ≤ cfg.txBufSize) : Discipline cfg σ where
  rest w := AtRest w.eng
  ending _ w := Representation w.eng ∧ w.eng.state ≠ .idle
  finalizing i _ w := Representation w.eng ∧ i = w.eng.qTail ∧ 0 < w.eng.qCount
  notifying _ w := Representation w.eng ∧ w.eng.state = .idle ∧ 0 < w.eng.qCount
  ok := Representation
  rest_ok h := h.1
  finalizing_ok h := h.1
  notifying_ok h := h.1
  rest_edit w w' h he := by
    have hu := (he.queue hfit h.1.queueOk).2
    exact ⟨h.1.edit hfit htx he, hu.state ▸ h.2⟩
  finalizing_edit i e w w' h he := by
    have hu := (he.queue hfit h.1.queueOk).2
    exact ⟨h.1.edit hfit htx he, h.2.1.trans hu.qTail.symm, h.2.2.trans_le hu.count_le⟩
  notifying_edit e w w' h he := by
    have hu := (he.queue hfit h.1.queueOk).2
    exact ⟨h.1.edit hfit htx he, hu.state.trans h.2.1, h.2.2.trans_le hu.count_le⟩
  active h := h.1.active
  traceHook w hook h := ⟨h.1.congr ⟨rfl, rfl, rfl, rfl⟩ h.1.active rfl rfl rfl, h.2⟩
  receive w w' h hr := ⟨h.1.receive hfit hr, hr.queue.2 ▸ h.2⟩
  answered env w w' l h hs ha := by
    have hrep := h.1.answerPrompt (w := w.emit (.line (.prompt true) l)) env
      (w.eng.queue w.eng.qTail) (h.1.active (by simp [hs]))
    have heng := answerPrompt_eng env (w.eng.queue w.eng.qTail) (w.emit (.line (.prompt true) l))
    rw [ha] at hrep heng
    exact ⟨hrep, .inr (by rw [heng]; rfl)⟩
  failed env w w' l h hs ha := by
    have hrep := h.1.answerPrompt (w := w.emit (.line (.prompt true) l)) env
      (w.eng.queue w.eng.qTail) (h.1.active (by simp [hs]))
    have heng := answerPrompt_eng env (w.eng.queue w.eng.qTail) (w.emit (.line (.prompt true) l))
    rw [ha] at hrep heng
    exact ⟨hrep, by rw [heng]; simp⟩
  final w l s c h hs _ := ⟨h.1, by simp [hs]⟩
  transmitted env w w' h _ h0 ht := by
    have hrep := h.1.transmit env h0
    have heng := transmit_eng env w
    rw [ht] at hrep heng
    exact ⟨hrep, .inr (by rw [heng]; rfl)⟩
  unsent env w w' h _ h0 ht := by
    have hrep := h.1.transmit env h0
    have heng := transmit_eng env w
    rw [ht] at hrep heng
    exact ⟨hrep, by rw [heng]; simp⟩
  cancel w s h hs _ := ⟨h.1, hs⟩
  finalize w s c h := by
    rw [World.fire_eng]
    exact ⟨h.1.congr ⟨rfl, rfl, rfl, rfl⟩ h.1.active rfl rfl rfl, rfl, h.1.active h.2⟩
  dequeue w i e h := by
    obtain ⟨hrep, rfl, h0⟩ := h
    exact ⟨hrep.advance hfit h0 rfl rfl rfl rfl (pending_dequeue hfit hrep.queueOk h0) rfl rfl rfl,
      .inl rfl⟩
  drainNotify w h hs h0 := by
    rw [World.fire_eng]
    exact ⟨h.1, hs, h0⟩
  drainNext w e h := by
    obtain ⟨hrep, hs, h0⟩ := h
    exact ⟨⟨hrep.advance hfit h0 rfl rfl rfl hs (pending_drainNext hfit hrep.queueOk h0) rfl rfl rfl,
      .inl hs⟩, hs⟩
  reset w h _ _ := ⟨h.1.reset, .inl rfl⟩
  deinit w h _ _ := ⟨h.1.congr ⟨rfl, rfl, rfl, rfl⟩ (absurd rfl) rfl rfl rfl, .inl rfl⟩

/-! ## Every step keeps it -/

/-- **Step.** No transition breaks the invariant, whatever is in progress. -/
theorem Representation.step (hfit : cfg.Fits) (htx : 2 ≤ cfg.txBufSize)
    {allowed : HookKind → ApiCall → Prop} {s t : Snapshot cfg σ} (ht : Transition allowed s t)
    (hlife : Lifecycle s) (h : Representation s.2.eng) : Representation t.2.eng := by
  have hsame {g : Engine cfg} (hg : Representation g) {g' : Engine cfg} (hq : SameQueue g g')
      (hs : g'.state = g.state) (hline : g'.line = g.line) (hlfsm : g'.lfsm = g.lfsm)
      (hpool : g'.pool = g.pool) : Representation g' :=
    hg.congr hq (hs ▸ hg.active) hline hlfsm hpool
  cases ht with
  | app | nested | promptIgnored | final | urc | drain => exact h
  | send st w d g hd => exact h.send hfit htx hd
  | feed | traceHook | pop | echo => exact hsame h ⟨rfl, rfl, rfl, rfl⟩ rfl rfl rfl rfl
  | tick st w ms =>
    obtain ⟨n, hn⟩ := atTick_eq ms w.eng
    rw [hn]
    exact hsame h ⟨rfl, rfl, rfl, rfl⟩ rfl rfl rfl rfl
  | register st w pre cb user r g hr =>
    obtain ⟨table, rfl⟩ := atRegisterUrc_eq hr
    exact hsame h ⟨rfl, rfl, rfl, rfl⟩ rfl rfl rfl rfl
  | deregister st w pre r g hr =>
    obtain ⟨table, rfl⟩ := atDeregisterUrc_eq hr
    exact hsame h ⟨rfl, rfl, rfl, rfl⟩ rfl rfl rfl rfl
  | deinit w => exact h.congr ⟨rfl, rfl, rfl, rfl⟩ (absurd rfl) rfl rfl rfl
  | byte w b g hb => exact h.byte hb
  | lineDone w => exact h.setLine (Nat.zero_le _) (absurd rfl)
  | promptAnswered w l env _ hp _ =>
    exact h.answerPrompt (w := w.emit (.line (.prompt true) l)) env _
      (h.active (by simp [isPrompt_waiting hp]))
  | accumulate w l => exact h.accumulate hfit l
  | transmit w env _ h0 => exact h.transmit env h0
  | finalize st w status errCode =>
    rw [World.fire_eng]
    exact hsame h ⟨rfl, rfl, rfl, rfl⟩ rfl rfl rfl rfl
  | dequeue st w slot e =>
    -- the command that is completed is still the oldest one
    obtain ⟨notified, hst, -⟩ := hlife.replay
    cases st with
    | cons => exact absurd hst (by simp [StackOk])
    | nil =>
      obtain ⟨hslot, -, h0, -⟩ := hst
      have hslot : slot = w.eng.qTail := hslot
      subst hslot
      exact h.advance hfit h0 rfl rfl rfl rfl (pending_dequeue hfit h.queueOk h0) rfl rfl rfl
  | drainNotify st w =>
    rw [World.fire_eng]
    exact h
  | drainNext st w e =>
    obtain ⟨notified, hst, -⟩ := hlife.replay
    cases st with
    | cons => exact absurd hst (by simp [StackOk])
    | nil =>
      obtain ⟨hs, -, h0, -⟩ := hst
      exact h.advance hfit h0 rfl rfl rfl hs (pending_drainNext hfit h.queueOk h0) rfl rfl rfl
  | reset => exact h.reset

/-- **Run**, step by step: also within a call that does not return. -/
theorem Reachable.represented (hfit : cfg.Fits) (htx : 2 ≤ cfg.txBufSize) {w : World cfg σ}
    (h : Reachable (fun env _ => env.Respects NotCancelling) w) {t : Snapshot cfg σ}
    (ht : Steps NotCancelling ([], w) t) : Representation t.2.eng := by
  obtain ⟨s, hs⟩ := h.steps fun _ _ henv => henv
  have hall : Steps NotCancelling ([], ⟨atInit cfg, s, []⟩) t := hs.trans ht
  have hcancel := hall.not_cancelled_of fun _ _ _ => NotCancelling.harmless
  have hrun := hall.invariant
    (I := fun t => ¬Cancelled t.2.log → Lifecycle t ∧ Representation t.2.eng)
    (fun s t ht ih hct => by
      obtain ⟨hlife, hrep⟩ := ih fun hcs => hct (hcs.mono ht.log_mono)
      exact ⟨hlife.step hfit ht hct, hrep.step hfit htx ht hlife⟩)
    (fun _ => ⟨.init s, .init⟩)
  exact (hrun hcancel).2

/-- **The representation invariant.** In every run whose callbacks and handlers
cancel nothing, between API calls the engine is well represented and idle or
waiting; in every further call it is well represented wherever foreign code is
called and wherever a byte is taken from the ring, and, whether the call returns or
not, after every step; and in a well represented engine no array access is out of
bounds. -/
theorem well_represented (hfit : cfg.Fits) (htx : 2 ≤ cfg.txBufSize) {w : World cfg σ}
    (h : Reachable (fun env _ => env.Respects NotCancelling) w) :
    AtRest w.eng ∧
      (∀ (env : Env σ) (fuel : Nat) (call : TopCall) (s : σ) (r : ApiRet) (w' : World cfg σ),
        env.Respects NotCancelling → exec env fuel call (w.putApp s) = some (r, w') →
          execIf Representation env fuel call (w.putApp s) = some (r, w')) ∧
      (∀ t : Snapshot cfg σ, Steps NotCancelling ([], w) t → Representation t.2.eng) ∧
      ∀ (g : Engine cfg) (i n : Nat), Representation g → Access g i n → i < n := by
  have hrest := (representationDiscipline (σ := σ) hfit htx).reachable (fun _ _ henv => henv)
    (fun _ => ⟨.init, .inl rfl⟩) h
  refine ⟨hrest, fun env fuel call s r w' henv hx => ?_, fun t ht => h.represented hfit htx ht,
    fun g i n hg ha => ha.in_bounds hg⟩
  have hrest' : (representationDiscipline hfit htx).rest (w.putApp s) := hrest
  exact ((representationDiscipline hfit htx).exec henv hrest' hx).2

/-- The callback sends `probe` again when its command succeeds, and the handler
removes itself. -/
def busyEnv : Env Unit where
  write s data := (data.length, s)
  completion _ r _ s :=
    if r.status = .ok then .call (.send (some probe)) s fun _ s => .ret s else .ret s
  handler _ _ _ s := .call (.deregisterUrc (some (ascii "+X"))) s fun _ s => .ret s

theorem busyEnv_notCancelling : busyEnv.Respects NotCancelling := by
  rintro (⟨f, r, u⟩ | ⟨f, l, u⟩) s
  · simp only [Env.hook, busyEnv]
    split
    · exact ⟨⟨by decide, by decide⟩, fun _ _ => trivial⟩
    · trivial
  · exact ⟨⟨by decide, by decide⟩, fun _ _ => trivial⟩

theorem well_represented_busy : ∃ w : World Config.default Unit,
    (.nested .handler (.deregisterUrc (some (ascii "+X"))) .waiting ∈ w.log ∧
      firings w.log = [(1, 7)] ∧ w.eng.qCount = 1 ∧ w.eng.line = ascii "O") ∧
    AtRest w.eng ∧
      (∀ (env : Env Unit) (fuel : Nat) (call : TopCall) (s : Unit) (r : ApiRet)
          (w' : World Config.default Unit),
        env.Respects NotCancelling → exec env fuel call (w.putApp s) = some (r, w') →
          execIf Representation env fuel call (w.putApp s) = some (r, w')) ∧
      (∀ t : Snapshot Config.default Unit, Steps NotCancelling ([], w) t →
        Representation t.2.eng) ∧
      ∀ (g : Engine Config.default) (i n : Nat), Representation g → Access g i n → i < n := by
  obtain ⟨w, hw, hp⟩ := Reachable.of_execAll (P := fun env _ => env.Respects NotCancelling)
    busyEnv 16
    [.api (.registerUrc (some (ascii "+X")) (some 2) 0), .api (.send (some probe)), .process,
      .api (.feed (ascii "+X\r\nOK\r\nO")), .process]
    () (fun _ => busyEnv_notCancelling)
    (fun w : World Config.default Unit =>
      decide (.nested .handler (.deregisterUrc (some (ascii "+X"))) .waiting ∈ w.log ∧
        firings w.log = [(1, 7)] ∧ w.eng.qCount = 1 ∧ w.eng.line = ascii "O")) (by decide +kernel)
  exact ⟨w, of_decide_eq_true hp,
    well_represented Config.default_fits (by decide) hw⟩

end LibAt
