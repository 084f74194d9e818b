import LibAt.Requests
import LibAt.Turns
import LibAt.Wire

/-!
# What the modem reads

The bytes that go out in a run whose application makes requests only. The modem
cuts them at the CRs and reads each line; `requests_read` says that it finds the
requests of the application there, in the order in which they were accepted, and
nothing else: the helpers, the queue and the transmission together change, add and
mix up nothing.

A command that is still in the queue, or was drained by `at_reset` before its turn, is
not among them, so what is read is a sublist of what was accepted.
-/

namespace LibAt

variable {cfg : Config} {σ : Type}

/-! ## Bytes -/

/-- The bytes that went out. -/
def written (log : List (Event cfg)) : List UInt8 :=
  log.flatMap fun | .write _ data n => data.take n | _ => []

/-- An entry other than a short write. -/
def Event.unshort : Event cfg → Bool
  | .write _ data n => n == data.length
  | _ => true

/-- The requests in what went out: one for each line that ends with a CR. -/
def modemReads (m : List UInt8) : List (Option Request) :=
  (m.splitOn 13).dropLast.map Request.ofLine

/-- The descriptor of a request. -/
def Request.desc (q : Request) (cb : Option Ptr) (user : Ptr) : CmdDesc :=
  rawDesc q.line q.timeoutMs cb user

theorem written_append (log evs : List (Event cfg)) :
    written (log ++ evs) = written log ++ written evs :=
  List.flatMap_append

/-- Only writes are written. -/
theorem written_wire (log : List (Event cfg)) : written (wire log) = written log := by
  induction log with
  | nil => rfl
  | cons ev log ih =>
    have hcons : written (ev :: log) = written [ev] ++ written log := written_append [ev] log
    rw [hcons, ← ih, wire, List.filter_cons]
    split
    · exact written_append [ev] (wire log)
    · rename_i hoff
      have hnil : written [ev] = [] := by
        cases ev <;> first | rfl | exact absurd rfl hoff
      rw [hnil, List.nil_append]
      rfl

/-! ## Bodies -/

/-- What is in the queue has been accepted. -/
theorem Lifecycle.pending_accepted {s : Snapshot cfg σ} (h : Lifecycle s) {e : CmdEntry cfg}
    (he : e ∈ s.2.eng.pending) : ∃ d ∈ acceptances s.2.log, cmdEntryOf cfg d = e := by
  have hmem : e ∈ (acceptances s.2.log).map (cmdEntryOf cfg) := by
    rw [h.accepted_eq]
    exact List.mem_append_right _ he
  exact List.mem_map.mp hmem

/-- A body that is there is not cut to nothing. -/
theorem body_ne_nil {d : CmdDesc} (h : (cmdEntryOf cfg d).hasBody = true) :
    (cmdEntryOf cfg d).body.bytes ≠ [] := by
  have hbody : cstr (d.body.getD []) ≠ [] := by simpa [cmdEntryOf] using h
  have hpos := cfg.tx_pos
  change (cstr (d.body.getD [])).take (cfg.txBufSize * 2 - 1) ≠ []
  simpa [List.take_eq_nil_iff, hbody] using (by omega : cfg.txBufSize * 2 - 1 ≠ 0)

/-- An entry other than the write of an empty body. -/
def Event.bodied : Event cfg → Bool
  | .write .body data _ => !data.isEmpty
  | _ => true

theorem SentPair.bodied {hook b : Bool} {data : List UInt8} {evs : List (Event cfg)}
    (h : SentPair hook .body .ctrlZ data [26] b evs) (hne : data ≠ []) :
    ∀ ev ∈ evs, ev.bodied = true := by
  cases h with
  | shortData | shortTerm => simp [Event.bodied, hne]
  | sent => cases hook <;> simp [Event.bodied, hne]

/-- **Step.** A body is written for a command that has one. -/
theorem Transition.bodied {allowed : HookKind → ApiCall → Prop} {s t : Snapshot cfg σ}
    (ht : Transition allowed s t) (hs : Lifecycle s) :
    GrowsBy (fun ev => ev.bodied) s.2.log t.2.log := by
  have hrefl : GrowsBy (fun ev : Event cfg => ev.bodied) s.2.log s.2.log := .refl _
  cases ht with
  | nested | send | echo | promptIgnored | final | dequeue | drainNext => exact hrefl.concat rfl
  | urc => exact (hrefl.concat rfl).concat rfl
  | accumulate w l =>
    rw [accumulate_log]
    exact hrefl.concat rfl
  | promptAnswered w l env _ hp hbody =>
    -- the active command is in the queue, so it has been accepted
    obtain ⟨rest, hrest⟩ := Engine.pending_eq_cons (hs.queue.active (by simp [isPrompt_waiting hp]))
    obtain ⟨d, -, he⟩ := hs.pending_accepted (e := w.eng.queue w.eng.qTail) (by simp [hrest])
    have hne : (w.eng.queue w.eng.qTail).body.bytes ≠ [] := by
      rw [← he] at hbody ⊢
      exact body_ne_nil hbody.2
    obtain ⟨evs, hsent, hlog⟩ := answerPrompt_sent env (w.eng.queue w.eng.qTail)
      (w.emit (.line (.prompt true) l))
    exact (hrefl.concat rfl).trans ⟨evs, hlog, hsent.bodied hne⟩
  | transmit w env =>
    obtain ⟨evs, hsent, hlog⟩ := transmit_sent env w
    refine ⟨_, hlog, List.forall_mem_cons.mpr ⟨rfl, ?_⟩⟩
    exact hsent.forall (fun _ _ => rfl) (fun _ _ => rfl) fun _ => rfl
  | finalize st w status errCode =>
    rw [World.fire_log]
    refine ⟨_, rfl, ?_⟩
    rw [CmdEntry.notice]
    split <;> simp [Event.bodied]
  | drainNotify st w =>
    rw [World.fire_log]
    refine ⟨_, rfl, ?_⟩
    rw [CmdEntry.notice]
    split <;> simp [Event.bodied]
  | _ => exact hrefl

/-- **Run.** No empty body goes out. -/
theorem Reachable.bodied (hfit : cfg.Fits) {P : Env σ → TopCall → Prop} {w : World cfg σ}
    (h : Reachable P w) (hc : ¬Cancelled w.log) : ∀ ev ∈ w.log, ev.bodied = true := by
  obtain ⟨s, hs⟩ := h.steps_any
  have hrun := hs.invariant (I := fun t => ¬Cancelled t.2.log → Lifecycle t ∧
    ∀ ev ∈ t.2.log, ev.bodied = true)
    (fun s t ht ih hct => by
      obtain ⟨hlife, ih⟩ := ih fun hcs => hct (hcs.mono ht.log_mono)
      refine ⟨hlife.step hfit ht hct, ?_⟩
      obtain ⟨evs, hlog, hevs⟩ := ht.bodied hlife
      rw [hlog]
      exact List.forall_mem_append.mpr ⟨ih, hevs⟩)
    (fun _ => ⟨Lifecycle.init s, by simp⟩)
  exact (hrun hc).2

/-! ## Turns -/

/-- What goes out for a command whose prompt is answered `k` times. -/
def CmdEntry.turn (e : CmdEntry cfg) (k : Nat) : Turn UInt8 :=
  ⟨e.cmd.bytes, List.replicate k e.body.bytes⟩

/-- A turn for a command: no text without a body. -/
def TurnOf (e : CmdEntry cfg) (t : Turn UInt8) : Prop :=
  ∃ k, t = e.turn k ∧ (e.body.bytes = [] → k = 0)

/-- Count the texts behind each line, from the last line to the first. -/
def Event.countTexts (ev : Event cfg) (acc : Nat × List Nat) : Nat × List Nat :=
  match ev with
  | .write .cmd _ _ => (0, acc.1 :: acc.2)
  | .write .body _ _ => (acc.1 + 1, acc.2)
  | _ => acc

/-- How many texts were written behind each line. -/
def textsGiven (log : List (Event cfg)) : List Nat := (log.foldr Event.countTexts (0, [])).2

/-- Only writes count. -/
theorem foldr_countTexts_wire (log : List (Event cfg)) (acc : Nat × List Nat) :
    (wire log).foldr Event.countTexts acc = log.foldr Event.countTexts acc := by
  rw [wire, List.foldr_filter]
  congr 1
  funext ev acc
  cases ev <;> rfl

/-- What is written is these turns. -/
structure Speaks (evs : List (Event cfg)) (ts : List (Turn UInt8)) : Prop where
  bytes : written evs = ts.flatMap (Turn.written 13 26)
  texts : ∀ ns, evs.foldr Event.countTexts (0, ns) = (0, ts.map (·.texts.length) ++ ns)

theorem Speaks.append {evs evs' : List (Event cfg)} {ts ts' : List (Turn UInt8)}
    (h : Speaks evs ts) (h' : Speaks evs' ts') : Speaks (evs ++ evs') (ts ++ ts') where
  bytes := by rw [written_append, h.bytes, h'.bytes, List.flatMap_append]
  texts ns := by rw [List.foldr_append, h'.texts, h.texts, List.map_append, List.append_assoc]

theorem Speaks.nil : Speaks ([] : List (Event cfg)) [] := ⟨rfl, fun _ => rfl⟩

/-- A callback, and the end of a command, are not on the wire. -/
theorem speaks_notice (e : CmdEntry cfg) (r : Response) :
    Speaks (e.notice r ++ [.completed e]) [] := by
  rw [CmdEntry.notice]
  cases e.cb <;> exact ⟨rfl, fun _ => rfl⟩

/-- What is written for a command is a turn; the texts that are behind it already count
for it. -/
theorem Sent.written {e : CmdEntry cfg} {b : Bool} {evs : List (Event cfg)} (h : Sent e b evs)
    (hbody : ∀ ev ∈ evs, ev.bodied = true)
    (hfull : ∀ site data n, .write site data n ∈ evs → n = data.length) :
    ∃ t, TurnOf e t ∧ LibAt.written evs = t.written 13 26 ∧ ∀ n ns,
      evs.foldr Event.countTexts (n, ns) = (0, (t.texts.length + n) :: ns) := by
  induction h with
  | start hpair =>
    refine ⟨e.turn 0, ⟨0, rfl, fun _ => rfl⟩, ?_⟩
    cases hpair with
    | shortData n hn => exact absurd (hfull .cmd e.cmd.bytes n List.mem_cons_self) hn
    | shortTerm n hn => exact absurd (hfull .cr [13] n (by simp)) hn
    | sent => simp [LibAt.written, CmdEntry.turn, Turn.written, Event.countTexts]
  | @answer b evs evs' _ hpair ih =>
    obtain ⟨hbody, hbody'⟩ := List.forall_mem_append.mp hbody
    obtain ⟨_, ⟨k, rfl, -⟩, hwritten, hcount⟩ := ih hbody fun site data n hmem =>
      hfull site data n (List.mem_append_left _ hmem)
    have hfull' : ∀ site data n, .write site data n ∈ evs' → n = data.length :=
      fun site data n hmem => hfull site data n (List.mem_append_right _ hmem)
    refine ⟨e.turn (k + 1), ⟨k + 1, rfl, fun hnil => ?_⟩, ?_, fun n ns => ?_⟩
    · obtain ⟨n, hmem⟩ : ∃ n, Event.write .body e.body.bytes n ∈ evs' := by
        cases hpair <;> exact ⟨_, List.mem_cons_self⟩
      exact absurd (hbody' _ hmem) (by simp [Event.bodied, hnil])
    · rw [written_append, hwritten]
      cases hpair with
      | shortData n hn => exact absurd (hfull' .body e.body.bytes n List.mem_cons_self) hn
      | shortTerm n hn => exact absurd (hfull' .ctrlZ [26] n (by simp)) hn
      | sent => simp [LibAt.written, CmdEntry.turn, Turn.written, List.replicate_succ']
    · have hone : evs'.foldr Event.countTexts (n, ns) = (n + 1, ns) := by
        cases hpair <;> rfl
      rw [List.foldr_append, hone, hcount]
      simp only [CmdEntry.turn, List.length_replicate]
      rw [Nat.add_right_comm, Nat.add_assoc]

theorem Sent.speaks {e : CmdEntry cfg} {b : Bool} {evs : List (Event cfg)} (h : Sent e b evs)
    (hbody : ∀ ev ∈ evs, ev.bodied = true)
    (hfull : ∀ site data n, .write site data n ∈ evs → n = data.length) :
    ∃ t, TurnOf e t ∧ Speaks evs [t] := by
  obtain ⟨t, ht, hwritten, hcount⟩ := h.written hbody hfull
  exact ⟨t, ht, by rw [hwritten, List.flatMap_singleton], hcount 0⟩

/-- What is written for a command that is done: its turn, or nothing. -/
theorem Block.speaks {e : CmdEntry cfg} {evs : List (Event cfg)} (h : Block e evs)
    (hbody : ∀ ev ∈ evs, ev.bodied = true)
    (hfull : ∀ site data n, .write site data n ∈ evs → n = data.length) :
    Speaks evs [] ∨ ∃ t, TurnOf e t ∧ Speaks evs [t] := by
  cases h with
  | drained => exact .inl (speaks_notice e _)
  | @ended b evs r hsent _ =>
    obtain ⟨t, ht, hspeaks⟩ := hsent.speaks (fun ev hev => hbody ev (by simp [hev]))
      fun site data n hmem => hfull site data n (by simp [hmem])
    rw [List.append_assoc]
    exact .inr ⟨t, ht, hspeaks.append (speaks_notice e r)⟩

/-- What is written in the blocks: the turns of some of the commands, in order. -/
theorem speaks_blocks {es : List (CmdEntry cfg)} {blocks : List (List (Event cfg))}
    (h : List.Forall₂ Block es blocks) (hbody : ∀ ev ∈ blocks.flatten, ev.bodied = true)
    (hfull : ∀ site data n, .write site data n ∈ blocks.flatten → n = data.length) :
    ∃ (sent : List (CmdEntry cfg)) (ts : List (Turn UInt8)), sent.Sublist es ∧
      List.Forall₂ TurnOf sent ts ∧ Speaks blocks.flatten ts := by
  induction h with
  | nil => exact ⟨[], [], .slnil, .nil, .nil⟩
  | @cons e evs es blocks hblock _ ih =>
    rw [List.flatten_cons] at hbody hfull ⊢
    obtain ⟨hevs, hrest⟩ := List.forall_mem_append.mp hbody
    obtain ⟨sent, ts, hsub, hts, hsent⟩ := ih hrest fun site data n hmem =>
      hfull site data n (List.mem_append_right _ hmem)
    rcases hblock.speaks hevs fun site data n hmem =>
      hfull site data n (List.mem_append_left _ hmem) with hnil | ⟨t, ht, hturn⟩
    · exact ⟨sent, ts, hsub.cons e, hts, hnil.append hsent⟩
    · exact ⟨e :: sent, t :: ts, hsub.cons_cons e, .cons ht hts, hturn.append hsent⟩

/-- **What went out**, command by command: turns of accepted commands, in the order of
acceptance. -/
theorem Reachable.written (hfit : cfg.Fits) {w : World cfg σ}
    (h : Reachable (fun env _ => env.Respects NotCancelling) w)
    (hfull : ∀ site data n, .write site data n ∈ w.log → n = data.length) :
    ∃ (ds : List CmdDesc) (ts : List (Turn UInt8)), ds.Sublist (acceptances w.log) ∧
      List.Forall₂ (fun d t => TurnOf (cmdEntryOf cfg d) t) ds ts ∧
      LibAt.written w.log = ts.flatMap (Turn.written 13 26) ∧
      textsGiven w.log = ts.map (·.texts.length) := by
  have hc : ¬Cancelled w.log := h.notCancelled fun _ _ henv => henv
  have horder := (h.lifecycle hfit hc).accepted_eq
  obtain ⟨hqueue, cur, ⟨blocks, hblocks, hwire⟩, hstate⟩ :=
    (wireDiscipline (σ := σ) hfit).reachable (fun _ _ henv => henv) wireRest_init h
  have hmem : ∀ ev ∈ blocks.flatten ++ cur, ev ∈ w.log := fun ev hev =>
    List.mem_of_mem_filter (hwire ▸ hev)
  have hbody := h.bodied hfit hc
  obtain ⟨sent, ts, hsub, hts, hsent⟩ := speaks_blocks hblocks
    (fun ev hev => hbody ev (hmem ev (List.mem_append_left _ hev)))
    fun site data n hev => hfull site data n (hmem _ (List.mem_append_left _ hev))
  -- the active command has been sent as well
  obtain ⟨sent', ts', hsub', hts', hcur⟩ : ∃ (sent' : List (CmdEntry cfg))
      (ts' : List (Turn UInt8)), sent'.Sublist w.eng.pending ∧ List.Forall₂ TurnOf sent' ts' ∧
      Speaks cur ts' := by
    rcases hstate with ⟨-, rfl⟩ | ⟨hs, hcur⟩
    · exact ⟨[], [], List.nil_sublist _, .nil, .nil⟩
    · obtain ⟨rest, hrest⟩ := Engine.pending_eq_cons (hqueue.active (by simp [hs]))
      obtain ⟨t, ht, hturn⟩ := hcur.speaks
        (fun ev hev => hbody ev (hmem ev (List.mem_append_right _ hev)))
        fun site data n hev => hfull site data n (hmem _ (List.mem_append_right _ hev))
      exact ⟨[w.eng.queue w.eng.qTail], [t], hrest ▸ (List.nil_sublist rest).cons_cons _,
        .cons ht .nil, hturn⟩
  have hspeaks := hsent.append hcur
  rw [← hwire] at hspeaks
  obtain ⟨ds, hds, heq⟩ := List.sublist_map_iff.mp (horder ▸ hsub.append hsub')
  refine ⟨ds, ts ++ ts', hds, ?_, ?_, ?_⟩
  · rw [← List.forall₂_map_left_iff, ← heq]
    exact List.rel_append hts hts'
  · rw [← written_wire, hspeaks.bytes]
  · rw [textsGiven, ← foldr_countTexts_wire, hspeaks.texts, List.append_nil]

/-! ## Reading -/

/-- Cutting at the CRs undoes writing line after line. -/
theorem splitOn_lines {ls : List (List UInt8)} (h : ∀ l ∈ ls, (13 : UInt8) ∉ l) :
    (ls.flatMap (· ++ [13])).splitOn 13 = ls ++ [[]] := by
  induction ls with
  | nil => rfl
  | cons l ls ih =>
    obtain ⟨hl, hls⟩ := List.forall_mem_cons.mp h
    rw [List.flatMap_cons, List.append_assoc, List.singleton_append,
      List.splitOn_append_cons_self, ih hls, List.splitOn_eq_singleton hl]
    rfl

namespace Request

/-- A line is printable, and at most 27 characters long. -/
theorem line_text (q : Request) :
    (∀ b ∈ q.line, 33 ≤ b.toNat ∧ b.toNat ≤ 126 ∧ b ≠ 34) ∧ q.line.length ≤ 27 := by
  constructor
  · have hverb : q.verb.all (fun b => 33 ≤ b.toNat ∧ b.toNat ≤ 126 ∧ b ≠ 34) = true := by
      cases q <;> rfl
    intro b hb
    rcases List.mem_append.mp hb with hb | hb
    · simpa using List.all_eq_true.mp hverb b hb
    · rcases mem_numerals hb with rfl | hdigit
      · decide
      · refine ⟨by omega, by omega, ?_⟩
        rintro rfl
        simp at hdigit
  · have hlength : q.verb.length + 4 * q.args.length ≤ 28 := by
      cases q with
      | cfun fun_ rst =>
        by_cases h : rst = 0
        · rw [args_cfun_zero h]
          exact Nat.le_of_ble_eq_true rfl
        · rw [args_cfun h]
          exact Nat.le_of_ble_eq_true rfl
      | _ => exact Nat.le_of_ble_eq_true rfl
    by_cases hargs : q.args = []
    · have hverb : q.verb.length ≤ 11 := by
        cases q <;> exact Nat.le_of_ble_eq_true rfl
      rw [line, hargs]
      simpa using Nat.le_trans hverb (by decide)
    · have hlt := length_line_lt hargs
      omega

/-- The queue entry of a request holds its whole line. -/
theorem entry_cmd (htx : 28 ≤ cfg.txBufSize) (q : Request) (cb : Option Ptr) (user : Ptr) :
    (cmdEntryOf cfg (q.desc cb user)).cmd.bytes = q.line := by
  obtain ⟨htext, hlength⟩ := q.line_text
  have h0 : (0 : UInt8) ∉ q.line := fun h0 => absurd (htext 0 h0).1 (by decide)
  change (cstr q.line).take (cfg.txBufSize - 1) = q.line
  rw [cstr_eq_self h0, List.take_of_length_le (by omega)]

end Request

/-- **The modem reads the requests.** In a run whose hooks cancel nothing, let the
application make requests only, and let no write be short. The lines that go out are
those of requests, in the order in which these were accepted, and each is read as the
request it was. -/
theorem requests_read (hfit : cfg.Fits) (htx : 28 ≤ cfg.txBufSize) {w : World cfg σ}
    (h : Reachable (fun env _ => env.Respects NotCancelling) w)
    (hreq : ∀ d ∈ acceptances w.log, ∃ (q : Request) (cb : Option Ptr) (user : Ptr),
      d = q.desc cb user)
    (hfull : ∀ site data n, .write site data n ∈ w.log → n = data.length) :
    ∃ (ds : List CmdDesc) (qs : List Request), ds.Sublist (acceptances w.log) ∧
      List.Forall₂ (fun d q => ∃ cb user, d = q.desc cb user) ds qs ∧
      modemReads (written w.log) = qs.map fun q => some q.canonical := by
  obtain ⟨ds, ts, hds, hts, hwritten, -⟩ := h.written hfit hfull
  -- a request has no body, so its turn is its line
  obtain ⟨qs, hqs, hturns⟩ : ∃ qs : List Request,
      List.Forall₂ (fun d q => ∃ cb user, d = q.desc cb user) ds qs ∧
      ts = qs.map fun q => ⟨q.line, []⟩ := by
    have hall : ∀ d ∈ ds, ∃ (q : Request) (cb : Option Ptr) (user : Ptr), d = q.desc cb user :=
      fun d hd => hreq d (hds.subset hd)
    clear hds hwritten
    induction hts with
    | nil => exact ⟨[], .nil, rfl⟩
    | cons ht _ ih =>
      obtain ⟨⟨q, cb, user, rfl⟩, hrest⟩ := List.forall_mem_cons.mp hall
      obtain ⟨qs, hqs, rfl⟩ := ih hrest
      obtain ⟨k, rfl, hk⟩ := ht
      refine ⟨q :: qs, .cons ⟨cb, user, rfl⟩ hqs, ?_⟩
      rw [hk List.take_nil, CmdEntry.turn, q.entry_cmd htx]
      rfl
  have hlines : written w.log = (qs.map Request.line).flatMap (· ++ [13]) := by
    rw [hwritten, hturns, List.flatMap_map, List.flatMap_map]
    rfl
  refine ⟨ds, qs, hds, hqs, ?_⟩
  rw [modemReads, hlines, splitOn_lines]
  · rw [List.dropLast_concat, List.map_map]
    exact List.map_congr_left fun q _ => q.ofLine_line
  · intro l hl
    obtain ⟨q, -, rfl⟩ := List.mem_map.mp hl
    exact fun h13 => absurd (q.line_text.1 13 h13).1 (by decide)

/-- Requests with one descriptor are read as one. -/
theorem Request.canonical_of_desc {q q' : Request} {cb cb' : Option Ptr} {user user' : Ptr}
    (h : q.desc cb user = q'.desc cb' user') : q.canonical = q'.canonical := by
  have hline : q.line = q'.line := Option.some.inj (congrArg CmdDesc.cmd h)
  have hread := q.ofLine_line
  rw [hline, q'.ofLine_line] at hread
  exact (Option.some.inj hread).symm

/-- Three requests, the middle one with a number, all of them answered and read. -/
theorem requests_read_three : ∃ w : World Config.default Unit,
    acceptances w.log = [Request.cregSet 2, .cmgd 12 4, .csq].map (fun q => q.desc (some 1) 7) ∧
      modemReads (written w.log) =
        [Request.cregSet 2, .cmgd 12 4, .csq].map fun q => some q.canonical := by
  obtain ⟨w, hw, hp⟩ := Reachable.of_execAll (P := fun env _ => env.Respects NotCancelling)
    plainEnv 32
    ([Request.cregSet 2, .cmgd 12 4, .csq].map (fun q => .api (.send (some (q.desc (some 1) 7)))) ++
      [.process, .api (.feed (ascii "OK\r\n")), .process, .api (.feed (ascii "ERROR\r\n")), .process])
    () (fun _ => plainEnv_respects _)
    (fun w : World Config.default Unit => decide (acceptances w.log =
        [Request.cregSet 2, .cmgd 12 4, .csq].map (fun q => q.desc (some 1) 7) ∧
        (modemReads (written w.log)).length = 3) &&
      w.log.all Event.unshort) (by decide +kernel)
  obtain ⟨hp, hall⟩ := (Bool.and_eq_true _ _).mp hp
  obtain ⟨hacc, hthree⟩ := of_decide_eq_true hp
  obtain ⟨ds, qs, hsub, hqs, hread⟩ := requests_read Config.default_fits (by decide) hw
    (fun d hd => by
      rw [hacc] at hd
      obtain ⟨q, -, rfl⟩ := List.mem_map.mp hd
      exact ⟨q, _, _, rfl⟩)
    (fun site data n hmem => eq_of_beq (List.all_eq_true.mp hall _ hmem))
  -- three lines are three requests, so none is left out
  rw [hread, List.length_map] at hthree
  have hds : ds = acceptances w.log := hsub.eq_of_length (by
    rw [hqs.length_eq, hthree, hacc]
    rfl)
  rw [hds, hacc, List.forall₂_map_left_iff] at hqs
  refine ⟨w, hacc, ?_⟩
  rw [hread, ← List.forall₂_eq_eq_eq, List.forall₂_map_left_iff, List.forall₂_map_right_iff]
  exact (hqs.imp fun q q' ⟨_, _, hdesc⟩ =>
    congrArg some (Request.canonical_of_desc hdesc).symm).flip

end LibAt
