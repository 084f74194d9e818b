import LibAt.Exchange
import LibAt.Quiet

/-!
# However the bytes are cut

An `at_process` does more than consume what is in the ring: it checks the timer
and starts the next command, so where the bytes are cut decides at which points
of the stream this happens. While at most one command is in the queue, and it
is the active one with time left (`Lone`), there is nothing for either to do,
and feeding the bytes in pieces is consuming them one after the other
(`execAll_chunks`).
-/

namespace LibAt

variable {cfg : Config} {σ : Type} {env : Env σ}

/-! ## One command at most -/

/-- Nothing is queued, or only a command that is waited for and has time
left. -/
def Lone (g : Engine cfg) : Prop :=
  g.state = .idle ∧ g.qCount = 0 ∨ g.state = .waiting ∧ g.qCount = 1 ∧ 0 < g.timerMs

theorem finalized_lone {w : World cfg σ} {status : AtResult} {c : Int} (h : w.eng.qCount = 1) :
    Lone (finalized env status c w).eng := by
  refine .inl ⟨rfl, ?_⟩
  change (w.eng.qCount + 255) % 256 = 0
  rw [h]

/-- A line leaves at most one command, and re-arms its timer if it is a prompt. -/
theorem Lone.dispatches (hprompt : 0 < cfg.promptTimeoutMs) {l : List UInt8} {w w' : World cfg σ}
    (h : Lone w.eng) (hd : Dispatches env l w w') : Lone w'.eng := by
  have hone (hw : w.eng.state = .waiting) : w.eng.qCount = 1 := by
    rcases h with ⟨hidle, -⟩ | ⟨-, hone, -⟩
    · rw [hidle] at hw
      cases hw
    · exact hone
  cases hd with
  | empty | echo | ignored | urc => exact h
  | answered w' _ hp _ ha =>
    have heng := answerPrompt_eng env (w.eng.queue w.eng.qTail) (w.emit (.line (.prompt true) l))
    rw [ha] at heng
    rw [heng]
    exact .inr ⟨rfl, hone (isPrompt_waiting hp), hprompt⟩
  | failed w₁ _ hp _ ha =>
    have heng := answerPrompt_eng env (w.eng.queue w.eng.qTail) (w.emit (.line (.prompt true) l))
    rw [ha] at heng
    exact finalized_lone (by rw [heng]; exact hone (isPrompt_waiting hp))
  | final _ _ _ _ hs _ => exact finalized_lone (w := w.emit (.line .final l)) (hone hs)
  | other =>
    obtain ⟨pool, response, heng⟩ := accumulate_eng l w
    rw [heng]
    exact h

/-- Consuming bytes leaves at most one command. -/
theorem consume_lone (hfit : cfg.Fits) (hprompt : 0 < cfg.promptTimeoutMs) (bs : List UInt8)
    {w : World cfg σ} (h : Lone w.eng) :
    ∃ w', consume (quiet env) env bs w = some w' ∧ Lone w'.eng := by
  refine consume_quiet hfit (I := fun w => Lone w.eng) (fun b w g hw hb => ?_)
    (fun b w w' l hw _ hd => ?_) bs h
  · obtain ⟨line, lfsm, rfl⟩ := lfsmByte_eq hb
    exact hw
  · have hlone := hw.dispatches hprompt hd
    exact hlone

/-- There is nothing to do behind the drain loop. -/
theorem afterDrain_lone {w : World cfg σ} (h : Lone w.eng) : afterDrain env w = some w := by
  rw [afterDrain, checkTimeout]
  rcases h with ⟨hs, h0⟩ | ⟨hs, -, htime⟩
  · rw [if_neg (by simp [hs]), Option.bind_some, startIfIdle, if_neg (by omega)]
  · rw [if_neg (by omega), Option.bind_some, startIfIdle, if_neg (by simp [hs])]

/-! ## The ring -/

/-- The ring when `c` has been fed. -/
def RxRing.stored (r : RxRing cfg) (c : List UInt8) : RxRing cfg :=
  c.foldl (fun r b =>
    { r with buf := Function.update r.buf (rxIndex cfg r.head) b, head := r.head + 1 }) r

/-- The ring when `c` has been fed and read. -/
def RxRing.passed (r : RxRing cfg) (c : List UInt8) : RxRing cfg := (r.stored c).drained

/-- Feeding does not depend on what has been read. -/
theorem RxRing.passed_drained (r : RxRing cfg) (c : List UInt8) :
    r.drained.passed c = r.passed c := by
  have h (t : UInt16) : ({ r with tail := t } : RxRing cfg).stored c =
      { r.stored c with tail := t } := by
    induction c generalizing r with
    | nil => rfl
    | cons b c ih =>
      exact ih { r with buf := Function.update r.buf (rxIndex cfg r.head) b, head := r.head + 1 }
  change (({ r with tail := r.head } : RxRing cfg).stored c).drained = _
  rw [h]
  rfl

theorem RxRing.passed_append (r : RxRing cfg) (c d : List UInt8) :
    (r.passed c).passed d = r.passed (c ++ d) := by
  have hstored : (r.stored c).stored d = r.stored (c ++ d) := by
    rw [stored, stored, stored, List.foldl_append]
  exact (passed_drained _ d).trans (congrArg drained hstored)

/-- What fits is fed whole. -/
theorem atFeed_fits (c : List UInt8) : ∀ {g : Engine cfg},
    rxringUsed g.rx + c.length ≤ cfg.rxBufSize → rxringUsed g.rx + c.length < 2 ^ 16 →
      (atFeed c g).rx = g.rx.stored c ∧ rxringBytes (g.rx.stored c) = rxringBytes g.rx ++ c := by
  induction c with
  | nil => exact fun _ _ => ⟨rfl, (List.append_nil _).symm⟩
  | cons b c ih =>
    intro g hfit hlt
    rw [List.length_cons] at hfit hlt
    have hroom : ¬rxringUsed g.rx ≥ cfg.rxBufSize := by omega
    have hpush : rxringPush g.rx b = some _ := if_neg hroom
    have hbytes := rxringPush_bytes hpush (by omega)
    have hused := congrArg List.length hbytes
    rw [List.length_append, length_rxringBytes, length_rxringBytes, List.length_singleton] at hused
    obtain ⟨hfeed, hrest⟩ := ih (g := { g with rx := { g.rx with
        buf := Function.update g.rx.buf (rxIndex cfg g.rx.head) b, head := g.rx.head + 1 } })
      (by dsimp only; omega) (by dsimp only; omega)
    refine ⟨Eq.trans ?_ hfeed, ?_⟩
    · simp only [atFeed, List.foldl_cons, hpush, Option.getD_some]
    · refine hrest.trans ?_
      rw [hbytes, List.append_assoc, List.singleton_append]

/-! ## Pieces -/

/-- Feed each piece and let the engine run. -/
def chunkCalls (cs : List (List UInt8)) : List TopCall :=
  cs.flatMap fun c => [.api (.feed c), .process]

/-- **One piece** is consumed, and nothing else happens. -/
theorem execAll_chunk (hfit : cfg.Fits) (hsize : cfg.rxBufSize ≤ 2 ^ 15)
    (hprompt : 0 < cfg.promptTimeoutMs) (henv : env.Silent) {fuel : Nat}
    (hfuel : cfg.rxBufSize < fuel) {c : List UInt8} (hc : c.length ≤ cfg.rxBufSize)
    {w : World cfg σ} (hempty : rxringEmpty w.eng.rx) (hlone : Lone w.eng) :
    ∃ w', consume (quiet env) env c w = some w' ∧ Lone w'.eng ∧
      execAll env fuel [.api (.feed c), .process] w =
        some (w'.mapEng (setRx (w.eng.rx.passed c))) := by
  obtain ⟨w', hw', hlone'⟩ : ∃ w', consume (quiet env) env c w = some w' ∧ Lone w'.eng :=
    consume_lone hfit hprompt c hlone
  refine ⟨w', hw', hlone', ?_⟩
  have hbytes₀ := rxringEmpty_iff.mp hempty
  have hused : rxringUsed w.eng.rx = 0 := by rw [← length_rxringBytes, hbytes₀, List.length_nil]
  obtain ⟨hrx, hbytes⟩ := atFeed_fits c (g := w.eng) (by omega) (by omega)
  rw [hbytes₀, List.nil_append] at hbytes
  have hlen : rxringUsed (w.eng.rx.stored c) = c.length := by rw [← length_rxringBytes, hbytes]
  have hfeed : w.putEng (atFeed c w.eng) = w.mapEng (setRx (w.eng.rx.stored c)) := by
    rw [World.mapEng, setRx, ← hrx]
    rfl
  have hconsume : consume (quiet env) env c (w.mapEng (setRx (w.eng.rx.stored c))) =
      some (w'.mapEng (setRx (w.eng.rx.stored c))) := by
    rw [consume_mapEng (setRx_inert _) (quiet_unnoticed _) fun _ _ => rfl, hw']
    rfl
  have hlt : rxringUsed (w.eng.rx.stored c) < fuel := by omega
  have hprocess := exec_process henv (w := w.mapEng (setRx (w.eng.rx.stored c))) hlt
  change _ = (((consume (quiet env) env (rxringBytes (w.eng.rx.stored c)) _).map _).bind _).map _
    at hprocess
  have hdone : afterDrain env (w'.mapEng (setRx (w.eng.rx.passed c))) = _ := afterDrain_lone hlone'
  rw [hbytes, hconsume, Option.map_some, Option.bind_some] at hprocess
  replace hprocess := hprocess.trans (congrArg (Option.map _) hdone)
  change (exec env fuel .process (w.putEng (atFeed c w.eng))).bind (fun r => some r.2) = _
  rw [hfeed, hprocess]
  rfl

/-- **Any pieces** are consumed one after the other. -/
theorem execAll_chunks (hfit : cfg.Fits) (hsize : cfg.rxBufSize ≤ 2 ^ 15)
    (hprompt : 0 < cfg.promptTimeoutMs) (henv : env.Silent) {fuel : Nat}
    (hfuel : cfg.rxBufSize < fuel) (cs : List (List UInt8)) :
    ∀ {w : World cfg σ}, (∀ c ∈ cs, c.length ≤ cfg.rxBufSize) → rxringEmpty w.eng.rx →
      Lone w.eng →
      ∃ w', consume (quiet env) env cs.flatten w = some w' ∧
        execAll env fuel (chunkCalls cs) w =
          some (w'.mapEng (setRx (w.eng.rx.passed cs.flatten))) := by
  induction cs with
  | nil =>
    intro w _ hempty _
    have hdrained : w.eng.rx.drained = w.eng.rx :=
      (rxringPop_none (by rw [rxringPop, if_pos hempty])).2
    refine ⟨w, rfl, ?_⟩
    change some w = some (w.mapEng (setRx w.eng.rx.drained))
    rw [hdrained]
    rfl
  | cons c cs ih =>
    intro w hcs hempty hlone
    obtain ⟨hc, hcs⟩ := List.forall_mem_cons.mp hcs
    obtain ⟨w₁, hw₁, hlone₁, hx₁⟩ := execAll_chunk hfit hsize hprompt henv hfuel hc hempty hlone
    obtain ⟨w₂, hw₂, hx₂⟩ := ih (w := w₁.mapEng (setRx (w.eng.rx.passed c))) hcs
      (beq_self_eq_true _) hlone₁
    rw [consume_mapEng (setRx_inert _) (quiet_unnoticed _) fun _ _ => rfl] at hw₂
    obtain ⟨w₃, hw₃, rfl⟩ := Option.map_eq_some_iff.mp hw₂
    refine ⟨w₃, ?_, ?_⟩
    · rw [List.flatten_cons, consume_append, hw₁, Option.bind_some, hw₃]
    · rw [chunkCalls, List.flatMap_cons, execAll_append, hx₁, Option.bind_some]
      refine hx₂.trans ?_
      rw [List.flatten_cons, ← RxRing.passed_append]
      rfl

/-- **Chunking does not matter.** With silent hooks, an empty ring and at most
one command, which is waited for, two ways of cutting the same bytes into
pieces that fit the ring lead to the same world: the same writes, handler
calls and callbacks with the same contents, in the same order, and the same
engine. -/
theorem chunking_irrelevant (hfit : cfg.Fits) (hsize : cfg.rxBufSize ≤ 2 ^ 15)
    (hprompt : 0 < cfg.promptTimeoutMs) (henv : env.Silent) {fuel : Nat}
    (hfuel : cfg.rxBufSize < fuel) {w : World cfg σ} (hempty : rxringEmpty w.eng.rx)
    (hlone : Lone w.eng) {cs ds : List (List UInt8)} (hcs : ∀ c ∈ cs, c.length ≤ cfg.rxBufSize)
    (hds : ∀ d ∈ ds, d.length ≤ cfg.rxBufSize) (heq : cs.flatten = ds.flatten) :
    ∃ w', execAll env fuel (chunkCalls cs) w = some w' ∧
      execAll env fuel (chunkCalls ds) w = some w' := by
  obtain ⟨w₁, hw₁, hx₁⟩ := execAll_chunks hfit hsize hprompt henv hfuel cs hcs hempty hlone
  obtain ⟨w₂, hw₂, hx₂⟩ := execAll_chunks hfit hsize hprompt henv hfuel ds hds hempty hlone
  rw [← heq] at hw₂ hx₂
  obtain rfl := Option.some.inj (hw₁.symm.trans hw₂)
  exact ⟨_, hx₁, hx₂⟩

theorem plainEnv_silent : plainEnv.Silent := plainEnv_respects _

/-- A payload line and `OK`, in one piece and cut inside the line and between
CR and LF. -/
theorem chunking_irrelevant_split : ∃ w w' : World Config.default Unit,
    w.eng.state = .waiting ∧
      execAll plainEnv 513 (chunkCalls [ascii "A\r\nOK\r\n"]) w = some w' ∧
      execAll plainEnv 513 (chunkCalls [ascii "A\r", ascii "\nO", ascii "K\r\n"]) w = some w' := by
  obtain ⟨w, -, hp⟩ := Reachable.of_execAll (P := fun _ _ => True) plainEnv 16
    [.api (.send (some probe)), .process] () (fun _ => trivial)
    (fun w : World Config.default Unit => decide (w.eng.state = .waiting ∧ w.eng.qCount = 1 ∧
      0 < w.eng.timerMs ∧ rxringEmpty w.eng.rx)) (by decide +kernel)
  obtain ⟨hs, hone, htime, hempty⟩ := of_decide_eq_true hp
  refine ⟨w, ?_⟩
  have hrun : ∃ w', execAll plainEnv 513 (chunkCalls [ascii "A\r\nOK\r\n"]) w = some w' ∧
      execAll plainEnv 513 (chunkCalls [ascii "A\r", ascii "\nO", ascii "K\r\n"]) w = some w' :=
    chunking_irrelevant Config.default_fits (by decide) (by decide) plainEnv_silent (by decide)
      hempty (.inr ⟨hs, hone, htime⟩) (by decide) (by decide) (by decide)
  obtain ⟨w', hx, hx'⟩ := hrun
  exact ⟨w', hs, hx, hx'⟩

end LibAt
