import LibAt.Chunking
import LibAt.Interrupts
import LibAt.Oblivious

/-!
# Bytes that arrive in the middle

Nothing in the engine looks at the ring but the drain loop, so it makes no difference to the
rest when bytes come in, and a byte that is taken does not depend on those behind it. So an
`at_process` that is interrupted by `at_feed` is one that was not interrupted: some of the
bytes came before it, and the others after it (`atProcessIsr_fed`), if there is room for them.
A run with such interrupts reaches nothing that a run without them does not.
-/

namespace LibAt

variable {cfg : Config} {σ : Type}

/-! ## Interrupts that bring bytes -/

/-- Hooks that have nothing to do with the ring. -/
def RingFree (_ : HookKind) (c : ApiCall) : Prop := (∀ data, c ≠ .feed data) ∧ c ≠ .reset

/-- The bytes an interrupt brings. -/
def Interrupt.bytes : Interrupt → List UInt8
  | .feed data => data
  | .tick _ => []

/-- The bytes that come in. -/
def arrivals (is : List Interrupt) : List UInt8 := is.flatMap Interrupt.bytes

/-- The interrupts bring bytes, for which there is room in the ring. -/
def FeedsFitting (w : World cfg σ) (is : List Interrupt) : Prop :=
  (∀ i ∈ is, i = .feed i.bytes) ∧ rxringUsed w.eng.rx + (arrivals is).length ≤ cfg.rxBufSize

/-- Some bytes come in. -/
def World.fed (data : List UInt8) (w : World cfg σ) : World cfg σ := w.mapEng (atFeed data)

theorem arrivals_append (is js : List Interrupt) :
    arrivals (is ++ js) = arrivals is ++ arrivals js := List.flatMap_append

theorem World.fed_append (a b : List UInt8) (w : World cfg σ) :
    w.fed (a ++ b) = (w.fed a).fed b := by
  rw [fed, fed, fed, mapEng, mapEng, mapEng, atFeed, List.foldl_append]
  rfl

/-- Interrupts that bring bytes are one feed of all of them. -/
theorem World.interrupted_eq_fed {is : List Interrupt} (h : ∀ i ∈ is, i = .feed i.bytes) :
    ∀ w : World cfg σ, w.interrupted is = w.fed (arrivals is) := by
  induction is with
  | nil => exact fun w => rfl
  | cons i is ih =>
    intro w
    obtain ⟨hi, h⟩ := List.forall_mem_cons.mp h
    have harr : arrivals (i :: is) = i.bytes ++ arrivals is := rfl
    rw [World.interrupted_cons, ih h, harr, World.fed_append, hi]
    rfl

/-! ## Nobody looks at the ring -/

/-- A change of the ring. -/
def onRing (f : RxRing cfg → RxRing cfg) (g : Engine cfg) : Engine cfg := { g with rx := f g.rx }

/-- What bytes that come in do to the ring. -/
def ringFed (data : List UInt8) (r : RxRing cfg) : RxRing cfg :=
  data.foldl (fun r b => (rxringPush r b).getD r) r

/-- Foreign code that has nothing to do with the ring. -/
def Blind (invoke : Invocation → World cfg σ → Option (World cfg σ)) : Prop :=
  ∀ f : RxRing cfg → RxRing cfg, Unnoticed invoke (onRing f)

/-- No call but `at_feed` and `at_reset` looks at the ring. -/
theorem onRing_inertApi (f : RxRing cfg → RxRing cfg) : InertApi RingFree (onRing f) where
  toInertByte := by constructor <;> first | intros; rfl | constructor <;> intros <;> rfl
  qHead _ := rfl
  qCount _ := rfl
  timerMs _ := rfl
  setTimer _ _ := rfl
  setTable _ _ := rfl
  enqueue _ _ _ _ := rfl
  feed hc := absurd rfl (hc.1 _)
  drainNext hc := absurd rfl hc.2
  reset hc := absurd rfl hc.2

section

variable {invoke : Invocation → World cfg σ → Option (World cfg σ)} {env : Env σ}
  {f : RxRing cfg → RxRing cfg}

/-- **Hooks do not notice the change**, however deep they nest. -/
theorem invoke_blind (henv : env.Respects RingFree) (n : Nat) :
    Blind (LibAt.invoke env n : Invocation → World cfg σ → _) := by
  intro f
  have hobl : Oblivious (LibAt.invoke env n : Invocation → World cfg σ → _) (onRing f) [] :=
    invoke_adapt (onRing_inertApi f) henv n
  exact hobl

/-- So a completion does not notice a change of it, -/
theorem engineFinalize_onRing (hinv : Blind invoke) (s : AtResult) (c : Int) (w : World cfg σ) :
    engineFinalize invoke s c (w.mapEng (onRing f)) =
      (engineFinalize invoke s c w).map (World.mapEng (onRing f)) := by
  have hobl : Oblivious invoke (onRing f) [] := hinv f
  exact engineFinalize_adapt (onRing_inertApi f).toInert hobl s c w

/-- nor do the writes. -/
theorem writePair_onRing (site₁ site₂ : WriteSite) (d : List UInt8) (term : UInt8)
    (w : World cfg σ) :
    writePair env site₁ site₂ d term (w.mapEng (onRing f)) =
      ((writePair env site₁ site₂ d term w).1,
        (writePair env site₁ site₂ d term w).2.mapEng (onRing f)) := by
  have hu : Inert (onRing f) := (onRing_inertApi f).toInert
  simp only [writePair, World.mapEng_eq_adapt, atPlatformWrite_adapt, traceTx_adapt hu]
  split
  · rfl
  · split <;> rfl

theorem transmit_onRing (w : World cfg σ) :
    transmit env (w.mapEng (onRing f)) =
      ((transmit env w).1, (transmit env w).2.mapEng (onRing f)) := by
  rw [transmit_eq, transmit_eq, ← writePair_onRing]
  rfl

/-- Nor does the check of the countdown, -/
theorem checkTimeout_onRing (hinv : Blind invoke) (w : World cfg σ) :
    checkTimeout invoke (w.mapEng (onRing f)) =
      (checkTimeout invoke w).map (World.mapEng (onRing f)) := by
  rw [checkTimeout, checkTimeout]
  change (if (w.eng.state = .waiting ∨ w.eng.state = .prompt) ∧ w.eng.timerMs = 0 then _ else _) = _
  split
  · exact engineFinalize_onRing hinv .errTimeout 0 w
  · rfl

/-- or the start of the next command, -/
theorem startIfIdle_onRing (hinv : Blind invoke) (w : World cfg σ) :
    startIfIdle invoke env (w.mapEng (onRing f)) =
      (startIfIdle invoke env w).map (World.mapEng (onRing f)) := by
  rw [startIfIdle, startIfIdle]
  change (if w.eng.state = .idle ∧ w.eng.qCount > 0 then _ else _) = _
  split
  · rw [engineStartNext, engineStartNext, transmit_onRing]
    rcases transmit env w with ⟨_ | _, v⟩
    · exact engineFinalize_onRing hinv .errIo 0 v
    · rfl
  · rfl

/-- or a byte that has been taken. -/
theorem processByte_onRing (hinv : Blind invoke) (b : UInt8) (w : World cfg σ) :
    processByte invoke env b (w.mapEng (onRing f)) =
      (processByte invoke env b w).map (World.mapEng (onRing f)) :=
  processByte_mapEng (onRing_inertApi f).toInertByte (hinv f) fun _ _ => rfl

/-- The ring is as it was. -/
theorem processByte_rx (hinv : Blind invoke) {b : UInt8} {w w' : World cfg σ}
    (h : processByte invoke env b w = some w') : w'.eng.rx = w.eng.rx := by
  have hsame : w.mapEng (onRing fun _ => w.eng.rx) = w := rfl
  have hb : processByte invoke env b (w.mapEng (onRing fun _ => w.eng.rx)) = _ :=
    processByte_onRing hinv b w
  rw [hsame, h, Option.map_some] at hb
  have hrx := congrArg (fun v : World cfg σ => v.eng.rx) (Option.some.inj hb)
  exact hrx

end

/-! ## The ring -/

theorem RxRing.stored_tail (t : UInt16) (c : List UInt8) : ∀ r : RxRing cfg,
    ({ r with tail := t } : RxRing cfg).stored c = { r.stored c with tail := t } := by
  induction c with
  | nil => exact fun r => rfl
  | cons b c ih =>
    exact fun r =>
      ih { r with buf := Function.update r.buf (rxIndex cfg r.head) b, head := r.head + 1 }

/-- In particular, nobody notices that bytes come in. -/
theorem processByte_fed {invoke : Invocation → World cfg σ → Option (World cfg σ)} {env : Env σ}
    (hinv : Blind invoke) (b : UInt8) (data : List UInt8) (w : World cfg σ) :
    processByte invoke env b (w.fed data) = (processByte invoke env b w).map (World.fed data) :=
  processByte_onRing (f := ringFed data) hinv b w

theorem checkTimeout_fed {invoke : Invocation → World cfg σ → Option (World cfg σ)}
    (hinv : Blind invoke) (data : List UInt8) (w : World cfg σ) :
    checkTimeout invoke (w.fed data) = (checkTimeout invoke w).map (World.fed data) :=
  checkTimeout_onRing (f := ringFed data) hinv w

theorem startIfIdle_fed {invoke : Invocation → World cfg σ → Option (World cfg σ)} {env : Env σ}
    (hinv : Blind invoke) (data : List UInt8) (w : World cfg σ) :
    startIfIdle invoke env (w.fed data) = (startIfIdle invoke env w).map (World.fed data) :=
  startIfIdle_onRing (f := ringFed data) hinv w

/-- Bytes for which there is room are in the ring behind the others. -/
theorem rxringUsed_fed (hsize : cfg.rxBufSize ≤ 2 ^ 15) {data : List UInt8} {g : Engine cfg}
    (hfits : rxringUsed g.rx + data.length ≤ cfg.rxBufSize) :
    rxringUsed (atFeed data g).rx = rxringUsed g.rx + data.length := by
  obtain ⟨hfed, hbytes⟩ := atFeed_fits data (g := g) hfits (by omega)
  rw [hfed, ← length_rxringBytes, hbytes, List.length_append, length_rxringBytes]

/-- The byte that is taken does not depend on those that come in behind it. -/
theorem rxringPop_fed (hsize : cfg.rxBufSize ≤ 2 ^ 15) {data : List UInt8} {g : Engine cfg}
    {b : UInt8} {rx : RxRing cfg} (hp : rxringPop g.rx = some (b, rx))
    (hfits : rxringUsed g.rx + data.length ≤ cfg.rxBufSize) :
    rxringPop (atFeed data g).rx = some (b, (atFeed data { g with rx := rx }).rx) := by
  have hused := rxringUsed_pop hp
  have hbytes := rxringPop_bytes hp
  obtain ⟨hfed, hall⟩ := atFeed_fits data (g := g) hfits (by omega)
  obtain ⟨hfed', -⟩ := atFeed_fits data (g := { g with rx := rx })
    (by dsimp only; omega) (by dsimp only; omega)
  obtain rfl : rx = { g.rx with tail := g.rx.tail + 1 } := by
    rw [rxringPop] at hp
    split at hp
    · cases hp
    · exact (Prod.mk.inj (Option.some.inj hp)).2.symm
  have htail : (g.rx.stored data).tail = g.rx.tail := by
    have h := congrArg RxRing.tail (RxRing.stored_tail g.rx.tail data g.rx)
    exact h
  rw [hfed, hfed', RxRing.stored_tail (g.rx.tail + 1)]
  rw [hbytes, List.cons_append] at hall
  rcases hpop : rxringPop (g.rx.stored data) with _ | ⟨b', rx'⟩
  · rw [(rxringPop_none hpop).1] at hall
    cases hall
  · obtain ⟨rfl, -⟩ := List.cons.inj ((rxringPop_bytes hpop).symm.trans hall)
    rw [rxringPop] at hpop
    split at hpop
    · cases hpop
    · obtain ⟨-, rfl⟩ := Prod.mk.inj (Option.some.inj hpop)
      rw [htail]

/-! ## Interrupted and not interrupted -/

section

variable {env : Env σ} {invoke : Invocation → World cfg σ → Option (World cfg σ)}

theorem drainRx_round {fuel : Nat} {w : World cfg σ} {b : UInt8} {rx : RxRing cfg}
    (hp : rxringPop w.eng.rx = some (b, rx)) :
    drainRx invoke env (fuel + 1) w =
      (processByte invoke env b (w.putEng { w.eng with rx := rx })).bind
        (drainRx invoke env fuel) := by
  rw [drainRx, hp]
  rfl

/-- **The loop.** What came in before the ring was empty might have come before the loop, and
the rest comes behind it. -/
theorem drainRxIsr_fed (hsize : cfg.rxBufSize ≤ 2 ^ 15) (hinv : Blind invoke) (fuel : Nat) :
    ∀ {points : List (List Interrupt)} {w w' : World cfg σ}, FeedsFitting w points.flatten →
      drainRxIsr invoke env fuel points w = some w' →
      ∃ pre post, arrivals points.flatten = pre ++ post ∧
        (drainRx invoke env fuel (w.fed pre)).map (World.fed post) = some w' := by
  induction fuel with
  | zero => intro points w w' _ h; cases h
  | succ fuel ih =>
    intro points w w' ⟨hbytes, hroom⟩ h
    have hall : points.flatten = points.headD [] ++ points.tail.flatten := by
      cases points <;> rfl
    have hhead : ∀ i ∈ points.headD [], i = .feed i.bytes := fun i hi =>
      hbytes i (hall ▸ List.mem_append_left _ hi)
    have htail : ∀ i ∈ points.tail.flatten, i = .feed i.bytes := fun i hi =>
      hbytes i (hall ▸ List.mem_append_right _ hi)
    obtain ⟨hp, rfl⟩ | ⟨b, rx, v, hp, hb, hv⟩ := drainRxIsr_cases h
    · refine ⟨arrivals (points.headD []), arrivals points.tail.flatten, ?_, ?_⟩
      · rw [← arrivals_append, ← hall]
      · rw [World.interrupted_eq_fed hhead] at hp
        rw [drainRx, hp, World.interrupted_eq_fed hbytes, hall, arrivals_append, World.fed_append]
        rfl
    · rw [World.interrupted_eq_fed hhead] at hp hb
      have harr : arrivals points.flatten =
          arrivals (points.headD []) ++ arrivals points.tail.flatten := by
        rw [← arrivals_append, ← hall]
      have hlen := congrArg List.length harr
      rw [List.length_append] at hlen
      have hused := rxringUsed_pop hp
      have hfed : rxringUsed (w.fed (arrivals (points.headD []))).eng.rx =
          rxringUsed w.eng.rx + (arrivals (points.headD [])).length :=
        rxringUsed_fed hsize (by omega)
      have hrx : v.eng.rx = rx := processByte_rx hinv hb
      obtain ⟨pre, post, hsplit, hrun⟩ := ih ⟨htail, by rw [hrx]; omega⟩ hv
      have hpre := congrArg List.length hsplit
      rw [List.length_append] at hpre
      refine ⟨arrivals (points.headD []) ++ pre, post, by rw [harr, hsplit, List.append_assoc], ?_⟩
      have hpop : rxringPop ((w.fed (arrivals (points.headD []))).fed pre).eng.rx = _ :=
        rxringPop_fed hsize hp (by omega)
      have hbyte : processByte invoke env b (World.fed pre _) = _ :=
        processByte_fed hinv b pre ((w.fed (arrivals (points.headD []))).putEng
          { (w.fed (arrivals (points.headD []))).eng with rx := rx })
      rw [hb, Option.map_some] at hbyte
      have hround : drainRx invoke env (fuel + 1) ((w.fed (arrivals (points.headD []))).fed pre) =
          drainRx invoke env fuel (v.fed pre) :=
        (drainRx_round hpop).trans ((congrArg (Option.bind · _) hbyte).trans (Option.bind_some _ _))
      rw [World.fed_append, hround]
      exact hrun

/-- **An interrupted call is one that was not interrupted**: some of the bytes came before
it, and the others after it. -/
theorem atProcessIsr_fed (hsize : cfg.rxBufSize ≤ 2 ^ 15) (hinv : Blind invoke) {fuel : Nat}
    {before : List (List Interrupt)} {between : List Interrupt} {w w' : World cfg σ}
    (hI : FeedsFitting w (before.flatten ++ between))
    (h : atProcessIsr invoke env fuel before between w = some w') :
    ∃ pre post, arrivals (before.flatten ++ between) = pre ++ post ∧
      (atProcess invoke env fuel (w.fed pre)).map (World.fed post) = some w' := by
  obtain ⟨hbytes, hroom⟩ := hI
  obtain ⟨hbefore, hbetween⟩ := List.forall_mem_append.mp hbytes
  rw [arrivals_append, List.length_append] at hroom
  obtain ⟨w₁, h₁, h⟩ := Option.bind_eq_some_iff.mp h
  obtain ⟨w₂, h₂, h₃⟩ := Option.bind_eq_some_iff.mp h
  obtain ⟨pre, post, hsplit, hdrain⟩ := drainRxIsr_fed hsize hinv fuel ⟨hbefore, by omega⟩ h₁
  obtain ⟨v₁, hv₁, rfl⟩ := Option.map_eq_some_iff.mp hdrain
  rw [checkTimeout_fed hinv] at h₂
  obtain ⟨v₂, hv₂, rfl⟩ := Option.map_eq_some_iff.mp h₂
  have hfed : (v₂.fed post).interrupted between = v₂.fed (post ++ arrivals between) := by
    rw [World.interrupted_eq_fed hbetween, World.fed_append]
  change startIfIdle invoke env ((v₂.fed post).interrupted between) = _ at h₃
  rw [hfed, startIfIdle_fed hinv] at h₃
  obtain ⟨v₃, hv₃, rfl⟩ := Option.map_eq_some_iff.mp h₃
  refine ⟨pre, post ++ arrivals between, ?_, Option.map_eq_some_iff.mpr ⟨v₃, ?_, rfl⟩⟩
  · rw [arrivals_append, hsplit, List.append_assoc]
  · exact Option.bind_eq_some_iff.mpr ⟨v₁, hv₁, Option.bind_eq_some_iff.mpr ⟨v₂, hv₂, hv₃⟩⟩

end

/-- The answer comes while `at_process` is looking for it, and the next line behind it. -/
def answerPoints : List (List Interrupt) :=
  [[.feed (ascii "OK")], [.feed (ascii "\r")], [], [.feed (ascii "\n"), .feed (ascii "+")]]

end LibAt
