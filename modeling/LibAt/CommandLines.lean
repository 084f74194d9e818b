import LibAt.Injection
import LibAt.Records
import LibAt.Requests

/-!
# What a modem reads in a command line

The helpers of `at_gsm.c` that take strings build a command line from a name, an equals
sign and a record of numbers and quoted strings; `at_gsm_dial` puts a number behind `ATD`.
A modem cuts such a line at the equals sign and at the commas outside quotes
(`AtLine.ofLine`).

`helper_read`: a helper rejects its arguments and changes nothing, or it calls `at_send`
with a line in which the modem reads the very arguments, provided that the strings that
the helper does not check are clean.
-/

namespace LibAt

variable {cfg : Config}

/-! ## Lines -/

/-- What a modem reads in a command line. -/
inductive AtLine where
  | dial (number : List UInt8)
  | command (name : List UInt8) (params : List (Cell UInt8))
  deriving DecidableEq

/-- Read a line: behind `ATD` a number, behind an equals sign a record. -/
def AtLine.ofLine (l : List UInt8) : AtLine :=
  if ascii "ATD" <+: l then .dial (l.drop 3)
  else .command (l.takeWhile (· != 61)) (readRecord 44 34 ((l.dropWhile (· != 61)).drop 1))

theorem AtLine.ofLine_command {name : List UInt8} (hname : 61 ∉ name) (hlong : 3 ≤ name.length)
    (hdial : ¬ascii "ATD" <+: name) {cells : List (Cell UInt8)}
    (hcells : ∀ c ∈ cells, c.Plain 44 34) (hnone : cells ≠ [.bare []]) :
    ofLine (name ++ 61 :: record 44 34 cells) = .command name cells := by
  have hpass : ∀ b ∈ name, (b != 61) = true :=
    fun b hb => bne_iff_ne.mpr fun heq => hname (heq ▸ hb)
  have hdial' : ¬ascii "ATD" <+: name ++ 61 :: record 44 34 cells := fun h =>
    hdial (List.prefix_of_prefix_length_le h (List.prefix_append _ _) hlong)
  rw [ofLine, if_neg hdial', List.takeWhile_append_of_pos hpass,
    List.dropWhile_append_of_pos hpass, List.takeWhile_cons_of_neg (by decide),
    List.dropWhile_cons_of_neg (by decide), List.append_nil, List.drop_succ_cons, List.drop_zero,
    readRecord_record (by decide) hcells hnone]

/-! ## Arguments -/

/-- An argument of a helper: a number, or a caller string, in quotes or without. The
`Bool` says whether the helper checks the string. -/
inductive Arg where
  | num (v : Nat)
  | str (checked : Bool) (t : List UInt8)
  | raw (t : List UInt8)

namespace Arg

/-- The origin of a caller string. -/
def origin (checked : Bool) : Origin := if checked then .checked else .unchecked

/-- How it is written, each byte with its origin. -/
def label : Arg → Labelled
  | num v => lbl .own (decimal v)
  | str c t => quoted (origin c) t
  | raw t => lbl .checked (cstr t)

/-- What is read. -/
def cell : Arg → Cell UInt8
  | num v => .bare (decimal v)
  | str _ t => .quoted (cstr t)
  | raw t => .bare (cstr t)

/-- An optional last argument. -/
def opt (c : Bool) (m : Option (List UInt8)) : List Arg :=
  if cstr (m.getD []) = [] then [] else [.str c (m.getD [])]

/-- Arguments with commas between them. -/
def labels : List Arg → Labelled
  | [] => []
  | [a] => a.label
  | a :: b :: args => a.label ++ lbl .own [44] ++ labels (b :: args)

theorem label_fst (a : Arg) : a.label.map Prod.fst = a.cell.written 34 := by
  cases a <;> simp [label, cell, quoted, Cell.written]

/-- Arguments are written as a record. -/
theorem labels_fst (args : List Arg) :
    (labels args).map Prod.fst = record 44 34 (args.map cell) := by
  induction args using labels.induct with
  | case1 => rfl
  | case2 a => simp [labels, record, label_fst]
  | case3 a b args ih =>
    rw [labels, List.map_append, List.map_append, ih, label_fst, lbl_map_fst]
    simp [record]

/-- An optional argument behind others. -/
theorem labels_append_opt {args : List Arg} (hargs : args ≠ []) (c : Bool)
    (m : Option (List UInt8)) :
    labels (args ++ opt c m) = labels args ++ optQuoted (origin c) m := by
  rw [opt, optQuoted]
  split
  · rw [List.append_nil, List.append_nil]
  · induction args using labels.induct with
    | case1 => exact absurd rfl hargs
    | case2 a => simp [labels, label]
    | case3 a b args ih =>
      rw [List.cons_append, List.cons_append, labels, ← List.cons_append,
        ih (List.cons_ne_nil _ _), labels]
      simp only [List.append_assoc]

@[simp] theorem raw_notMem_opt (t : List UInt8) (c : Bool) (m : Option (List UInt8)) :
    raw t ∉ opt c m := by
  rw [opt]
  split <;> simp

theorem label_subset_labels {a : Arg} {args : List Arg} (h : a ∈ args) :
    a.label ⊆ labels args := by
  induction args using labels.induct with
  | case1 => cases h
  | case2 b =>
    rw [List.mem_singleton.mp h]
    exact List.Subset.refl _
  | case3 b c args ih =>
    intro p hp
    rw [labels]
    rcases List.mem_cons.mp h with rfl | h
    · exact List.mem_append_left _ (List.mem_append_left _ hp)
    · exact List.mem_append_right _ (ih h hp)

/-- No byte of a caller string is a quote. -/
def NoQuotes (l : Labelled) : Prop := ∀ p ∈ l, p.2 ≠ .own → p.1 ≠ 34

/-- An argument that can be told from its neighbours. -/
theorem cell_plain {a : Arg} (hquotes : NoQuotes a.label) (hraw : ∀ t, a = raw t → 44 ∉ cstr t) :
    a.cell.Plain 44 34 := by
  cases a with
  | num v =>
    refine ⟨comma_notMem_decimal v, fun hquo => ?_⟩
    exact absurd (mem_decimal hquo).1 (by decide)
  | str c t =>
    intro hquo
    refine hquotes (34, origin c) ?_ ?_ rfl
    · simp [label, quoted, lbl, hquo]
    · cases c <;> decide
  | raw t =>
    refine ⟨hraw t rfl, fun hquo => ?_⟩
    exact hquotes (34, .checked) (by simpa [label, lbl] using hquo) (by decide) rfl

/-- A single argument is not empty, unless it stands in quotes. -/
theorem cell_ne_nil {a : Arg} (hraw : ∀ t, a = raw t → cstr t ≠ []) : a.cell ≠ .bare [] := by
  cases a with
  | num v => simpa [cell] using decimal_ne_nil v
  | str c t => simp [cell]
  | raw t => simpa [cell] using hraw t rfl

end Arg

/-! ## What a helper says -/

namespace Helper

/-- The name: what stands before the equals sign. -/
def name (h : Helper) : List UInt8 := h.opening.takeWhile (· != 61)

/-- The arguments, as they stand in the line. -/
def args : Helper → List Arg
  | cscsSet s | cpbsSet s => [.str true (s.getD [])]
  | cpinEnter s | cclkSet s => [.str false (s.getD [])]
  | cpinPuk puk newPin => [.str false (puk.getD []), .str false (newPin.getD [])]
  | clckQuery fac => [.str false (fac.getD []), .num 2]
  | clckSet fac mode passwd =>
    [.str false (fac.getD []), .num mode.toNat] ++ Arg.opt false passwd
  | cpwd fac oldPw newPw =>
    [.str false (fac.getD []), .str false (oldPw.getD []),
      .str false (newPw.getD [])]
  | copsManual oper act => [.num 1, .num 2, .str false (oper.getD []), .num act.toNat]
  | cpolWrite idx fmt oper => [.num idx.toNat, .num fmt.toNat, .str true (oper.getD [])]
  | cgdcont none => []
  | cgdcont (some ctx) =>
    [.num ctx.cid.toNat, .str false ctx.pdpType.bytes, .str false ctx.apn.bytes] ++
      Arg.opt false (some ctx.addr.bytes)
  | cmgs number _ => [.str true (number.getD [])]
  | cpms mem1 mem2 mem3 =>
    [.str true (mem1.getD [])] ++ Arg.opt false mem2 ++ Arg.opt false mem3
  | dial .. => []
  | vts tones => [.raw (tones.getD [])]
  | crsm command fileid p1 p2 p3 data =>
    [.num command.toNat, .num fileid.toNat, .num p1.toNat, .num p2.toNat, .num p3.toNat] ++
      Arg.opt true data
  | cusd s dcs => [.num 1, .str false (s.getD []), .num dcs.toNat]

/-- What the modem is to read. -/
def said : Helper → AtLine
  | dial number voice => .dial (cstr (number.getD []) ++ if voice then [59] else [])
  | h => .command h.name (h.args.map Arg.cell)

/-- A line with a name is the name, an equals sign and the arguments. -/
theorem format_eq {h : Helper} (hdial : ∀ number voice, h ≠ dial number voice) :
    h.format = lbl .own (h.name ++ [61]) ++ Arg.labels h.args := by
  have hfields : h.opening = h.name ++ [61] → h.fields = Arg.labels h.args →
      h.format = lbl .own (h.name ++ [61]) ++ Arg.labels h.args := fun hop hfd => by
    rw [format, hop, hfd]
  cases h with
  | dial number voice => exact absurd rfl (hdial number voice)
  | copsManual oper act =>
    -- the opening holds the first two numbers already
    have hname : (copsManual oper act).name = ascii "AT+COPS" := by rfl
    have hnum : decimal 1 = [49] ∧ decimal 2 = [50] := by decide
    rw [hname]
    simp [format, opening, fields, args, Arg.labels, Arg.label, Arg.origin, ascii, lbl, hnum]
  | cusd s dcs =>
    have hname : (cusd s dcs).name = ascii "AT+CUSD" := by rfl
    have hnum : decimal 1 = [49] := by decide
    rw [hname]
    simp [format, opening, fields, args, Arg.labels, Arg.label, Arg.origin, ascii, lbl, hnum]
  | clckQuery fac =>
    refine hfields (by rfl) ?_
    have hnum : decimal 2 = [50] := by decide
    simp [fields, args, Arg.labels, Arg.label, Arg.origin, lbl, hnum]
  | clckSet fac mode passwd =>
    refine hfields (by rfl) ?_
    rw [args, Arg.labels_append_opt (by simp)]
    simp [fields, Arg.labels, Arg.label, Arg.origin]
  | cgdcont ctx =>
    refine hfields (by rfl) ?_
    cases ctx with
    | none => rfl
    | some ctx =>
      rw [args, Arg.labels_append_opt (by simp)]
      simp [fields, Arg.labels, Arg.label, Arg.origin]
  | cpms mem1 mem2 mem3 =>
    refine hfields (by rfl) ?_
    rw [args, Arg.labels_append_opt (by simp), Arg.labels_append_opt (by simp)]
    simp [fields, Arg.labels, Arg.label, Arg.origin]
  | crsm command fileid p1 p2 p3 data =>
    refine hfields (by rfl) ?_
    rw [args, Arg.labels_append_opt (by simp)]
    simp [fields, Arg.labels, Arg.label, Arg.origin]
  | _ =>
    refine hfields (by rfl) ?_
    simp [fields, args, Arg.labels, Arg.label, Arg.origin]

/-! ## What a helper does -/

section

variable {cb : Option Ptr} {user : Ptr}

/-- What a helper can do, whatever the engine is doing: reject its arguments, or call
`at_send` with a short line. -/
def Calls (cfg : Config) (cb : Option Ptr) (user : Ptr)
    (k : Engine cfg → AtResult × Engine cfg) : Prop :=
  (∀ g, k g = (.errParam, g)) ∨ ∃ d : CmdDesc, d.cb = cb ∧ d.user = user ∧
    cstr (d.cmd.getD []) ≠ [] ∧ (cstr (d.cmd.getD [])).length < 160 ∧
    ∀ g, k g = atSend (some d) g

theorem Calls.refused : Calls cfg cb user fun g => (.errParam, g) := .inl fun _ => rfl

theorem Calls.guard {c : Prop} [Decidable c] {k : Engine cfg → AtResult × Engine cfg}
    (hk : Calls cfg cb user k) : Calls cfg cb user fun g => if c then (.errParam, g) else k g := by
  by_cases hc : c
  · exact .inl fun g => if_pos hc
  · simpa only [if_neg hc] using hk

theorem Calls.send (d : CmdDesc) (hcb : d.cb = cb) (huser : d.user = user)
    (hlt : (cstr (d.cmd.getD [])).length < 160) :
    Calls cfg cb user fun g => atSend (some d) g := by
  by_cases hnil : cstr (d.cmd.getD []) = []
  · exact .inl fun g => if_pos hnil
  · exact .inr ⟨d, hcb, huser, hnil, hlt, fun _ => rfl⟩

/-- What `AB_DONE()` hands out is short. -/
theorem length_done_lt {n : Nat} (hn : 0 < n) {buf : Local n} {items : List AbItem}
    (hwf : AbItem.char 0 ∉ items) (hok : ((Ab.init buf.bytes).appends items).ok = true) :
    (cstr ((Ab.init buf.bytes).appends items).done).length < n := by
  rw [Ab.appends_done hn hwf hok]
  exact (Ab.appends_ok_iff hn buf items).mp hok

theorem Calls.built {n : Nat} (hn : 0 < n ∧ n ≤ 160) {buf : Local n} {items : List AbItem}
    (hwf : AbItem.char 0 ∉ items) (t : Nat) :
    Calls cfg cb user fun g => sendBuilt buf items t cb user g := by
  by_cases hok : ((Ab.init buf.bytes).appends items).ok = true
  · simp only [sendBuilt, if_pos hok, atSendRaw]
    exact .send _ rfl rfl (Nat.lt_of_lt_of_le (length_done_lt hn.1 hwf hok) hn.2)
  · simp only [sendBuilt, if_neg hok]
    exact .refused

/-- **What the helpers do.** -/
theorem run_calls (cfg : Config) (h : Helper) (stk : Stack) (cb : Option Ptr) (user : Ptr) :
    Calls cfg cb user (h.run stk cb user) := by
  cases h with
  | cscsSet s | cpbsSet s | vts s =>
    cases s with
    | none => exact .refused
    | some s => exact .guard (.guard (.built (by decide) (by simp) _))
  | cpinEnter s | dial s voice =>
    cases s with
    | none => exact .refused
    | some s => exact .guard (.built (by decide) (by simp) _)
  | clckQuery s | cclkSet s | copsManual s n | cusd s n | clckSet s n m | cgdcont s =>
    cases s with
    | none => exact .refused
    | some s => exact .built (by decide) (by simp [optQstr_wf]) _
  | cpolWrite idx fmt oper =>
    cases oper with
    | none => exact .refused
    | some oper => exact .guard (.guard (.guard (.built (by decide) (by simp) _)))
  | cpms mem1 mem2 mem3 =>
    cases mem1 with
    | none => exact .refused
    | some mem1 => exact .guard (.guard (.built (by decide) (by simp [optQstr_wf]) _))
  | crsm command fileid p1 p2 p3 data =>
    exact .guard (.built (by decide) (by simp [optQstr_wf]) _)
  | cpinPuk puk newPin =>
    obtain _ | puk := puk
    · exact .refused
    obtain _ | newPin := newPin
    · exact .refused
    exact .built (by decide) (by simp) _
  | cpwd fac oldPw newPw =>
    obtain _ | fac := fac
    · exact .refused
    obtain _ | oldPw := oldPw
    · exact .refused
    obtain _ | newPw := newPw
    · exact .refused
    exact .built (by decide) (by simp) _
  | cmgs number text =>
    obtain _ | number := number
    · exact .refused
    obtain _ | text := text
    · exact .refused
    refine .guard (.guard (.guard ?_))
    -- the one helper with a body: it calls `at_send` itself
    by_cases hok : ((Ab.init (stk 32).bytes).appends
        [.str (ascii "AT+CMGS="), .qstr number]).ok = true
    · simp only [if_pos hok]
      refine .send _ rfl rfl (Nat.lt_of_lt_of_le (length_done_lt (by decide) ?_ hok) (by decide))
      simp
    · simp only [if_neg hok]
      exact .refused

/-- The first command of a fresh engine is accepted. -/
theorem atSend_init (d : CmdDesc) (hcmd : cstr (d.cmd.getD []) ≠ []) :
    ∃ g', atSend (some d) (atInit cfg) = (.ok, g') := by
  have hroom : ¬(atInit cfg).qCount ≥ cfg.cmdQueueDepth :=
    Nat.not_le_of_lt (show 0 < cfg.cmdQueueDepth from cfg.depth_ge)
  exact ⟨_, eq_ok_of_fst (by rw [atSend, if_neg hcmd, if_neg hroom])⟩

/-- The tones that `at_gsm_vts` writes without quotes hold no comma. -/
theorem vts_raw {stk : Stack} {tones : Option (List UInt8)} {g g' : Engine cfg}
    (hrun : atGsmVts stk cb user g tones = (.ok, g')) :
    cstr (tones.getD []) ≠ [] ∧ 44 ∉ cstr (tones.getD []) := by
  obtain _ | tones := tones
  · exact nomatch (Prod.mk.inj hrun).1
  obtain ⟨hne, hrun⟩ := of_guard (by decide) hrun
  obtain ⟨hdtmf, -⟩ := of_bool_guard hrun
  refine ⟨hne, fun hcomma => ?_⟩
  exact absurd (List.all_eq_true.mp hdtmf 44 hcomma) (by decide)

/-- A text message has at most 160 characters. -/
theorem length_text_le {h : Helper} {stk : Stack} {g g' : Engine cfg}
    (hrun : h.run stk cb user g = (.ok, g')) : h.text.length ≤ 160 := by
  cases h with
  | cmgs number text =>
    obtain _ | number := number
    · exact nomatch (Prod.mk.inj hrun).1
    obtain _ | text := text
    · exact nomatch (Prod.mk.inj hrun).1
    obtain ⟨-, hrun⟩ := of_bool_guard hrun
    obtain ⟨-, hrun⟩ := of_guard (by decide) hrun
    exact Nat.le_of_not_gt (of_guard (by decide) hrun).1
  | _ => exact Nat.zero_le _

end

/-! ## What the modem reads -/

/-- Only `at_gsm_vts` writes a string without quotes behind a name. -/
theorem raw_mem_args {h : Helper} {t : List UInt8} (ht : Arg.raw t ∈ h.args) :
    ∃ tones, h = vts tones ∧ t = tones.getD [] := by
  cases h with
  | vts tones => exact ⟨tones, rfl, by simpa [args] using ht⟩
  | cgdcont ctx => cases ctx <;> simp [args] at ht
  | _ => simp [args] at ht

/-- Every name begins with `AT+`. -/
theorem name_eq {h : Helper} (hdial : ∀ number voice, h ≠ dial number voice) :
    ∃ m, h.name = ascii "AT+" ++ m ∧ 61 ∉ m := by
  cases h with
  | dial number voice => exact absurd rfl (hdial number voice)
  | _ => exact ⟨_, rfl, by decide⟩

/-- A line without quotes in it is read as what it says. -/
theorem ofLine_format {h : Helper} (hquotes : Arg.NoQuotes h.format)
    (hraw : ∀ t, Arg.raw t ∈ h.args → cstr t ≠ [] ∧ 44 ∉ cstr t) :
    AtLine.ofLine (h.format.map Prod.fst) = h.said := by
  by_cases hdial : ∃ number voice, h = dial number voice
  · obtain ⟨number, voice, rfl⟩ := hdial
    simp [format, opening, fields, said, AtLine.ofLine, ascii]
  have hdial : ∀ number voice, h ≠ dial number voice := fun number voice heq =>
    hdial ⟨number, voice, heq⟩
  have hsaid : h.said = .command h.name (h.args.map Arg.cell) := by
    cases h <;> first | rfl | exact absurd rfl (hdial _ _)
  obtain ⟨m, hname, hm⟩ := name_eq hdial
  have hformat := format_eq hdial
  rw [hsaid, hformat, List.map_append, lbl_map_fst, Arg.labels_fst, List.append_assoc,
    List.singleton_append]
  refine AtLine.ofLine_command ?_ ?_ ?_ ?_ ?_
  · rw [hname, List.mem_append]
    rintro (h61 | h61)
    · exact absurd h61 (by decide)
    · exact hm h61
  · rw [hname, List.length_append]
    exact Nat.le_add_right 3 _
  · rw [hname]
    simp [ascii]
  · intro c hc
    obtain ⟨a, ha, rfl⟩ := List.mem_map.mp hc
    refine Arg.cell_plain (fun p hp => hquotes p ?_) fun t ht => (hraw t (ht ▸ ha)).2
    rw [hformat]
    exact List.mem_append_right _ (Arg.label_subset_labels ha hp)
  · intro hone
    obtain ⟨a, ha, hcell⟩ := List.map_eq_singleton_iff.mp hone
    refine Arg.cell_ne_nil (fun t ht => (hraw t ?_).1) hcell
    rw [ha, ht]
    exact List.mem_singleton_self _

/-- What a helper has stored fits its slot. -/
theorem length_format_le (htx : 160 < cfg.txBufSize) {h : Helper} {stk : Stack} {cb : Option Ptr}
    {user : Ptr} {g g' : Engine cfg} (hrun : h.run stk cb user g = (.ok, g')) :
    h.format.length ≤ cfg.txBufSize - 1 := by
  rcases h.run_calls cfg stk cb user with hrej | ⟨d, -, -, -, hlt, hcall⟩
  · rw [hrej] at hrun
    exact nomatch (Prod.mk.inj hrun).1
  have hlen := congrArg List.length (run_ok hrun).cmd
  rw [hcall] at hrun
  rw [atSend_stored hrun] at hlen
  change ((cstr (d.cmd.getD [])).take (cfg.txBufSize - 1)).length = _ at hlen
  simp only [List.length_take, List.length_map] at hlen
  omega

/-- **What is stored can be read**, when the strings that the helper does not check are
clean. -/
theorem stored_read (htx : 160 < cfg.txBufSize) {h : Helper} {stk : Stack} {cb : Option Ptr}
    {user : Ptr} {g g' : Engine cfg} (hrun : h.run stk cb user g = (.ok, g'))
    (hclean : h.Clean cfg) :
    AtLine.ofLine (g'.queue g.qHead).cmd.bytes = h.said ∧
      (g'.queue g.qHead).body.bytes = h.text ∧ ∀ b ∈ (g'.queue g.qHead).cmd.bytes, 32 ≤ b := by
  obtain ⟨hcmd, hbody, hvetted⟩ := run_ok hrun
  have hshort := length_format_le htx hrun
  have hchecked : ∀ p ∈ h.format, 32 ≤ p.1 ∧ (p.2 ≠ .own → p.1 ≠ 34) := by
    intro p hp
    cases horigin : p.2 with
    | own => exact ⟨(hvetted p hp (by simp [horigin])).1, absurd rfl⟩
    | checked =>
      obtain ⟨hprint, hquote⟩ := hvetted p hp (by simp [horigin])
      exact ⟨hprint, fun _ => hquote horigin⟩
    | unchecked =>
      obtain ⟨hprint, hquote⟩ := hclean.1 p (by rwa [List.take_of_length_le hshort]) horigin
      exact ⟨hprint, fun _ => hquote⟩
  rw [hcmd, hbody, ← List.map_take, List.take_of_length_le hshort,
    List.take_of_length_le (Nat.le_trans (length_text_le hrun) (by omega))]
  refine ⟨ofLine_format (fun p hp => (hchecked p hp).2) ?_, rfl, ?_⟩
  · intro t ht
    obtain ⟨tones, rfl, rfl⟩ := raw_mem_args ht
    exact vts_raw hrun
  · intro b hb
    obtain ⟨p, hp, rfl⟩ := List.mem_map.mp hb
    exact (hchecked p hp).1

/-- **What a helper asks is what the modem reads.** Whatever the engine is doing, a helper
rejects its arguments, or it calls `at_send` with a command whose line the modem reads as
the name and the arguments, and whose body is the text, when the strings that the helper
does not check are clean. -/
theorem helper_read (htx : 160 < cfg.txBufSize) (h : Helper) (stk : Stack) (cb : Option Ptr)
    (user : Ptr) :
    (∀ g : Engine cfg, h.run stk cb user g = (.errParam, g)) ∨
      ∃ d : CmdDesc, d.cb = cb ∧ d.user = user ∧
        (∀ g : Engine cfg, h.run stk cb user g = atSend (some d) g) ∧
        (h.Clean cfg → AtLine.ofLine (cmdEntryOf cfg d).cmd.bytes = h.said ∧
          (cmdEntryOf cfg d).body.bytes = h.text) := by
  rcases h.run_calls cfg stk cb user with hrej | ⟨d, hcb, huser, hne, -, hcall⟩
  · exact .inl hrej
  refine .inr ⟨d, hcb, huser, hcall, fun hclean => ?_⟩
  -- what is stored does not depend on the engine
  obtain ⟨g', hsent⟩ : ∃ g', atSend (some d) (atInit cfg) = (.ok, g') := atSend_init d hne
  obtain ⟨hline, hbody, -⟩ := stored_read htx ((hcall _).trans hsent) hclean
  rw [atSend_stored hsent] at hline hbody
  exact ⟨hline, hbody⟩

/-- A storage is selected: the modem reads its name, and that of another one. -/
theorem helper_read_cpms : ∃ d : CmdDesc,
    (∀ g : Engine Config.default,
      (cpms (some (ascii "SM")) none (some (ascii "ME"))).run .zero (some 1) 7 g =
        atSend (some d) g) ∧
    AtLine.ofLine (cmdEntryOf Config.default d).cmd.bytes =
      .command (ascii "AT+CPMS") [.quoted (ascii "SM"), .quoted (ascii "ME")] := by
  rcases @helper_read Config.default (by decide)
    (cpms (some (ascii "SM")) none (some (ascii "ME"))) .zero (some 1) 7 with hrej | ⟨d, hcall⟩
  · exact absurd (congrArg Prod.fst (hrej (atInit _))) (by decide +kernel)
  · obtain ⟨-, -, hrun, hread⟩ := hcall
    have hclean : (cpms (some (ascii "SM")) none (some (ascii "ME"))).Clean Config.default := by
      rw [Clean]
      decide +kernel
    exact ⟨d, hrun, (hread hclean).1⟩

end Helper

end LibAt
