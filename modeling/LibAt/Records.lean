import Mathlib.Data.List.Induction

/-!
# Records with quotes

A record is a list of cells with a separator between them. A cell may stand in quotes,
and then the separator may occur in it. A record is cut at the separators that are not in
quotes; when no cell holds a quote, and no bare one a separator, this gives back the
cells (`readRecord_record`).
-/

namespace LibAt

variable {α : Type*}

theorem modifyHead_append (p q : List α) (ls : List (List α)) :
    (ls.modifyHead (q ++ ·)).modifyHead (p ++ ·) = ls.modifyHead (p ++ q ++ ·) := by
  cases ls with
  | nil => rfl
  | cons l ls => simp

theorem modifyHead_nil_append (ls : List (List α)) : ls.modifyHead ([] ++ ·) = ls := by
  cases ls <;> rfl

variable [DecidableEq α]

/-- A cell of a record, bare or in quotes. -/
inductive Cell (α : Type*) where
  | bare (t : List α)
  | quoted (t : List α)
  deriving DecidableEq

section

variable (sep quo : α)

/-- How a cell is written. -/
def Cell.written : Cell α → List α
  | bare t => t
  | quoted t => quo :: (t ++ [quo])

/-- A cell that can be told from its neighbours. -/
def Cell.Plain : Cell α → Prop
  | bare t => sep ∉ t ∧ quo ∉ t
  | quoted t => quo ∉ t

/-- Cells with separators between them. -/
def record (fs : List (Cell α)) : List α := [sep].intercalate (fs.map (Cell.written quo))

/-- Cut at the separators that are not in quotes. -/
def pieces : Bool → List α → List (List α)
  | _, [] => [[]]
  | inside, a :: m =>
    if a = sep ∧ inside = false then [] :: pieces false m
    else (pieces (if a = quo then !inside else inside) m).modifyHead (a :: ·)

/-- Read a cell. -/
def readCell (t : List α) : Cell α :=
  if t.head? = some quo then .quoted (t.drop 1).dropLast else .bare t

/-- Read the cells of a record. -/
def readRecord (m : List α) : List (Cell α) :=
  if m = [] then [] else (pieces sep quo false m).map (readCell quo)

end

variable {sep quo : α}

/-- Text without quotes and separators is in one piece. -/
theorem pieces_bare {p : List α} (hsep : sep ∉ p) (hquo : quo ∉ p) (m : List α) :
    pieces sep quo false (p ++ m) = (pieces sep quo false m).modifyHead (p ++ ·) := by
  induction p with
  | nil => rw [List.nil_append, modifyHead_nil_append]
  | cons a p ih =>
    obtain ⟨hsep, hsep'⟩ := not_or.mp (List.mem_cons.not.mp hsep)
    obtain ⟨hquo, hquo'⟩ := not_or.mp (List.mem_cons.not.mp hquo)
    rw [List.cons_append, pieces, if_neg (fun h => hsep h.1.symm), if_neg (Ne.symm hquo),
      ih hsep' hquo']
    exact modifyHead_append [a] p _

/-- Text without quotes is in one piece between quotes. -/
theorem pieces_inside {p : List α} (hquo : quo ∉ p) (m : List α) :
    pieces sep quo true (p ++ m) = (pieces sep quo true m).modifyHead (p ++ ·) := by
  induction p with
  | nil => rw [List.nil_append, modifyHead_nil_append]
  | cons a p ih =>
    obtain ⟨hquo, hquo'⟩ := not_or.mp (List.mem_cons.not.mp hquo)
    rw [List.cons_append, pieces, if_neg (by simp), if_neg (Ne.symm hquo), ih hquo']
    exact modifyHead_append [a] p _

/-- **A cell is in one piece.** -/
theorem pieces_written (hne : sep ≠ quo) {f : Cell α} (hf : f.Plain sep quo) (m : List α) :
    pieces sep quo false (f.written quo ++ m) =
      (pieces sep quo false m).modifyHead (f.written quo ++ ·) := by
  cases f with
  | bare t => exact pieces_bare hf.1 hf.2 m
  | quoted t =>
    have hopen : ¬(quo = sep ∧ false = false) := fun h => hne h.1.symm
    have hclose : ¬(quo = sep ∧ true = false) := by simp
    rw [Cell.written, List.cons_append, List.append_assoc, pieces, if_neg hopen, if_pos rfl,
      Bool.not_false, pieces_inside hf, List.singleton_append, pieces, if_neg hclose, if_pos rfl,
      Bool.not_true]
    rw [show (quo :: ·) = ([quo] ++ · : List α → List α) from rfl, modifyHead_append,
      modifyHead_append]
    rfl

/-- The pieces of a record are its cells. -/
theorem pieces_record (hne : sep ≠ quo) {f : Cell α} {fs : List (Cell α)}
    (hfs : ∀ f' ∈ f :: fs, f'.Plain sep quo) :
    pieces sep quo false (record sep quo (f :: fs)) = (f :: fs).map (Cell.written quo) := by
  induction fs generalizing f with
  | nil =>
    have hpieces := pieces_written hne (hfs f List.mem_cons_self) []
    rw [List.append_nil] at hpieces
    simpa [record, pieces] using hpieces
  | cons f' fs ih =>
    obtain ⟨hf, hrest⟩ := List.forall_mem_cons.mp hfs
    have hrecord : record sep quo (f :: f' :: fs) =
        f.written quo ++ sep :: record sep quo (f' :: fs) := by
      simp [record]
    rw [hrecord, pieces_written hne hf, pieces, if_pos ⟨rfl, rfl⟩, ih hrest]
    simp

theorem readCell_written {f : Cell α} (hf : f.Plain sep quo) :
    readCell quo (f.written quo) = f := by
  cases f with
  | bare t =>
    refine if_neg fun h => hf.2 ?_
    exact List.mem_of_mem_head? h
  | quoted t =>
    rw [readCell, Cell.written]
    simp

/-- **The cells of a record are read back.** -/
theorem readRecord_record (hne : sep ≠ quo) {fs : List (Cell α)}
    (hfs : ∀ f ∈ fs, f.Plain sep quo) (hnone : fs ≠ [.bare []]) :
    readRecord sep quo (record sep quo fs) = fs := by
  cases fs with
  | nil => rfl
  | cons f fs =>
    have hrecord : record sep quo (f :: fs) ≠ [] := by
      cases fs with
      | nil =>
        cases f with
        | bare t => simpa [record, Cell.written] using hnone
        | quoted t => simp [record, Cell.written]
      | cons f' fs => simp [record]
    rw [readRecord, if_neg hrecord, pieces_record hne hfs, List.map_map]
    have hread : (f :: fs).map (readCell quo ∘ Cell.written quo) = (f :: fs).map id :=
      List.map_congr_left fun f' hf' => readCell_written (hfs f' hf')
    rw [hread, List.map_id]

end LibAt
