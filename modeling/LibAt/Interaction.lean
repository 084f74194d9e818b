import Mathlib.Order.Basic
import Mathlib.Data.Option.Basic

/-!
# Programs that call an interface

Code that is not ours but runs inside our system — a callback, a hook — is
modelled by what it does to the interface it is given: it computes with its
own state, calls an interface function, looks at the answer, and goes on until
it returns. `Interaction Call Ans S` is that tree: `S` is the code's own
state, and between two calls it may be changed in any way.

`run` executes such a program against a partial implementation of the
interface. Two rules carry every proof about it: what each call preserves the
program preserves (`run_invariant`), and a program whose calls all return
returns (`run_total`), because a program tree is well-founded.
-/

namespace LibAt

universe u

/-- Two partial computations that fail together and go on alike. -/
theorem rel_bind {α β γ δ : Type*} {R : α → β → Prop} {S : γ → δ → Prop} {x : Option α}
    {y : Option β} {f : α → Option γ} {g : β → Option δ} (h : Option.Rel R x y)
    (hfg : ∀ a b, R a b → Option.Rel S (f a) (g b)) : Option.Rel S (x.bind f) (y.bind g) := by
  cases h with
  | none => exact .none
  | some hab => exact hfg _ _ hab

theorem rel_map {α β γ δ : Type*} {R : α → β → Prop} {S : γ → δ → Prop} {x : Option α}
    {y : Option β} {f : α → γ} {g : β → δ} (h : Option.Rel R x y)
    (hfg : ∀ a b, R a b → S (f a) (g b)) : Option.Rel S (x.map f) (y.map g) := by
  cases h with
  | none => exact .none
  | some hab => exact .some (hfg _ _ hab)

/-- What holds of every result on the left comes with the relation. -/
theorem rel_left {α β : Type*} {R : α → β → Prop} {P : α → Prop} {x : Option α} {y : Option β}
    (h : Option.Rel R x y) (hP : ∀ a, x = some a → P a) :
    Option.Rel (fun a b => R a b ∧ P a) x y := by
  cases h with
  | none => exact .none
  | some hab => exact .some ⟨hab, hP _ rfl⟩

/-- A program over an interface with calls `Call` and answers `Ans`, with
private state `S`.

* `ret s` — return, leaving the private state at `s`;
* `call c s k` — call `c` with the private state at `s`; `k` continues with
  the answer and the private state as the call left it. -/
inductive Interaction (Call Ans S : Type u) : Type u where
  /-- return -/
  | ret : S → Interaction Call Ans S
  /-- call the interface and continue -/
  | call : Call → S → (Ans → S → Interaction Call Ans S) → Interaction Call Ans S

namespace Interaction

variable {Call Ans S W : Type u}

/-- Every call the program can make is one of the `allowed` ones. -/
def Uses (allowed : Call → Prop) : Interaction Call Ans S → Prop
  | ret _ => True
  | call c _ k => allowed c ∧ ∀ a s, (k a s).Uses allowed

/-- Allowing more calls. -/
theorem Uses.mono {allowed allowed' : Call → Prop} (h : ∀ c, allowed c → allowed' c)
    {p : Interaction Call Ans S} (hp : p.Uses allowed) : p.Uses allowed' := by
  induction p with
  | ret s => trivial
  | call c s k ih => exact ⟨h c hp.1, fun a s' => ih a s' (hp.2 a s')⟩

theorem uses_true (p : Interaction Call Ans S) : p.Uses fun _ => True := by
  induction p with
  | ret s => trivial
  | call c s k ih => exact ⟨trivial, ih⟩

/-- Run a program in a world `W` that holds the private state: `perform` is
the interface, `get` and `put` read and write the private state. -/
def run (get : W → S) (put : S → W → W) (perform : Call → W → Option (Ans × W)) :
    Interaction Call Ans S → W → Option W
  | ret s, w => some (put s w)
  | call c s k, w =>
    (perform c (put s w)).bind fun r => (k r.1 (get r.2)).run get put perform r.2

variable {get : W → S} {put : S → W → W} {perform : Call → W → Option (Ans × W)}

/-- **Preservation.** A relation to the starting world that survives changes of
the private state and every allowed call holds when the program returns. -/
theorem run_invariant {I : W → Prop} {allowed : Call → Prop}
    (hput : ∀ s w, I w → I (put s w))
    (hperform : ∀ c w a w', allowed c → perform c w = some (a, w') → I w → I w')
    {p : Interaction Call Ans S} (hp : p.Uses allowed) {w w' : W}
    (h : p.run get put perform w = some w') (hI : I w) : I w' := by
  induction p generalizing w with
  | ret s =>
    obtain rfl := Option.some.inj h
    exact hput s w hI
  | call c s k ih =>
    obtain ⟨⟨a, w₁⟩, hc, hk⟩ := Option.bind_eq_some_iff.mp h
    exact ih a _ (hp.2 a _) hk (hperform c _ a w₁ hp.1 hc (hput s w hI))

/-- **Totality.** If the allowed calls return wherever the invariant holds, so
does the program. -/
theorem run_total {I : W → Prop} {allowed : Call → Prop}
    (hput : ∀ s w, I w → I (put s w))
    (hperform : ∀ c w, allowed c → I w → ∃ a w', perform c w = some (a, w') ∧ I w')
    {p : Interaction Call Ans S} (hp : p.Uses allowed) {w : W} (hI : I w) :
    ∃ w', p.run get put perform w = some w' ∧ I w' := by
  induction p generalizing w with
  | ret s => exact ⟨put s w, rfl, hput s w hI⟩
  | call c s k ih =>
    obtain ⟨a, w₁, hc, hI₁⟩ := hperform c _ hp.1 (hput s w hI)
    obtain ⟨w', hw', hI'⟩ := ih a (get w₁) (hp.2 a _) hI₁
    exact ⟨w', by simp only [run, hc, Option.bind_some, hw'], hI'⟩

/-- Two implementations that agree on the allowed calls run a program
alike. -/
theorem run_congr {perform' : Call → W → Option (Ans × W)} {allowed : Call → Prop}
    (h : ∀ c w, allowed c → perform c w = perform' c w) {p : Interaction Call Ans S}
    (hp : p.Uses allowed) (w : W) : p.run get put perform w = p.run get put perform' w := by
  induction p generalizing w with
  | ret s => rfl
  | call c s k ih =>
    simp only [run, h c _ hp.1]
    refine Option.bind_congr fun r _ => ih r.1 _ (hp.2 r.1 _) _

/-- **Two runs.** In two related worlds that show the program the same private
state, and answer its calls alike, it does the same. -/
theorem run_related {R : W → W → Prop} {allowed : Call → Prop}
    (hget : ∀ w w', R w w' → get w = get w') (hput : ∀ s w w', R w w' → R (put s w) (put s w'))
    (hperform : ∀ c w w', allowed c → R w w' →
      Option.Rel (fun r r' => r.1 = r'.1 ∧ R r.2 r'.2) (perform c w) (perform c w'))
    {p : Interaction Call Ans S} (hp : p.Uses allowed) {w w' : W} (h : R w w') :
    Option.Rel R (p.run get put perform w) (p.run get put perform w') := by
  induction p generalizing w w' with
  | ret s => exact .some (hput s w w' h)
  | call c s k ih =>
    have hcall := hperform c _ _ hp.1 (hput s w w' h)
    refine rel_bind hcall fun r r' hr => ?_
    obtain ⟨a, v⟩ := r
    obtain ⟨a', v'⟩ := r'
    obtain ⟨rfl, hv⟩ : a = a' ∧ R v v' := hr
    dsimp only
    rw [← hget v v' hv]
    exact ih a _ (hp.2 a _) hv

end Interaction

end LibAt
