import Mathlib.Data.List.Basic
import Mathlib.Order.WellFounded

/-!
# Machinery/Transition — systems that take steps, and what they have done

A `System` takes steps, each of which may be an event.  `Reaches` pairs a state with the events on
the way to it: an invariant may speak of both (`Reaches.invariant`), and what holds whenever an
event happens holds at every event of every run (`Reaches.at_event`).  A measure that every step
decreases bounds the runs (`length_le_of_measure`).  What one system does another one can do as well
if a relation between their states is kept (`Reaches.simulated`).

`After Q h` is what must hold of a state for `Q` to hold after the events `h`, whatever the steps.
-/

namespace Machinery

/-- States, and steps between them that may show an event. -/
structure System (σ ε : Type*) where
  init : σ
  Step : σ → Option ε → σ → Prop

namespace System

variable {σ ε : Type*} {S : System σ ε}

/-- **The state `s` can be reached**, with the events `h` on the way. -/
inductive Reaches (S : System σ ε) : σ → List ε → Prop where
  | init : Reaches S S.init []
  | step {s s' : σ} {h : List ε} {e : Option ε} (hr : Reaches S s h) (hs : S.Step s e s') :
      Reaches S s' (h ++ e.toList)

/-- A state that no step leaves. -/
def Stuck (S : System σ ε) (s : σ) : Prop := ∀ e s', ¬S.Step s e s'

variable {s : σ} {h : List ε}

/-- **An invariant**: it holds initially, and every step keeps it. -/
theorem Reaches.invariant {P : σ → List ε → Prop} (hinit : P S.init [])
    (hstep : ∀ {s h e s'}, P s h → S.Step s e s' → P s' (h ++ e.toList)) (hr : S.Reaches s h) :
    P s h := by
  induction hr with
  | init => exact hinit
  | step _ hs ih => exact hstep ih hs

/-- **A simulation**: if every step from related states is answered by a step with the same event, a
run is answered by a run with the same events. -/
theorem Reaches.simulated {τ : Type*} {T : System τ ε} {R : σ → τ → Prop} (hinit : R S.init T.init)
    (hstep : ∀ {s t e s'}, R s t → S.Step s e s' → ∃ t', T.Step t e t' ∧ R s' t')
    (hr : S.Reaches s h) : ∃ t, T.Reaches t h ∧ R s t := by
  induction hr with
  | init => exact ⟨T.init, .init, hinit⟩
  | step _ hs ih =>
    obtain ⟨t, ht, hrel⟩ := ih
    obtain ⟨t', hs', hrel'⟩ := hstep hrel hs
    exact ⟨t', ht.step hs', hrel'⟩

/-- **What holds of the past whenever an event happens** holds at every event of a run. -/
theorem Reaches.at_event {Q : List ε → ε → Prop}
    (hstep : ∀ {s h x s'}, S.Reaches s h → S.Step s (some x) s' → Q h x) (hr : S.Reaches s h)
    {h₁ h₂ : List ε} {x : ε} (heq : h = h₁ ++ x :: h₂) : Q h₁ x := by
  induction hr generalizing h₂ with
  | init => exact absurd heq (by simp)
  | @step s s' h e hr hs ih =>
    cases e with
    | none => exact ih (by simpa using heq)
    | some y =>
      rcases List.eq_nil_or_concat h₂ with rfl | ⟨h₂, z, rfl⟩
      · obtain ⟨rfl, hxy⟩ := List.append_inj' heq rfl
        obtain rfl : y = x := by simpa using hxy
        exact hstep hr hs
      · have hsplit : h ++ [y] = h₁ ++ x :: h₂ ++ [z] := by simpa using heq
        exact ih (List.append_inj' hsplit rfl).1

/-! ## After a sequence of events -/

/-- **`Q` holds after the events**, whatever the steps from `s`. -/
def After (S : System σ ε) (Q : σ → Prop) : List ε → σ → Prop
  | [], s => Q s
  | x :: h, s => ∀ s', S.Step s (some x) s' → S.After Q h s'

section After

variable {Q : σ → Prop} {h₁ h₂ : List ε}

theorem after_append : S.After Q (h₁ ++ h₂) s ↔ S.After (S.After Q h₂) h₁ s := by
  induction h₁ generalizing s with
  | nil => exact Iff.rfl
  | cons x h₁ ih => exact forall_congr' fun s' => imp_congr_right fun _ => ih

end After

section Visible

variable (hsilent : ∀ s s', ¬S.Step s none s')
include hsilent

/-- **A run ends as it must**, in a system all steps of which are events. -/
theorem Reaches.after {Q : σ → Prop} (hr : S.Reaches s h) (hQ : S.After Q h S.init) : Q s := by
  induction hr generalizing Q with
  | init => exact hQ
  | @step s s' h e _ hs ih =>
    cases e with
    | none => exact absurd hs (hsilent s s')
    | some x => exact ih (after_append.mp hQ) s' hs

theorem reaches_nil_iff : S.Reaches s [] ↔ s = S.init := by
  constructor
  · intro hr
    generalize hnil : ([] : List ε) = h at hr
    cases hr with
    | init => rfl
    | @step t _ h e _ hs =>
      cases e with
      | none => exact absurd hs (hsilent t s)
      | some x => exact absurd hnil (by simp)
  · rintro rfl
    exact .init

theorem reaches_concat_iff {x : ε} :
    S.Reaches s (h ++ [x]) ↔ ∃ t, S.Reaches t h ∧ S.Step t (some x) s := by
  constructor
  · intro hr
    generalize hcat : h ++ [x] = h' at hr
    cases hr with
    | init => exact absurd hcat (by simp)
    | @step t _ h' e hr hs =>
      cases e with
      | none => exact absurd hs (hsilent t s)
      | some y =>
        obtain ⟨rfl, hxy⟩ := List.append_inj' hcat rfl
        obtain rfl := List.head_eq_of_cons_eq hxy
        exact ⟨t, hr, hs⟩
  · rintro ⟨t, hr, hs⟩
    exact hr.step hs

end Visible

/-! ## Measures -/

/-- The states of a run of `m` steps from `s`. -/
def Run (S : System σ ε) : ℕ → σ → σ → Prop
  | 0, s, s' => s = s'
  | m + 1, s, s' => ∃ e t, S.Step s e t ∧ Run S m t s'

section Measure

variable {μ : σ → ℕ} (hμ : ∀ {s e s'}, S.Step s e s' → μ s' < μ s)
include hμ

/-- **Every run ends**: it has no more steps than the measure of its first state. -/
theorem length_le_of_measure {m : ℕ} {s s' : σ} (hrun : S.Run m s s') : m + μ s' ≤ μ s := by
  induction m generalizing s with
  | zero => obtain rfl := hrun; exact (Nat.zero_add _).le
  | succ m ih =>
    obtain ⟨e, t, hs, hrun⟩ := hrun
    have hle := ih hrun
    have hlt := hμ hs
    omega

end Measure

end System

end Machinery
