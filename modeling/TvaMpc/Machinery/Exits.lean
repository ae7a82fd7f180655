import TvaMpc.Machinery.Triple

/-!
# Machinery/Exits — exits that no interleaving reaches

A network `ExitsWith e` if some process exits with `e` in some interleaving.  One that can finish
does not (`Ensures.not_exitsWith`), nor does one whose code never says `e`
(`not_exitsWith_of_avoids`), wherever else it stops.
-/

namespace Machinery

universe u

variable {I : Type*} {C M E G α β γ : Type u} [DecidableEq I] [DecidableEq C]
variable {src dst : C → I} {mode : SendMode} {e : E}

/-- **Some process exits with `e`**, in some interleaving. -/
def ExitsWith (mode : SendMode) (p : I → Proc C M E α) (e : E) : Prop :=
  ∃ s, Star mode (Net.init p) s ∧ ∃ i, s.loc i = .run (.exit e)

/-- Processes that can finish do not exit, in any interleaving. -/
theorem Runs.not_exitsWith {p : I → Proc C M E α} {a : I → α} {h : C → List M}
    (hr : Runs mode p a h) (hp : ∀ i, (p i).Owned src dst i) : ¬ExitsWith mode p e := by
  rintro ⟨s, hs, i, hi⟩
  have hend : Star mode s (Net.returned a h) :=
    hr.toTerminal (Net.owned_init hp) (Net.terminal_returned a h) hs
  cases hend.exited hi

/-! ## Code without an exit -/

/-- The code never exits with `e`, whatever it receives. -/
def Proc.Avoids (e : E) : Proc C M E α → Prop
  | ret _ => True
  | exit e' => e' ≠ e
  | comm _ _ k => ∀ ms, (k ms).Avoids e

omit [DecidableEq C] in
theorem Proc.Avoids.bind {p : Proc C M E α} {f : α → Proc C M E β} (hp : p.Avoids e)
    (hf : ∀ a, (f a).Avoids e) : (p >>= f).Avoids e := by
  induction p with
  | ret a => exact hf a
  | exit e' => exact hp
  | comm sends recvs k ih => exact fun ms => ih ms (hp ms)

/-- Wherever the process stands. -/
def Local.Avoids (e : E) : Local C M E α → Prop
  | .run p => p.Avoids e
  | .wait _ _ k => ∀ ms, (k ms).Avoids e

/-- **A step brings no new exit.** -/
theorem Step.avoids {s t : Net I C M E α} (h : Step mode s t) (hs : ∀ i, (s.loc i).Avoids e) :
    ∀ i, (t.loc i).Avoids e := by
  have hupdate : ∀ {i : I} {l : Local C M E α}, l.Avoids e →
      ∀ j, (Function.update s.loc i l j).Avoids e := fun {i l} hl j => by
    by_cases hj : j = i
    · subst hj
      rwa [Function.update_self]
    · rw [Function.update_of_ne hj]
      exact hs j
  cases h with
  | post i hl =>
    have hi := hs i
    rw [hl] at hi
    exact hupdate hi
  | deliver i hl =>
    have hi := hs i
    rw [hl] at hi
    exact hupdate hi
  | finish i hl =>
    have hi := hs i
    rw [hl] at hi
    exact hupdate (hi _)

theorem Star.avoids {s t : Net I C M E α} (h : Star mode s t) (hs : ∀ i, (s.loc i).Avoids e) :
    ∀ i, (t.loc i).Avoids e := by
  induction h with
  | refl => exact hs
  | tail _ h ih => exact h.avoids ih

theorem not_exitsWith_of_avoids {p : I → Proc C M E α} (hp : ∀ i, (p i).Avoids e) :
    ¬ExitsWith mode p e := by
  rintro ⟨s, hs, i, hi⟩
  have hexit := hs.avoids hp i
  rw [hi] at hexit
  exact hexit rfl

/-! ## Parties -/

/-- **Parties that can finish do not exit.** -/
theorem Ensures.not_exitsWith {m : I → Party G C M E α} {g : I → G}
    {Q : (I → α) → (I → G) → (C → List M) → Prop} (hm : Ensures mode m g Q)
    (hown : ∀ i, Party.Owned src dst i (m i)) :
    ¬ExitsWith mode (fun i => (m i).run (g i)) e := by
  obtain ⟨a, g', h, hy, -⟩ := hm
  exact Runs.not_exitsWith hy fun i => hown i (g i)

/-- A party never exits with `e`, whatever its state. -/
def Party.Avoids (e : E) (m : Party G C M E α) : Prop := ∀ g, (m.run g).Avoids e

namespace Party.Avoids

variable {m : Party G C M E α} {f : α → Party G C M E β}

omit [DecidableEq C] in
theorem pure (a : α) : Party.Avoids e (Pure.pure a : Party G C M E α) := fun _ => trivial

omit [DecidableEq C] in
theorem bind (hm : Party.Avoids e m) (hf : ∀ a, Party.Avoids e (f a)) :
    Party.Avoids e (m >>= f) :=
  fun g => (hm g).bind fun x => hf x.1 x.2

omit [DecidableEq C] in
theorem modifyGet (f : G → α × G) :
    Party.Avoids e (MonadStateOf.modifyGet f : Party G C M E α) := fun _ => trivial

omit [DecidableEq C] in
theorem lift {p : Proc C M E α} (hp : p.Avoids e) :
    Party.Avoids e (StateT.lift p : Party G C M E α) :=
  fun _ => hp.bind fun _ => trivial

omit [DecidableEq C] in
theorem foldlM {f : α → γ → Party G C M E α} (hf : ∀ a x, Party.Avoids e (f a x)) (l : List γ)
    (a : α) : Party.Avoids e (l.foldlM f a) := by
  induction l generalizing a with
  | nil => exact .pure a
  | cons x l ih =>
    rw [List.foldlM_cons]
    exact (hf a x).bind ih

end Party.Avoids

end Machinery
