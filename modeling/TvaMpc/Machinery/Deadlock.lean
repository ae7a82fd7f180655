import TvaMpc.Machinery.Triple

/-!
# Machinery/Deadlock — runs that get stuck

`DeadlockFree mode p`: no interleaving of `p` gets stuck before every process has returned.  The
opposite is shown by a state of the other kind: `Jams mode p c H` says that every interleaving ends
with the processes in `H` waiting in a send on their channel `c`, and the others having exited.

A network jams when each process is about to send to one that does not receive (`jams_of_sends`),
and a jam after a finished run is a jam of the whole (`Jams.bind`, `Yields.jams_bind`).

`Sticks mode m g` is the opposite of a triple: the parties never get past `m`, whatever they go on
with (`Sticks.not_finishes`).  An exit is one reason (`Sticks.of_exit`).
-/

namespace Machinery

open Function Relation

universe u v

variable {I : Type*} {C M E : Type u} {α β : Type v} [DecidableEq I] [DecidableEq C]
variable {src dst : C → I} {mode : SendMode}

/-- **No interleaving gets stuck** before every process has returned. -/
def DeadlockFree (mode : SendMode) (p : I → Proc C M E α) : Prop :=
  ∀ s, Star mode (Net.init p) s → s.Terminal mode → ∀ i, ∃ a, s.loc i = .run (.ret a)

/-- The processes in `H` wait in a send on their channel `c`, the others have exited. -/
def Net.Jammed (s : Net I C M E α) (c : I → C) (H : I → Prop) : Prop :=
  ∀ i, (H i → ∃ k, s.loc i = .wait [c i] [] k) ∧ (¬ H i → ∃ e, s.loc i = .run (.exit e))

/-- **Every interleaving ends in a jam.** -/
def Jams (mode : SendMode) (p : I → Proc C M E α) (c : I → C) (H : I → Prop) : Prop :=
  ∀ s, Star mode (Net.init p) s → s.Terminal mode → s.Jammed c H

theorem Jams.not_deadlockFree [Finite I] [Nonempty I] {p : I → Proc C M E α} {c : I → C}
    {H : I → Prop} (hj : Jams mode p c H) : ¬ DeadlockFree mode p := by
  intro hf
  obtain ⟨s, hs, ht⟩ := exists_terminal mode (Net.init p)
  obtain ⟨i⟩ := ‹Nonempty I›
  obtain ⟨a, ha⟩ := hf s hs ht i
  by_cases hi : H i
  · obtain ⟨k, hk⟩ := (hj s hs ht i).1 hi
    cases ha.symm.trans hk
  · obtain ⟨e, he⟩ := (hj s hs ht i).2 hi
    cases ha.symm.trans he

/-! ## Blocking sends -/

section Sends

variable {p : I → Proc C M E α} {c : I → C} {H : I → Prop}

/-- Nothing happened to process `i` but, at most, that it posted its send. -/
def SendPending (p : I → Proc C M E α) (c : I → C) (s : Net I C M E α) (i : I) : Prop :=
  s.loc i = .run (p i) ∨
    ∃ m k, p i = .comm [(c i, m)] [] k ∧ s.loc i = .wait [c i] [] k ∧ s.queue (c i) ≠ []

/-- **A step leaves every send pending**, since nobody receives. -/
theorem Step.sendPending {s t : Net I C M E α}
    (hp : ∀ i, (∃ e, p i = .exit e) ∨ ∃ m k, p i = .comm [(c i, m)] [] k)
    (h : Step .rendezvous s t) (hs : ∀ i, SendPending p c s i) (j : I) : SendPending p c t j := by
  cases h with
  | @post i sends recvs k hl =>
    -- the process that posts is at its start, so its block is its send
    have hpi : p i = .comm sends recvs k := by
      rcases hs i with hi | ⟨_, _, -, hi, -⟩
      · exact Local.run.inj (hi.symm.trans hl)
      · cases hi.symm.trans hl
    obtain ⟨m, rfl, rfl⟩ : ∃ m, sends = [(c i, m)] ∧ recvs = [] := by
      rcases hp i with ⟨e, he⟩ | ⟨m, k', hm⟩
      · cases hpi.symm.trans he
      · cases hpi.symm.trans hm
        exact ⟨m, rfl, rfl⟩
    by_cases hj : j = i
    · subst hj
      refine .inr ⟨m, k, hpi, update_self .., ?_⟩
      simp [Net.post, enqueue]
    · rcases hs j with hj' | ⟨m', k', hm, hj', hq⟩
      · exact .inl ((update_of_ne hj ..).trans hj')
      · exact .inr ⟨m', k', hm, (update_of_ne hj ..).trans hj',
          List.append_ne_nil_of_left_ne_nil hq _⟩
  | @deliver i sent slots slots' k d m q hl hq hf =>
    rcases hs i with hi | ⟨_, _, -, hi, -⟩
    · cases hi.symm.trans hl
    · cases hi.symm.trans hl
      cases hf
  | @finish i sent slots k vs hl hv hw =>
    rcases hs i with hi | ⟨_, _, -, hi, hq⟩
    · cases hi.symm.trans hl
    · cases hi.symm.trans hl
      exact absurd (hw rfl (c i) List.mem_cons_self) hq

/-- **Sends that nobody receives jam.** -/
theorem jams_of_sends (hH : ∀ i, H i → ∃ m k, p i = .comm [(c i, m)] [] k)
    (hE : ∀ i, ¬ H i → ∃ e, p i = .exit e) : Jams .rendezvous p c H := by
  have hp : ∀ i, (∃ e, p i = .exit e) ∨ ∃ m k, p i = .comm [(c i, m)] [] k := fun i =>
    (em (H i)).elim (fun h => .inr (hH i h)) fun h => .inl (hE i h)
  intro s hs ht i
  have hpending : SendPending p c s i := by
    clear ht
    induction hs generalizing i with
    | refl => exact .inl rfl
    | tail _ h ih => exact h.sendPending hp ih i
  refine ⟨fun hi => ?_, fun hi => ?_⟩
  · obtain ⟨m, k, hm⟩ := hH i hi
    rcases hpending with h | ⟨_, k, -, h, -⟩
    · rw [hm] at h
      exact absurd (.post i h) (ht _)
    · exact ⟨k, h⟩
  · obtain ⟨e, he⟩ := hE i hi
    rcases hpending with h | ⟨_, _, hm, -, -⟩
    · exact ⟨e, h.trans (congrArg _ he)⟩
    · cases he.symm.trans hm

end Sends

/-! ## Composition -/

/-- **A jam after a finished run** is a jam of the whole. -/
theorem Jams.bind [Finite I] {p : I → Proc C M E α} {f : I → α → Proc C M E β} {a : I → α}
    {h : C → List M} {c : I → C} {H : I → Prop} (hr : Runs mode p a h)
    (ho : ∀ i, (p i >>= f i).Owned src dst i) (hj : Jams mode (fun i => f i (a i)) c H) :
    Jams mode (fun i => p i >>= f i) c H := by
  intro s hs ht
  obtain ⟨t, hst, htt, rfl⟩ := hr.terminal_bind ho hs ht
  exact hj t hst htt

/-- The same for parties with private states. -/
theorem Yields.jams_bind [Finite I] {G C M E α β : Type u} [DecidableEq C] {src dst : C → I}
    {m : I → Party G C M E α} {f : I → α → Party G C M E β} {g g' : I → G} {a : I → α}
    {h : C → List M} {c : I → C} {H : I → Prop} (hr : Yields mode m g a g' h)
    (ho : ∀ i, Party.Owned src dst i (m i >>= f i))
    (hj : Jams mode (fun i => (f i (a i)).run (g' i)) c H) :
    Jams mode (fun i => (m i >>= f i).run (g i)) c H :=
  Jams.bind (f := fun i (z : α × G) => (f i z.1).run z.2) hr (fun i => ho i (g i)) hj

/-! ## Parties that do not get on -/

section Sticks

variable {G α β : Type u} {src dst : C → I} {m : I → Party G C M E α} {g g' : I → G}
variable {f : I → α → Party G C M E β}

/-- **The parties never get past `m`**: whatever they go on with, no run finishes. -/
def Sticks (src dst : C → I) (mode : SendMode) (m : I → Party G C M E α) (g : I → G) : Prop :=
  ∀ ⦃β : Type u⦄ (f : I → α → Party G C M E β), (∀ i a, Party.Owned src dst i (f i a)) →
    ∀ b g' h, ¬Yields mode (fun i => m i >>= f i) g b g' h

namespace Sticks

theorem of_exit {i : I} {e : E} (hm : (m i).run (g i) = .exit e) : Sticks src dst mode m g :=
  fun _ f _ _ _ _ => not_runs_of_exit (i := i) (e := e) <| by
    rw [StateT.run_bind, hm]
    rfl

theorem bind (hm : Sticks src dst mode m g) (hf : ∀ i a, Party.Owned src dst i (f i a)) :
    Sticks src dst mode (fun i => m i >>= f i) g := fun _ k hk b g' h hy => by
  simp only [bind_assoc] at hy
  exact hm (fun i a => f i a >>= k i) (fun i a => (hf i a).bind (hk i)) b g' h hy

/-- Parties that finish `m` stick where the rest does. -/
theorem after [Finite I] {a : I → α} {h : C → List M} (hy : Yields mode m g a g' h)
    (hm : ∀ i, Party.Owned src dst i (m i)) (hf : ∀ i a, Party.Owned src dst i (f i a))
    (hs : Sticks src dst mode (fun i => f i (a i)) g') :
    Sticks src dst mode (fun i => m i >>= f i) g := fun _ k hk b g'' h' hy' => by
  simp only [bind_assoc] at hy'
  obtain ⟨k', hrest⟩ := hy.of_bind (fun i => (hm i).bind fun a => (hf i a).bind (hk i)) hy'
  exact hs k hk b g'' k' hrest

theorem not_yields {a : I → α} {h : C → List M} (hs : Sticks src dst mode m g) :
    ¬Yields mode m g a g' h := fun hy => by
  refine hs (fun _ => Pure.pure) (fun _ _ => .pure _) a g' h ?_
  simpa only [bind_pure] using hy

end Sticks

end Sticks

end Machinery
