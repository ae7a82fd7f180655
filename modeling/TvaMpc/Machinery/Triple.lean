import TvaMpc.Machinery.Joint
import Mathlib.Control.Monad.Basic
import Mathlib.Data.List.Induction

/-!
# Machinery/Triple — total correctness of parties that run the same code

`Finishes mode p Q` speaks about **every** interleaving: a state in which nothing can happen any
more is one in which all processes have returned, all queues are empty and `Q` holds.  Since every
run ends, this is deadlock freedom together with the postcondition.

`Ensures mode m g Q` is the triple behind it, for processes with a private state: started in `g`,
the processes `m` can finish together in a way that satisfies `Q`.  It has the usual rules, and one
finished run is enough (`Ensures.finishes`).
-/

namespace Machinery

open Function

universe u

variable {I : Type*} {C M E G α β : Type u} [DecidableEq I] [DecidableEq C]
variable {src dst : C → I} {mode : SendMode}

/-- **Every interleaving finishes, with `Q`**: what the processes return and what they have sent. -/
def Finishes (mode : SendMode) (p : I → Proc C M E α) (Q : (I → α) → (C → List M) → Prop) : Prop :=
  ∀ s, Star mode (Net.init p) s → s.Terminal mode → ∃ a h, s = Net.returned a h ∧ Q a h

theorem Runs.finishes {p : I → Proc C M E α} {a : I → α} {h : C → List M}
    {Q : (I → α) → (C → List M) → Prop} (hr : Runs mode p a h)
    (hp : ∀ i, (p i).Owned src dst i) (hQ : Q a h) : Finishes mode p Q :=
  fun _ hs ht => ⟨a, h, hr.eq_of_terminal hp hs ht, hQ⟩

theorem Finishes.mono {p : I → Proc C M E α} {Q R : (I → α) → (C → List M) → Prop}
    (hf : Finishes mode p Q) (hQ : ∀ a h, Q a h → R a h) : Finishes mode p R := fun s hs ht =>
  let ⟨a, h, he, hq⟩ := hf s hs ht
  ⟨a, h, he, hQ a h hq⟩

/-- What every interleaving ends in, some run ends in. -/
theorem Finishes.runs [Finite I] {p : I → Proc C M E α} {Q : (I → α) → (C → List M) → Prop}
    (hf : Finishes mode p Q) : ∃ a h, Runs mode p a h ∧ Q a h := by
  obtain ⟨t, hs, ht⟩ := exists_terminal mode (Net.init p)
  obtain ⟨a, h, rfl, hQ⟩ := hf t hs ht
  exact ⟨a, h, hs, hQ⟩

/-- Where one process exits at once, no interleaving finishes. -/
theorem not_finishes_of_exit [Finite I] {p : I → Proc C M E α}
    {Q : (I → α) → (C → List M) → Prop} {i : I} {e : E} (hp : p i = .exit e) :
    ¬Finishes mode p Q := fun hf =>
  let ⟨_, _, hr, _⟩ := hf.runs
  not_runs_of_exit hp hr

/-- A party's code: a process with a private state of type `G`. -/
abbrev Party (G C M E : Type u) := StateT G (Proc C M E)

/-- A party owns its channels, whatever its state. -/
def Party.Owned (src dst : C → I) (i : I) (m : Party G C M E α) : Prop :=
  ∀ g, (m.run g).Owned src dst i

namespace Party.Owned

variable {i : I} {m : Party G C M E α} {f : α → Party G C M E β}

omit [DecidableEq I] [DecidableEq C] in
theorem pure (a : α) : Party.Owned src dst i (Pure.pure a : Party G C M E α) := fun _ => trivial

omit [DecidableEq I] [DecidableEq C] in
theorem bind (hm : Party.Owned src dst i m) (hf : ∀ a, Party.Owned src dst i (f a)) :
    Party.Owned src dst i (m >>= f) :=
  fun g => (hm g).bind fun x => hf x.1 x.2

omit [DecidableEq I] [DecidableEq C] in
theorem map {f : α → β} (hm : Party.Owned src dst i m) : Party.Owned src dst i (f <$> m) :=
  fun g => (hm g).bind fun _ => trivial

omit [DecidableEq I] [DecidableEq C] in
theorem modifyGet (f : G → α × G) :
    Party.Owned src dst i (MonadStateOf.modifyGet f : Party G C M E α) := fun _ => trivial

omit [DecidableEq I] [DecidableEq C] in
theorem lift {p : Proc C M E α} (hp : p.Owned src dst i) :
    Party.Owned src dst i (StateT.lift p : Party G C M E α) :=
  fun _ => hp.bind fun _ => trivial

omit [DecidableEq I] [DecidableEq C] in
theorem foldlM {γ : Type*} {f : α → γ → Party G C M E α}
    (hf : ∀ a x, Party.Owned src dst i (f a x)) (l : List γ) (a : α) :
    Party.Owned src dst i (l.foldlM f a) := by
  induction l generalizing a with
  | nil => exact .pure a
  | cons x l ih =>
    rw [List.foldlM_cons]
    exact (hf a x).bind ih

end Party.Owned

/-- **The parties `m`, started in the states `g`, can finish together**, with results `a`, in states
`g'`, having sent `h`. -/
def Yields (mode : SendMode) (m : I → Party G C M E α) (g : I → G) (a : I → α) (g' : I → G)
    (h : C → List M) : Prop :=
  Runs mode (fun i => (m i).run (g i)) (fun i => (a i, g' i)) h

namespace Yields

variable {m : I → Party G C M E α} {g g' g'' : I → G} {a : I → α} {b : I → β} {h h' : C → List M}

theorem pure (a : I → α) :
    Yields mode (fun i => (Pure.pure (a i) : Party G C M E α)) g a g fun _ => [] := .ret _

/-- What the second part sends comes after what the first part sent. -/
theorem bind {f : I → α → Party G C M E β} (hm : Yields mode m g a g' h)
    (hf : Yields mode (fun i => f i (a i)) g' b g'' h') :
    Yields mode (fun i => m i >>= f i) g b g'' fun c => h c ++ h' c :=
  Runs.bind (f := fun i (x : α × G) => (f i x.1).run x.2) hm hf

/-- If the whole finishes, so does the second part. -/
theorem of_bind [Finite I] {f : I → α → Party G C M E β} {k : C → List M}
    (hm : Yields mode m g a g' h) (ho : ∀ i, Party.Owned src dst i (m i >>= f i))
    (hb : Yields mode (fun i => m i >>= f i) g b g'' k) :
    ∃ k', Yields mode (fun i => f i (a i)) g' b g'' k' :=
  Runs.of_bind (f := fun i (x : α × G) => (f i x.1).run x.2) hm (fun i => ho i (g i)) hb

theorem bind_pure {f : I → α → β} (hm : Yields mode m g a g' h) :
    Yields mode (fun i => m i >>= fun x => Pure.pure (f i x)) g (fun i => f i (a i)) g' h := by
  have hb := hm.bind (f := fun i x => Pure.pure (f i x)) (Yields.pure fun i => f i (a i))
  simpa only [List.append_nil] using hb

theorem map {f : α → β} (hm : Yields mode m g a g' h) :
    Yields mode (fun i => f <$> m i) g (fun i => f (a i)) g' h := by
  simp only [map_eq_pure_bind]
  exact hm.bind_pure

/-- A step that only touches the private states, followed by the rest. -/
theorem modifyGet_bind {f : I → G → α × G} {k : I → α → Party G C M E β}
    (hk : Yields mode (fun i => k i (f i (g i)).1) (fun i => (f i (g i)).2) b g' h) :
    Yields mode (fun i => MonadStateOf.modifyGet (f i) >>= k i) g b g' h :=
  hk

/-- Code that runs like other code, from other states. -/
theorem of_run_eq {m' : I → Party G C M E α} {k : I → G} (hy : Yields mode m' k a g' h)
    (hm : ∀ i, (m i).run (g i) = (m' i).run (k i)) : Yields mode m g a g' h := by
  rw [Yields, funext hm]
  exact hy

/-- Code that does not communicate. -/
theorem of_run (hm : ∀ i, (m i).run (g i) = .ret (a i, g' i)) :
    Yields mode m g a g' fun _ => [] := by
  rw [Yields, funext hm]
  exact .ret _

/-- A loop that collects, and leaves the private states. -/
theorem foldlM_collect {γ : Type u} {f : I → List β → γ → Party G C M E (List β)} {b : I → γ → β}
    {h : γ → C → List M} {l : List γ} (res : I → List β)
    (hf : ∀ res : I → List β, ∀ x,
      Yields mode (fun i => f i (res i) x) g (fun i => res i ++ [b i x]) g (h x)) :
    Yields mode (fun i => l.foldlM (f i) (res i)) g (fun i => res i ++ l.map (b i)) g
      fun c => l.flatMap fun x => h x c := by
  induction l generalizing res with
  | nil => simpa using Yields.pure res
  | cons x l ih =>
    have hrest := ih fun i => res i ++ [b i x]
    simp only [List.append_assoc, List.singleton_append] at hrest
    simpa only [List.foldlM_cons, List.map_cons, List.flatMap_cons] using (hf res x).bind hrest

end Yields

/-- **The parties `m`, started in the states `g`, can finish together with `Q`** of their results,
their states and what they have sent. -/
def Ensures (mode : SendMode) (m : I → Party G C M E α) (g : I → G)
    (Q : (I → α) → (I → G) → (C → List M) → Prop) : Prop :=
  ∃ a g' h, Yields mode m g a g' h ∧ Q a g' h

namespace Ensures

variable {m : I → Party G C M E α} {g g' : I → G} {a : I → α} {h : C → List M}
variable {Q R : (I → α) → (I → G) → (C → List M) → Prop}

theorem of_yields (hm : Yields mode m g a g' h) (hQ : Q a g' h) : Ensures mode m g Q :=
  ⟨a, g', h, hm, hQ⟩

theorem finishes (he : Ensures mode m g Q) (hm : ∀ i, Party.Owned src dst i (m i)) :
    Finishes mode (fun i => (m i).run (g i)) fun b h => Q (fun i => (b i).1) (fun i => (b i).2) h :=
  let ⟨_, _, _, hr, hQ⟩ := he
  Runs.finishes hr (fun i => hm i (g i)) hQ

/-- All ends are alike, so what is ensured holds of any of them. -/
theorem holds (he : Ensures mode m g Q) (hm : ∀ i, Party.Owned src dst i (m i))
    (hy : Yields mode m g a g' h) : Q a g' h := by
  obtain ⟨b, h', heq, hb⟩ := he.finishes hm _ hy (Net.terminal_returned _ _)
  obtain ⟨rfl, rfl⟩ := Net.returned_inj heq
  exact hb

/-- Parties can finish in one way only. -/
theorem unique {b : I → α} {g'' : I → G} {h' : C → List M} (hy : Yields mode m g a g' h)
    (hy' : Yields mode m g b g'' h') (hm : ∀ i, Party.Owned src dst i (m i)) : b = a ∧ g'' = g' :=
  (of_yields (Q := fun b g'' _ => b = a ∧ g'' = g') hy ⟨rfl, rfl⟩).holds hm hy'

/-- What is ensured holds where all interleavings end. -/
theorem exists_of_finishes (he : Ensures mode m g Q) {S : (I → α × G) → (C → List M) → Prop}
    (hf : Finishes mode (fun i => (m i).run (g i)) S) :
    ∃ a g' h, Yields mode m g a g' h ∧ Q a g' h ∧ S (fun i => (a i, g' i)) h := by
  obtain ⟨a, g', h, hr, hQ⟩ := he
  obtain ⟨b, h', heq, hb⟩ := hf _ hr (Net.terminal_returned _ _)
  obtain ⟨rfl, rfl⟩ := Net.returned_inj heq
  exact ⟨a, g', h, hr, hQ, hb⟩

/-- Two postconditions speak about the same end. -/
theorem and (he : Ensures mode m g Q) (he' : Ensures mode m g R)
    (hm : ∀ i, Party.Owned src dst i (m i)) :
    Ensures mode m g fun a g' h => Q a g' h ∧ R a g' h :=
  let ⟨a, g', h, hr, hQ, hR⟩ := he.exists_of_finishes (he'.finishes hm)
  ⟨a, g', h, hr, hQ, hR⟩

/-- All interleavings end alike, so what they all satisfy is decided by one. -/
theorem finishes_iff (he : Ensures mode m g Q) (hm : ∀ i, Party.Owned src dst i (m i))
    {S : (I → α × G) → (C → List M) → Prop} {c : Prop}
    (hS : ∀ b h, Q (fun i => (b i).1) (fun i => (b i).2) h → (S b h ↔ c)) :
    Finishes mode (fun i => (m i).run (g i)) S ↔ c := by
  constructor
  · intro hf
    obtain ⟨a, g', h, -, hQ, hb⟩ := he.exists_of_finishes hf
    exact (hS _ _ hQ).mp hb
  · intro hc
    obtain ⟨a, g', h, hr, hQ⟩ := he
    exact Runs.finishes hr (fun i => hm i (g i)) ((hS _ _ hQ).mpr hc)

theorem mono (he : Ensures mode m g Q) (hQ : ∀ a g' h, Q a g' h → R a g' h) : Ensures mode m g R :=
  let ⟨a, g', h, hr, hq⟩ := he
  ⟨a, g', h, hr, hQ a g' h hq⟩

theorem pure {a : I → α} (hQ : Q a g fun _ => []) :
    Ensures mode (fun i => (Pure.pure (a i) : Party G C M E α)) g Q :=
  ⟨a, g, _, .pure a, hQ⟩

/-- The rule for sequencing. -/
theorem bind {f : I → α → Party G C M E β} {R : (I → β) → (I → G) → (C → List M) → Prop}
    (he : Ensures mode m g Q)
    (hf : ∀ a g' h, Q a g' h →
      Ensures mode (fun i => f i (a i)) g' fun b g'' h' => R b g'' fun c => h c ++ h' c) :
    Ensures mode (fun i => m i >>= f i) g R := by
  obtain ⟨a, g', h, hr, hQ⟩ := he
  obtain ⟨b, g'', h', hr', hR⟩ := hf a g' h hQ
  exact ⟨b, g'', _, hr.bind hr', hR⟩

/-- A function of the results. -/
theorem map {f : α → β} {R : (I → β) → (I → G) → (C → List M) → Prop} (he : Ensures mode m g Q)
    (hQ : ∀ a g' h, Q a g' h → R (fun i => f (a i)) g' h) :
      Ensures mode (fun i => f <$> m i) g R := by
  obtain ⟨a, g', h, hr, hq⟩ := he
  exact of_yields hr.map (hQ a g' h hq)

/-- **A loop over a list**: `Inv pre` holds when the elements `pre` are done. -/
theorem foldlM {γ : Type u} {f : I → α → γ → Party G C M E α}
    (Inv : List γ → (I → α) → (I → G) → Prop) (l : List γ) {a : I → α} (h : Inv [] a g)
    (step : ∀ pre x, pre ++ [x] <+: l → ∀ a g, Inv pre a g →
      Ensures mode (fun i => f i (a i) x) g fun b g' _ => Inv (pre ++ [x]) b g') :
    Ensures mode (fun i => l.foldlM (f i) (a i)) g fun b g' _ => Inv l b g' := by
  induction l using List.reverseRecOn with
  | nil => exact Ensures.pure h
  | append_singleton l x ih =>
    simp only [List.foldlM_append, List.foldlM_cons, List.foldlM_nil, bind_pure]
    have hpre := ih fun pre y hy => step pre y (hy.trans (List.prefix_append l [x]))
    exact hpre.bind fun b g' _ hb => (step l x (List.prefix_refl _) b g' hb).mono fun _ _ _ => id

/-- **A loop over a range**: `Inv k` holds after `k` rounds. -/
theorem foldlM_range {f : I → α → ℕ → Party G C M E α} (Inv : ℕ → (I → α) → (I → G) → Prop)
    (n : ℕ) {a : I → α} (h : Inv 0 a g)
    (step : ∀ k < n, ∀ a g, Inv k a g →
      Ensures mode (fun i => f i (a i) k) g fun b g' _ => Inv (k + 1) b g') :
    Ensures mode (fun i => (List.range n).foldlM (f i) (a i)) g fun b g' _ => Inv n b g' := by
  induction n with
  | zero => exact Ensures.pure h
  | succ n ih =>
    simp only [List.range_succ, List.foldlM_append, List.foldlM_cons, List.foldlM_nil, bind_pure]
    have hpre := ih fun k hk => step k (Nat.lt_succ_of_lt hk)
    exact hpre.bind fun b g' _ hb => (step n n.lt_succ_self b g' hb).mono fun _ _ _ => id

end Ensures

end Machinery
