import TvaMpc.Machinery.Sharing
import TvaMpc.Machinery.Triple

/-!
# Machinery/Replicated — code that keeps the copies of the components equal

`x i k` is the copy that party `i` holds of the component of party `layout i k`.  What the parties
compute copy by copy keeps the copies equal (`Replicated.map₂`).  Copies that are equal share
something, over every ring (`Replicated.shares`).

`Keeps` is the triple for such relations: it forgets what is computed, so its rules have no side
conditions on values.
-/

namespace Machinery

section Copies

variable {N ρ : ℕ} [NeZero ρ] {layout : Fin N → Fin ρ → Fin N} {α β γ : Type*}

/-- **Equal copies of every component.** -/
def Replicated (layout : Fin N → Fin ρ → Fin N) (x : Fin N → Fin ρ → α) : Prop :=
  ∀ i k, x i k = x (layout i k) 0

namespace Replicated

variable {x : Fin N → Fin ρ → α} {y : Fin N → Fin ρ → β}

theorem const (a : α) : Replicated layout fun _ _ => a := fun _ _ => rfl

theorem map (hx : Replicated layout x) (f : α → β) : Replicated layout fun i k => f (x i k) :=
  fun i k => congrArg f (hx i k)

theorem map₂ (hx : Replicated layout x) (hy : Replicated layout y) (f : α → β → γ) :
    Replicated layout fun i k => f (x i k) (y i k) :=
  fun i k => congrArg₂ f (hx i k) (hy i k)

variable {W : Type*} [CommRing W] {n : ℕ} {z : Fin N → Fin ρ → Fin n → W} {v : Fin n → W}

/-- **What is replicated is a sharing** of the sum of its components. -/
theorem shares (hz : Replicated layout z) : Shares layout z (∑ i, z i 0) := ⟨hz, rfl⟩

end Replicated

theorem Shares.isReplicated {W : Type*} [CommRing W] {n : ℕ} {z : Fin N → Fin ρ → Fin n → W}
    {v : Fin n → W} (hz : Shares layout z v) : Replicated layout z := hz.replicated

end Copies

universe u

variable {I : Type*} {C M E G α β : Type u} [DecidableEq I] [DecidableEq C]
variable {src dst : C → I} {mode : SendMode} {Good : (I → G) → Prop}

/-- **The parties `m` can finish with results related by `R`**, from all states that are `Good`, and
these stay `Good`. -/
def Keeps (mode : SendMode) (Good : (I → G) → Prop) (R : (I → α) → Prop)
    (m : I → Party G C M E α) : Prop :=
  ∀ g, Good g → Ensures mode m g fun a g' _ => R a ∧ Good g'

namespace Keeps

variable {m : I → Party G C M E α} {R : (I → α) → Prop} {S : (I → β) → Prop} {a : I → α}

theorem pure (h : R a) : Keeps mode Good R fun i => (Pure.pure (a i) : Party G C M E α) :=
  fun _ hg => Ensures.pure ⟨h, hg⟩

theorem bind {f : I → α → Party G C M E β} (hm : Keeps mode Good R m)
    (hf : ∀ a, R a → Keeps mode Good S fun i => f i (a i)) :
    Keeps mode Good S fun i => m i >>= f i :=
  fun g hg => (hm g hg).bind fun a g' _ ha => (hf a ha.1 g' ha.2).mono fun _ _ _ h => h

theorem mono {R' : (I → α) → Prop} (hm : Keeps mode Good R m) (h : ∀ a, R a → R' a) :
    Keeps mode Good R' m :=
  fun g hg => (hm g hg).mono fun _ _ _ ha => ⟨h _ ha.1, ha.2⟩

/-- **A loop over a list** keeps what every round keeps. -/
theorem foldlM {γ : Type u} {f : I → α → γ → Party G C M E α} (l : List γ) (h : R a)
    (step : ∀ x ∈ l, ∀ a, R a → Keeps mode Good R fun i => f i (a i) x) :
    Keeps mode Good R fun i => l.foldlM (f i) (a i) := by
  induction l generalizing a with
  | nil => exact Keeps.pure h
  | cons x l ih =>
    simp only [List.foldlM_cons]
    exact (step x List.mem_cons_self a h).bind fun b hb =>
      ih hb fun y hy => step y (List.mem_cons_of_mem x hy)

/-- All ends are alike, so what the parties can end with is related by `R`. -/
theorem holds {g g' : I → G} {h : C → List M} (hm : Keeps mode Good R m) (hg : Good g)
    (hown : ∀ i, Party.Owned src dst i (m i)) (hy : Yields mode m g a g' h) : R a ∧ Good g' :=
  (hm g hg).holds hown hy

end Keeps

end Machinery
