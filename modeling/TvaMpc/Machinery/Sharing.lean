import Mathlib.Algebra.BigOperators.Pi
import Mathlib.Algebra.Ring.Pi
import Mathlib.Algebra.BigOperators.Fin

/-!
# Machinery/Sharing — replicated additive secret sharing over a ring

A vector is the sum of one component per party, and every party holds `ρ` of the components: its own
in column `0`, and those of the parties that the `layout` names in the other columns.

What a party computes columnwise and additively, all parties together compute on the value
(`Shares.map`); products need a protocol.
-/

namespace Machinery

open Finset

variable {W : Type*} [CommRing W] {N ρ n m : ℕ} [NeZero ρ]

/-- **A well-formed sharing of `v`**: equal copies of every component, which add up to `v`. -/
structure Shares (layout : Fin N → Fin ρ → Fin N) (x : Fin N → Fin ρ → Fin n → W) (v : Fin n → W) :
    Prop where
  replicated : ∀ i k, x i k = x (layout i k) 0
  value : ∑ i, x i 0 = v

namespace Shares

variable {layout : Fin N → Fin ρ → Fin N} {x y : Fin N → Fin ρ → Fin n → W} {v u : Fin n → W}

theorem add (hx : Shares layout x u) (hy : Shares layout y v) :
    Shares layout (fun i k => x i k + y i k) (u + v) where
  replicated i k := by rw [hx.replicated i k, hy.replicated i k]
  value := by rw [sum_add_distrib, hx.value, hy.value]

theorem zero : Shares layout (fun _ _ => (0 : Fin n → W)) 0 where
  replicated _ _ := rfl
  value := sum_const_zero

theorem sub (hx : Shares layout x u) (hy : Shares layout y v) :
    Shares layout (fun i k => x i k - y i k) (u - v) where
  replicated i k := by rw [hx.replicated i k, hy.replicated i k]
  value := by rw [sum_sub_distrib, hx.value, hy.value]

theorem neg (hx : Shares layout x v) : Shares layout (fun i k => -x i k) (-v) where
  replicated i k := by rw [hx.replicated i k]
  value := by rw [sum_neg_distrib, hx.value]

/-- **Additive maps act on shared values**, column by column. -/
theorem map (hx : Shares layout x v) (f : (Fin n → W) →+ (Fin m → W)) :
    Shares layout (fun i k => f (x i k)) (f v) where
  replicated i k := by rw [hx.replicated i k]
  value := by rw [← map_sum, hx.value]

/-- The elements at chosen places. -/
theorem comp (hx : Shares layout x v) (p : Fin m → Fin n) :
    Shares layout (fun i k j => x i k (p j)) fun j => v (p j) :=
  hx.map (AddMonoidHom.mk' (fun w j => w (p j)) fun _ _ => rfl)

/-- Elements of two shared vectors put together. -/
theorem elim {l : ℕ} {z : Fin N → Fin ρ → Fin m → W} {w : Fin m → W} (hx : Shares layout x v)
    (hz : Shares layout z w) (pick : Fin l → Fin n ⊕ Fin m) :
    Shares layout (fun i k j => Sum.elim (x i k) (z i k) (pick j))
      fun j => Sum.elim v w (pick j) where
  replicated i k := by rw [hx.replicated i k, hz.replicated i k]
  value := by
    funext j
    rw [Finset.sum_apply]
    cases pick j with
    | inl a => rw [Sum.elim_inl, ← hx.value, Finset.sum_apply]; rfl
    | inr b => rw [Sum.elim_inr, ← hz.value, Finset.sum_apply]; rfl

/-- The value of a sharing is unique. -/
theorem unique (hx : Shares layout x v) (hx' : Shares layout x u) : v = u :=
  hx.value.symm.trans hx'.value

end Shares

end Machinery
