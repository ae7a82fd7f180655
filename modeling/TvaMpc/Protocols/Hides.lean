import TvaMpc.Containers.BSharedVector
import TvaMpc.Machinery.Hiding

/-!
# Protocols/Hides — operators that hide what they compute on

`Protocol.Hides` is the contract of privacy: whatever the components that party `p` does not have,
the primitives look the same to it.  It does not speak of openings, nor of `b2a_bit` and `div`,
which open something on the way.  All operators of the shared vectors that are built on the others
hide as well.
-/

namespace Tva

open Machinery

variable {N ρ n : ℕ} {d : DataType} {G : Type} {J W α : Type}

/-- Code of the parties that looks the same to `p`. -/
abbrev HidesAt (mode : SendMode) (keys : (J → ℕ → W) → Fin N → G) (p : Fin N) (secret : J → Prop)
    (m m' : Fin N → PartyM N d G α) : Prop :=
  Hides mode Channel.dest keys p secret m m'

/-- **The primitives hide the components that `p` does not have**, and the data of others. -/
structure Protocol.Hides (P : Fin N → Protocol N ρ d G) (mode : SendMode)
    (keys : (J → ℕ → W) → Fin N → G) (p : Fin N) (secret : J → Prop) : Prop where
  multiplyA {n : ℕ} {x x' y y' : Fin N → EVector ρ n d} (hx : x p = x' p) (hy : y p = y' p) :
    HidesAt mode keys p secret (fun i => (P i).multiplyA (x i) (y i))
      fun i => (P i).multiplyA (x' i) (y' i)
  andB {n : ℕ} {x x' y y' : Fin N → EVector ρ n d} (hx : x p = x' p) (hy : y p = y' p) :
    HidesAt mode keys p secret (fun i => (P i).andB (x i) (y i)) fun i => (P i).andB (x' i) (y' i)
  redistributeSharesB {n : ℕ} {x x' : Fin N → EVector ρ n d} (hx : x p = x' p) :
    HidesAt mode keys p secret (fun i => (P i).redistributeSharesB (x i))
      fun i => (P i).redistributeSharesB (x' i)
  secretShareA {n : ℕ} {data data' : Fin N → Vec n d} {q : Fin N} (h : q = p → data p = data' p) :
    HidesAt mode keys p secret (fun i => (P i).secretShareA (data i) q)
      fun i => (P i).secretShareA (data' i) q
  secretShareB {n : ℕ} {data data' : Fin N → Vec n d} {q : Fin N} (h : q = p → data p = data' p) :
    HidesAt mode keys p secret (fun i => (P i).secretShareB (data i) q)
      fun i => (P i).secretShareB (data' i) q

namespace Protocol.Hides

variable {P : Fin N → Protocol N ρ d G} {mode : SendMode} {keys : (J → ℕ → W) → Fin N → G}
variable {p : Fin N} {secret : J → Prop} (hP : Hides P mode keys p secret)
include hP

/-! ## The adder -/

theorem or {x x' y y' : Fin N → EVector ρ n d} (hx : x p = x' p) (hy : y p = y' p) :
    HidesAt mode keys p secret (fun i => (P i).or (x i) (y i)) fun i => (P i).or (x' i) (y' i) := by
  refine (hP.andB ?_ ?_).bind fun z z' hz => .pure (congrArg (P p).notB hz)
  · rw [hx]
  · rw [hy]

theorem prefixSum {x x' y y' : Fin N → EVector ρ n d × EVector ρ n d} (hx : x p = x' p)
    (hy : y p = y' p) : HidesAt mode keys p secret (fun i => (P i).prefixSum (x i) (y i))
      fun i => (P i).prefixSum (x' i) (y' i) := by
  refine (hP.andB ?_ ?_).bind fun carry carry' hcarry => ?_
  · rw [hx]
  · rw [hy]
  refine (hP.or ?_ hcarry).bind fun g g' hg => (hP.andB ?_ ?_).bind fun q q' hq =>
    .pure (congrArg₂ Prod.mk hg hq)
  · rw [hx]
  · rw [hx]
  · rw [hy]

theorem parallelPrefixAdder {x x' y y' : Fin N → EVector ρ n d} (hx : x p = x' p)
    (hy : y p = y' p) : HidesAt mode keys p secret
      (fun i => (P i).parallelPrefixAdder (x i) (y i))
      fun i => (P i).parallelPrefixAdder (x' i) (y' i) := by
  refine (hP.andB hx hy).bind fun g g' hg => ?_
  refine Hides.bind (Hides.foldlM (by rw [hg, hx, hy]) fun i _ gp gp' hgp => ?_)
    fun res res' hres => .pure (by rw [hx, hy, hres])
  exact hP.prefixSum hgp (by rw [hgp])

theorem a2b {x x' : Fin N → EVector ρ n d} (hx : x p = x' p) :
    HidesAt mode keys p secret (fun i => (P i).a2b (x i)) fun i => (P i).a2b (x' i) :=
  (hP.redistributeSharesB hx).bind fun _ _ hb =>
    hP.parallelPrefixAdder (congrArg Prod.fst hb) (congrArg Prod.snd hb)

/-! ## Comparisons -/

section Comparisons

variable {x x' y y' : Fin N → EVector ρ n d} (hx : x p = x' p) (hy : y p = y' p)
include hx hy

theorem bitSame : HidesAt mode keys p secret (fun i => (P i).bitSame (x i) (y i))
    fun i => (P i).bitSame (x' i) (y' i) :=
  Hides.foldlM (by rw [hx, hy]) fun _ _ same same' hsame => hP.andB (by rw [hsame]) hsame

theorem eq : HidesAt mode keys p secret (fun i => (P i).eq (x i) (y i))
    fun i => (P i).eq (x' i) (y' i) :=
  (hP.bitSame hx hy).bind fun _ _ h => .pure (by rw [h])

theorem ne : HidesAt mode keys p secret (fun i => (P i).ne (x i) (y i))
    fun i => (P i).ne (x' i) (y' i) :=
  (hP.eq hx hy).bind fun _ _ h => .pure (by rw [h])

theorem treatSigns {res res' : Fin N → EVector ρ n d} (hres : res p = res' p) :
    HidesAt mode keys p secret (fun i => (P i).treatSigns (x i) (y i) (res i))
      fun i => (P i).treatSigns (x' i) (y' i) (res' i) := by
  refine (hP.andB ?_ ?_).bind fun different different' hdifferent => ?_
  · rw [hx, hy]
  · rw [hy]
  refine (hP.andB ?_ hres).bind fun same same' hsame => .pure (by rw [hdifferent, hsame])
  rw [hx, hy]

theorem gt : HidesAt mode keys p secret (fun i => (P i).gt (x i) (y i))
    fun i => (P i).gt (x' i) (y' i) := by
  refine (hP.bitSame hx hy).bind fun same same' hsame => ?_
  refine (hP.andB ?_ ?_).bind fun edge edge' hedge => ?_
  · rw [hsame]
  · rw [hsame]
  exact (hP.andB hedge hx).bind fun _ _ h => hP.treatSigns hx hy (by rw [h])

theorem ge : HidesAt mode keys p secret (fun i => (P i).ge (x i) (y i))
    fun i => (P i).ge (x' i) (y' i) :=
  (hP.gt hy hx).bind fun _ _ h => .pure (by rw [h])

theorem le : HidesAt mode keys p secret (fun i => (P i).le (x i) (y i))
    fun i => (P i).le (x' i) (y' i) :=
  (hP.gt hx hy).bind fun _ _ h => .pure (by rw [h])

end Comparisons

end Protocol.Hides

end Tva
