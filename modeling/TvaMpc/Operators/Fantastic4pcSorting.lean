import TvaMpc.Operators.Comparisons
import TvaMpc.Operators.SortingCorrect

/-!
# Operators/Fantastic4pcSorting — four parties permute a table

Four components with a bit set have it cleared in their `^`, so the fused comparison of four parties
gives the right bits only where the words agree in their two highest bits (`comparesWithin`).  Bits
it always gives: with room for the products of its rounds, the sort keeps the rows together whatever
the keys are, and none is lost, and it puts them in order if each key column stays within a quarter
of the words (`bitonicSort_permutes`).
-/

namespace Tva.Fantastic4pc

open Machinery Operators

variable {d : DataType} {G : Type} [RandomGenerator G d] {Good : G → Prop} {g : Fin 4 → G}

/-- The two highest bits of a word. -/
abbrev highest (w : Word d) : Word d := w >>> (d.digits - 1)

/-- **The fused comparison of four parties**, without masks. -/
theorem comparesWithin (hz : ZeroMasks d Good) :
    ComparesWithin highest (protocol d G) layout 3 (· = 0) (fun g => ∀ i, Good (g i))
      .buffered where
  toKeepsKind := keepsBits hz
  compare {n x y u v g} hg hx hy hn := by
    refine (ensures_compare_value (keepsBits hz) hg
      (· &&& ~~~((1 : Word d) <<< (d.digits - 1))) (sharesB_setBits _) hx hy hn).mono
      fun z g' _ h => ?_
    obtain ⟨⟨s, hagree, heq, hgt⟩, hg'⟩ := h
    refine ⟨⟨_, _, heq, hgt, fun j htop => ⟨?_, ?_⟩⟩, hg'⟩
    · have hcleared := (hagree j).cleared_eq_iff.mpr htop
      rw [bitXorWord_eq] at hcleared
      exact (congrArg (! ·) (bit_inj hcleared)).trans (Bool.not_not _)
    · exact slt_of_signs fun _ =>
        bit_inj ((bitXorWord_eq _).symm.trans ((hagree j).cleared_gt htop))

end Tva.Fantastic4pc
