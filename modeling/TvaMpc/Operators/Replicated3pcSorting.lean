import TvaMpc.Operators.SortingCorrect
import TvaMpc.Protocols.Replicated3pcBits

/-!
# Operators/Replicated3pcSorting — three parties sort a table
-/

namespace Tva.Replicated3pc

open Machinery Operators

variable {d : DataType} {G : Type} [RandomGenerator G d] {mode : SendMode}

/-- **The bitonic sort sorts whole rows**, in every interleaving of the three parties: there is one
permutation by which all columns are shared again, and under it the key rows do not decrease in the
lexicographic order, a descending column counting negatively. -/
theorem bitonicSort_sorts {Good : (Fin 3 → G) → Prop} (hz : ZeroMasks d Good) {g : Fin 3 → G}
    (hg : Good g) (k : ℕ) (columns dataA dataB : List ℕ) (desc : List Bool)
    (hcolumns : columns ≠ []) (hdesc : desc.length = columns.length)
    (hB : (columns ++ dataB).Nodup) (hA : dataA.Nodup) (M : Fin 3 → Memory 2 (2 ^ k) d)
    (V : Column → Vec (2 ^ k) d)
    (hM : Memory.Shares layout (· ∈ table columns dataA dataB) M V) :
    Finishes mode
      (fun i => (bitonicSort (protocol d G i) columns dataA dataB desc (M i)).run (g i))
      fun out _ => ∃ σ : Equiv.Perm (Fin (2 ^ k)),
        (∀ c ∈ table columns dataA dataB,
          SharesC layout c (fun i => (out i).1 c) fun j => V c (σ j)) ∧
        Monotone fun j => keyRow (columns.zip desc) V (σ j) := by
  have hfst : (columns.zip desc).map Prod.fst = columns := List.map_fst_zip hdesc.ge
  have hsnd : (columns.zip desc).map Prod.snd = desc := List.map_snd_zip hdesc.le
  have hkeys : columns.zip desc ≠ [] := fun h => hcolumns (by rw [← hfst, h]; rfl)
  have hP : Protocol.CorrectBits (protocol d G) layout 0 (fun _ => True) Good mode := correctBits hz
  have hcols : ((columns.zip desc).map Prod.fst ++ dataB).Nodup := by rwa [hfst]
  have hsort := ensures_bitonicSort rfl hP hg hM hkeys hcols hA (by rw [hfst]; exact fun _ => id)
    (roomForRounds_zero _)
  rw [hfst, hsnd] at hsort
  have hsorted : Ensures mode
      (fun i => bitonicSort (protocol d G i) columns dataA dataB desc (M i)) g fun M' _ _ =>
      ∃ σ : Equiv.Perm (Fin (2 ^ k)),
        (∀ c ∈ table columns dataA dataB,
          SharesC layout c (fun i => M' i c) fun j => V c (σ j)) ∧
        Monotone fun j => keyRow (columns.zip desc) V (σ j) := by
    refine hsort.mono fun M' g' _ h => ?_
    obtain ⟨⟨σ, hM', hmono⟩, -⟩ := h
    refine ⟨σ, fun c hc => ?_, hmono⟩
    have hshares := hM' c hc
    rwa [reorder, if_pos hc] at hshares
  exact hsorted.finishes fun i =>
    ownedBy_bitonicSort (ownedBy_protocol i) columns dataA dataB desc (M i)

/-- A table of two rows that party `0` knows: a key column, and one data column of each kind. -/
def twoRows : Column → Vec 2 .int8_t
  | .b 0 => ![3, 5]
  | .b _ => ![7, -7]
  | .a _ => ![1, 2]

theorem bitonicSort_sorts_two : Finishes .rendezvous
    (fun i => (bitonicSort (protocol .int8_t (Streams .int8_t) i) [0] [0] [1] [true]
      (fun c => plain (twoRows c) i)).run (zeroStreams .int8_t i))
    fun out _ => ∃ σ : Equiv.Perm (Fin 2),
      (∀ c ∈ [Column.b 0, .a 0, .b 1],
        SharesC layout c (fun i => (out i).1 c) fun j => twoRows c (σ j)) ∧
      Monotone fun j => keyRow [(0, true)] twoRows (σ j) :=
  bitonicSort_sorts zeroMasks_streams zeroStreams_zero 1 [0] [0] [1] [true] (by decide) rfl
    (by decide) (by decide) _ _ fun c _ => shares_plain c (twoRows c)

end Tva.Replicated3pc
