import TvaMpc.Operators.AggregationCorrect
import TvaMpc.Protocols.Replicated3pcBits

/-!
# Operators/Replicated3pcAggregation — three parties aggregate groups
-/

namespace Tva.Replicated3pc

open Machinery Operators

variable {d : DataType} {G : Type} [RandomGenerator G d] {mode : SendMode}

/-- **The aggregation is a segmented scan**, in every interleaving of the three parties: at row `r`
every result is shared again, as the sum, the signed maximum or the signed minimum of its values
over the rows of the key group from `r` on, or up to `r`. -/
theorem oddEvenAggregation_scans {Good : (Fin 3 → G) → Prop} (hz : ZeroMasks d Good)
    {g : Fin 3 → G} (hg : Good g) (t : Aggregation) (k : ℕ) (keys values results : List ℕ)
    (hkeys : keys ≠ []) (hd : Distinct t.kind keys values results) (reverse : Bool)
    (M : Fin 3 → Memory 2 (2 ^ k) d) (V : Column → Vec (2 ^ k) d)
    (hM : Memory.Shares layout (· ∈ keys.map Column.b ++ values.map t.kind.column) M V)
    (hcontiguous : KeysContiguous keys V) :
    Finishes mode (fun i => (oddEvenAggregation (protocol d G i) t.kind keys values results
        (t.function (protocol d G i)) reverse none (M i)).run (g i))
      fun out _ => ∀ p ∈ values.zip results, ∃ z : Vec (2 ^ k) d,
        SharesC layout (t.kind.column p.2) (fun i => (out i).1 (t.kind.column p.2)) z ∧
        ∀ r, t.Of (V (t.kind.column p.1)) (groupRows keys V reverse r) (z r) := by
  have hP : Protocol.CorrectBits (protocol d G) layout 0 (fun _ => True) Good mode := correctBits hz
  have hop : ∀ r ∈ results, t.kind.column r ∈ keys.map Column.b →
      ∀ x : Word d, t.op x x = x := by
    intro r _ hr
    cases t with
    | sum =>
      obtain ⟨key, -, he⟩ := List.mem_map.mp hr
      cases he
    | max => exact extremum_self false
    | min => exact extremum_self true
  have hsel : Selects layout (none : Option (Fin 3 → EVector 2 (2 ^ k) d)) fun _ => true :=
    fun _ => rfl
  have hagg := ensures_oddEvenAggregation trivial hP (t.combines hP) hg hM rfl hkeys
    (fun key hk => List.mem_append_left _ (List.mem_map_of_mem hk))
    (fun v hv => List.mem_append_right _ (List.mem_map_of_mem hv)) hd hop reverse hsel
    (roomForRounds_zero _)
  have hscan : Ensures mode (fun i => oddEvenAggregation (protocol d G i) t.kind keys values results
      (t.function (protocol d G i)) reverse none (M i)) g fun M' _ _ =>
      ∀ p ∈ values.zip results, ∃ z : Vec (2 ^ k) d,
        SharesC layout (t.kind.column p.2) (fun i => M' i (t.kind.column p.2)) z ∧
        ∀ r, t.Of (V (t.kind.column p.1)) (groupRows keys V reverse r) (z r) := by
    refine hagg.mono fun M' g' _ h p hp => ?_
    obtain ⟨⟨V', hM', hresult, -⟩, -⟩ := h
    have hmem : t.kind.column p.2 ∈ results.map t.kind.column :=
      List.mem_map_of_mem (List.of_mem_zip hp).2
    refine ⟨_, hM' _ (.inr hmem), fun r => ?_⟩
    rw [hresult p hp, ← reach_groupRows hcontiguous rfl]
    exact t.of_scan _ _ reverse le_rfl r
  exact hscan.finishes fun i => ownedBy_oddEvenAggregation (ownedBy_protocol i) _ _ _ _
    (t.ownedBy_function (ownedBy_protocol i)) _ _ _

/-- Two rows with equal keys, which are aggregated in place. -/
def twoEqual : Column → Vec 2 .int8_t
  | .b 0 => ![4, 4]
  | .b _ => ![7, -7]
  | .a _ => ![100, 100]

theorem oddEvenAggregation_scans_two : Finishes .rendezvous
    (fun i => (oddEvenAggregation (protocol .int8_t (Streams .int8_t) i) .aSharedVector [0] [1] [1]
      (sumAggregation (protocol .int8_t (Streams .int8_t) i)) true none
      (fun c => plain (twoEqual c) i)).run (zeroStreams .int8_t i))
    fun out _ => ∀ p ∈ [(1, 1)], ∃ z : Vec 2 .int8_t,
      SharesC layout (.a p.2) (fun i => (out i).1 (.a p.2)) z ∧
      ∀ r, z r = ∑ s ∈ groupRows [0] twoEqual true r, twoEqual (.a p.1) s :=
  oddEvenAggregation_scans zeroMasks_streams zeroStreams_zero .sum 1 [0] [1] [1] (by decide)
    ⟨by decide, rfl, by decide, by decide⟩ true _ _ (fun c _ => shares_plain c (twoEqual c))
    (by decide)

end Tva.Replicated3pc
