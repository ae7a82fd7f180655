import TvaMpc.Containers.BSharedVector
import TvaMpc.Containers.References
import TvaMpc.Operators.Common

/-!
# Operators/Aggregation — segmented aggregation of columns

`oddEvenAggregation` works in rounds.  A round compares the keys of the rows at a fixed distance,
and its function (`sumAggregation`, `maxAggregation`, `minAggregation`) then combines the rows of
equal keys, in place.
-/

namespace Tva.Operators

open Machinery

variable {N ρ n m least : ℕ} {d : DataType} {G : Type}

/-- The parameter `SVector`: which kind of shared vectors is aggregated. -/
inductive SVector where
  | aSharedVector
  | bSharedVector

/-- The column of that kind with number `i`. -/
def SVector.column : SVector → ℕ → Column
  | aSharedVector => .a
  | bSharedVector => .b

/-- `simple_subset_reference(0, 1, total_size - d - 1)`. -/
def firstRows (totalSize dist : ℕ) : VectorData :=
  (VectorData.vectorData totalSize).simpleSubsetReference 0 1 (totalSize - dist - 1)

/-- `simple_subset_reference(d)`. -/
def secondRows (totalSize dist : ℕ) : VectorData :=
  (VectorData.vectorData totalSize).simpleSubsetReferenceFrom dist 1

variable (P : Protocol N ρ d G)

/-! ## The functions of a round -/

/-- A function that combines the rows at a distance: `d`, `group_bits`, `results` and `reverse`. -/
abbrev AggregationFunction (N ρ n : ℕ) (d : DataType) (G : Type) :=
  (m dist : ℕ) → EVector ρ m d → List Column → Bool → Memory ρ n d → PartyM N d G (Memory ρ n d)

/-- The round of `sum_aggregation` on one column. -/
def sumColumn (m dist : ℕ) (groupBitsA : EVector ρ m d) (reverse : Bool) (M : Memory ρ n d)
    (c : Column) : PartyM N d G (Memory ρ n d) := do
  let first := M.read m ⟨c, firstRows n dist⟩
  let second := M.read m ⟨c, secondRows n dist⟩
  if reverse then do
    let z ← P.multiplyA groupBitsA first
    return M.write ⟨c, secondRows n dist⟩ (P.addA second z)
  else do
    let z ← P.multiplyA groupBitsA second
    return M.write ⟨c, firstRows n dist⟩ (P.addA first z)

/-- `sum_aggregation`. -/
def sumAggregation : AggregationFunction N ρ n d G := fun m dist groupBitsA results reverse M =>
  results.foldlM (sumColumn P m dist groupBitsA reverse) M

/-- The round of `max_aggregation` on one column. -/
def maxColumn (minAggr : Bool) (m dist : ℕ) (groupBits : EVector ρ m d) (reverse : Bool)
    (M : Memory ρ n d) (c : Column) : PartyM N d G (Memory ρ n d) := do
  let first := M.read m ⟨c, firstRows n dist⟩
  let second := M.read m ⟨c, secondRows n dist⟩
  let secondGreater ← P.gt second first
  let chosen := if minAggr then P.notB1 secondGreater else secondGreater
  let best ← multiplexB P chosen first second
  if reverse then do
    let z ← multiplexB P groupBits second best
    return M.write ⟨c, secondRows n dist⟩ z
  else do
    let z ← multiplexB P groupBits first best
    return M.write ⟨c, firstRows n dist⟩ z

/-- `max_aggregation` with its parameter `min_aggr`. -/
def maxAggregationWith (minAggr : Bool) : AggregationFunction N ρ n d G :=
  fun m dist groupBits results reverse M =>
    results.foldlM (maxColumn P minAggr m dist groupBits reverse) M

/-- `max_aggregation`. -/
def maxAggregation : AggregationFunction N ρ n d G := maxAggregationWith P false

/-- `min_aggregation`. -/
def minAggregation : AggregationFunction N ρ n d G := maxAggregationWith P true

/-! ## `odd_even_aggregation` -/

/-- `auto_conversion` of the group bits to the kind of the values. -/
def autoConversion (kind : SVector) (x : EVector ρ m d) : PartyM N d G (EVector ρ m d) :=
  match kind with
  | .aSharedVector => P.b2aBit x
  | .bSharedVector => return x

/-- The deep assignments at the start, where values and results are different objects. -/
def copyValues (kind : SVector) (values results : List ℕ) (M : Memory ρ n d) : Memory ρ n d :=
  (values.zip results).foldl (fun M vr =>
    if vr.1 ≠ vr.2 then Function.update M (kind.column vr.2) (M (kind.column vr.1)) else M) M

/-- Which of the rows at the distance have equal keys. -/
def keyBits (m dist : ℕ) (keys : List ℕ) (sharedOne : EVector ρ 1 d) (M : Memory ρ n d) :
    PartyM N d G (EVector ρ m d) :=
  match keys with
  | [] => return fun k =>
      ((VectorData.vectorData 1).repeatedSubsetReference m).read m (sharedOne k)
  | key :: keys => do
      let groupBits ← P.eq (M.read m ⟨.b key, firstRows n dist⟩)
        (M.read m ⟨.b key, secondRows n dist⟩)
      keys.foldlM (fun groupBits key => do
        let groupBits' ← P.eq (M.read m ⟨.b key, firstRows n dist⟩)
          (M.read m ⟨.b key, secondRows n dist⟩)
        P.andB groupBits groupBits') groupBits

/-- `if (sel_b != NULL)`: both rows must be selected, too. -/
def selectBits (m dist : ℕ) (selB : Option (EVector ρ n d)) (groupBits : EVector ρ m d) :
    PartyM N d G (EVector ρ m d) :=
  match selB with
  | none => return groupBits
  | some sel => do
      let groupBits ← P.andB groupBits fun k => (firstRows n dist).read m (sel k)
      P.andB groupBits fun k => (secondRows n dist).read m (sel k)

/-- The distance of round `i`, which starts at `1`.  In reverse the size is divided by
`2 ^ (log2(total_size) - i + 1)`, with a real logarithm. -/
def roundDistance (totalSize : ℕ) (reverse : Bool) (i : ℕ) : ℕ :=
  if reverse then 2 ^ (i - 1) else totalSize / 2 ^ i

/-- A round at a distance. -/
def aggregationRound (kind : SVector) (keys results : List ℕ) (func : AggregationFunction N ρ n d G)
    (reverse : Bool) (selB : Option (EVector ρ n d)) (sharedOne : EVector ρ 1 d) (dist : ℕ)
    (M : Memory ρ n d) : PartyM N d G (Memory ρ n d) := do
  let m := n - dist
  let groupBits ← keyBits P m dist keys sharedOne M
  let groupBits ← selectBits P m dist selB groupBits
  let groupBitsA ← autoConversion P kind groupBits
  func m dist groupBitsA (results.map kind.column) reverse M

/-- `odd_even_aggregation`.  The vector that `sel_b` points to is only read. -/
def oddEvenAggregation [NeZero N] (kind : SVector) (keys values results : List ℕ)
    (func : AggregationFunction N ρ n d G) (reverse : Bool) (selB : Option (EVector ρ n d))
    (M : Memory ρ n d) : PartyM N d G (Memory ρ n d) :=
  asserting (values.length > 0 ∧ results.length > 0) do
    let M := copyValues kind values results M
    let sharedOne ← P.secretShareB (fun _ : Fin 1 => 1) 0
    (List.range (Nat.log 2 n)).foldlM (fun M i =>
      aggregationRound P kind keys results func reverse selB sharedOne
        (roundDistance n reverse (i + 1)) M) M

/-! ## The sizes of the rounds -/

/-- The distances are at most half of the size. -/
theorem roundDistance_le {i : ℕ} (hi : i < Nat.log 2 n) (reverse : Bool) :
    roundDistance n reverse (i + 1) ≤ n / 2 := by
  have hn : n ≠ 0 := fun h => by simp [h] at hi
  have hpow : 2 ^ i * 2 ≤ n := Nat.pow_le_of_le_log hn hi
  rw [roundDistance]
  split
  · exact (Nat.le_div_iff_mul_le two_pos).mpr hpow
  · rw [Nat.pow_succ', ← Nat.div_div_eq_div_mul]
    exact Nat.div_le_self _ _

/-- Every round has room. -/
theorem RoomForRounds.round (hroom : RoomForRounds least n) {i : ℕ} (hi : i < Nat.log 2 n)
    (reverse : Bool) : least ≤ n - roundDistance n reverse (i + 1) := by
  have hdist := roundDistance_le hi reverse
  have hn : 2 ≤ n := by
    by_contra hlt
    rw [Nat.log_of_lt (Nat.not_le.mp hlt)] at hi
    exact Nat.not_lt_zero _ hi
  rcases hroom with hone | hroom <;> omega

/-! ## Ownership -/

section Ownership

variable {P} {i : Fin N} (hP : Protocol.OwnedBy i P)
include hP

theorem ownedBy_sumAggregation (m dist : ℕ) (bits : EVector ρ m d) (results : List Column)
    (reverse : Bool) (M : Memory ρ n d) :
    OwnedBy i (sumAggregation P m dist bits results reverse M) := by
  refine Protocol.OwnedBy.foldlM (fun M c => ?_) _ _
  rw [sumColumn]
  cases reverse <;> exact (hP.multiplyA _ _).bind fun _ => .pure _

theorem ownedBy_maxAggregationWith (minAggr : Bool) (m dist : ℕ) (bits : EVector ρ m d)
    (results : List Column) (reverse : Bool) (M : Memory ρ n d) :
    OwnedBy i (maxAggregationWith P minAggr m dist bits results reverse M) := by
  refine Protocol.OwnedBy.foldlM (fun M c => ?_) _ _
  refine (hP.gt _ _).bind fun _ => (ownedBy_multiplexB hP _ _ _).bind fun _ => ?_
  cases reverse <;> exact (ownedBy_multiplexB hP _ _ _).bind fun _ => .pure _

theorem ownedBy_oddEvenAggregation [NeZero N] (kind : SVector) (keys values results : List ℕ)
    {func : AggregationFunction N ρ n d G}
    (hfunc : ∀ m dist bits cols reverse M, OwnedBy i (func m dist bits cols reverse M))
    (reverse : Bool) (selB : Option (EVector ρ n d)) (M : Memory ρ n d) :
    OwnedBy i (oddEvenAggregation P kind keys values results func reverse selB M) := by
  refine ownedBy_asserting ((hP.secretShareB _ _).bind fun _ =>
    Protocol.OwnedBy.foldlM (fun M j => ?_) _ _)
  refine Party.Owned.bind ?_ fun _ => Party.Owned.bind ?_ fun _ => Party.Owned.bind ?_ fun _ =>
    hfunc _ _ _ _ _ _
  · cases keys with
    | nil => exact .pure _
    | cons key keys =>
      exact (hP.eq _ _).bind fun _ => Protocol.OwnedBy.foldlM
        (fun _ _ => (hP.eq _ _).bind fun _ => hP.andB _ _) _ _
  · cases selB with
    | none => exact .pure _
    | some sel => exact (hP.andB _ _).bind fun _ => hP.andB _ _
  · cases kind
    exacts [hP.b2aBit _, .pure _]

end Ownership

end Tva.Operators
