import TvaMpc.Containers.BSharedVector
import TvaMpc.Containers.References
import TvaMpc.Operators.Common

/-!
# Operators/Sorting — comparing and swapping rows, and the bitonic sort

A table is given by columns.  `bitonicSort` sorts the rows in place by some boolean shared columns,
and moves the elements of the other columns along.
-/

namespace Tva.Operators

open Machinery

variable {N ρ n m : ℕ} {d : DataType} {G : Type} (P : Protocol N ρ d G)

/-- `compare`: fused elementwise equality and greater-than; the bits `eq` and `gt`. -/
def compare (x y : EVector ρ n d) : PartyM N d G (EVector ρ n d × EVector ρ n d) := do
  let sameBit ← P.bitSame x y
  let shifted := fun k =>
    setBits ((1 : Word d) <<< (d.digits - 1)) (bitRightShift 1 (sameBit k))
  let xEdgeBitEq ← P.andB shifted (P.notB sameBit)
  let xEdgeBitGt ← P.andB xEdgeBitEq x
  let eqBits := P.notB1 fun k => bitXor (xEdgeBitEq k)
  let gtBits ← P.treatSigns x y fun k => bitXor (xEdgeBitGt k)
  return (eqBits, gtBits)

/-- The comparison on one key, where `inverse` makes left and right change places. -/
def compareKey (x y : EVector ρ n d) (inverse : Bool) :
    PartyM N d G (EVector ρ n d × EVector ρ n d) :=
  if inverse then compare P y x else compare P x y

/-- `compare_rows`, of at least one column. -/
def compareRows (x y : List (EVector ρ n d)) (inverse : List Bool) :
    PartyM N d G (EVector ρ n d) :=
  match x.zip (y.zip inverse) with
  | [] => return fun _ _ => 0
  | key :: keys => do
      let first ← compareKey P key.1 key.2.1 key.2.2
      let res ← keys.foldlM (fun eqGt key => do
        let new ← compareKey P key.1 key.2.1 key.2.2
        let z ← P.andB new.2 eqGt.1
        let gt := P.xorB eqGt.2 z
        let eq ← P.andB eqGt.1 new.1
        return (eq, gt)) first
      return res.2

/-- The rounds of `swap` on boolean columns: choose both new elements before either is written. -/
def swapColumnB (b : EVector ρ m d) (x y : Reference) (M : Memory ρ n d) :
    PartyM N d G (Memory ρ n d) := do
  let l ← P.andB b (M.read m y)
  let r ← P.andB (P.notB b) (M.read m x)
  let tmp := P.xorB l r
  let l ← P.andB b (M.read m x)
  let r ← P.andB (P.notB b) (M.read m y)
  return (M.write y (P.xorB l r)).write x tmp

/-- `swap` of boolean columns. -/
def swapB (x y : List Reference) (bits : EVector ρ m d) (M : Memory ρ n d) :
    PartyM N d G (Memory ρ n d) :=
  let b := fun k => extendLsb (bits k)
  (x.zip y).foldlM (fun M r => swapColumnB P b r.1 r.2 M) M

/-- The rounds of `swap` on arithmetic columns. -/
def swapColumnA (bits : EVector ρ m d) (x y : Reference) (M : Memory ρ n d) :
    PartyM N d G (Memory ρ n d) := do
  let tmp ← multiplexA P bits (M.read m x) (M.read m y)
  let new ← multiplexA P bits (M.read m y) (M.read m x)
  return (M.write y new).write x tmp

/-- `swap` of arithmetic columns. -/
def swapA (x y : List Reference) (bits : EVector ρ m d) (M : Memory ρ n d) :
    PartyM N d G (Memory ρ n d) :=
  (x.zip y).foldlM (fun M r => swapColumnA P bits r.1 r.2 M) M

/-- The left rows of a column within a round. -/
def leftRows (n : ℕ) (halfBoxSize : ℤ) : VectorData :=
  (VectorData.vectorData n).alternatingSubsetReference halfBoxSize halfBoxSize

/-- The right rows; in the first column of a round their boxes are reversed. -/
def rightRows (n : ℕ) (halfBoxSize boxDirection2 : ℤ) : VectorData :=
  let rest := (VectorData.vectorData n).simpleSubsetReferenceFrom halfBoxSize 1
  if boxDirection2 = -1 then rest.reversedAlternatingSubsetReference halfBoxSize halfBoxSize
  else rest.alternatingSubsetReference halfBoxSize halfBoxSize

/-- Swap the rows of the boolean data columns, if there are any. -/
def swapDataB (left right : VectorData) (dataB : List ℕ) (bits : EVector ρ m d)
    (M : Memory ρ n d) : PartyM N d G (Memory ρ n d) :=
  if dataB.length > 0 then
    swapB P (dataB.map fun c => ⟨.b c, left⟩) (dataB.map fun c => ⟨.b c, right⟩) bits M
  else return M

/-- Swap the rows of the arithmetic data columns, if there are any; the bits are converted first. -/
def swapDataA (left right : VectorData) (dataA : List ℕ) (bits : EVector ρ m d)
    (M : Memory ρ n d) : PartyM N d G (Memory ρ n d) :=
  if dataA.length > 0 then do
    let bitsA ← P.b2aBit bits
    swapA P (dataA.map fun c => ⟨.a c, left⟩) (dataA.map fun c => ⟨.a c, right⟩) bitsA M
  else return M

/-- The body of `bitonic_sort`: compare the `m` left rows with the right rows on the keys, and swap
them in all columns by the comparison bits. -/
def exchangeRows (m : ℕ) (left right : VectorData) (columns dataA dataB : List ℕ)
    (desc : List Bool) (M : Memory ρ n d) : PartyM N d G (Memory ρ n d) := do
  let x : List Reference := columns.map fun c => ⟨.b c, left⟩
  let y : List Reference := columns.map fun c => ⟨.b c, right⟩
  let bits ← compareRows P (x.map (M.read m)) (y.map (M.read m)) desc
  let M ← swapB P x y bits M
  let M ← swapDataB P left right dataB bits M
  swapDataA P left right dataA bits M

/-- Column `j` of round `i` of `bitonic_sort`. -/
def bitonicColumn (columns dataA dataB : List ℕ) (desc : List Bool) (i j : ℕ)
    (M : Memory ρ n d) : PartyM N d G (Memory ρ n d) :=
  let halfBoxSize : ℤ := ((1 <<< (i - j) : ℕ) : ℤ)
  let boxDirection2 : ℤ := if j = 0 then -1 else 1
  let left := leftRows n halfBoxSize
  exchangeRows P left.size.toNat left (rightRows n halfBoxSize boxDirection2) columns dataA dataB
    desc M

/-- `bitonic_sort`: `columns` are the keys, `desc` their directions. -/
def bitonicSort (columns dataA dataB : List ℕ) (desc : List Bool) (M : Memory ρ n d) :
    PartyM N d G (Memory ρ n d) :=
  (List.range (Nat.log 2 n)).foldlM (fun M i =>
    (List.range (i + 1)).foldlM (fun M j => bitonicColumn P columns dataA dataB desc i j M) M) M

/-! ## Ownership -/

section Ownership

variable {P} {i : Fin N} (hP : Protocol.OwnedBy i P)
include hP

theorem ownedBy_compare (x y : EVector ρ n d) : OwnedBy i (compare P x y) :=
  (hP.bitSame x y).bind fun _ => (hP.andB _ _).bind fun _ => (hP.andB _ _).bind fun _ =>
    (hP.treatSigns _ _ _).bind fun _ => .pure _

theorem ownedBy_compareKey (x y : EVector ρ n d) (inverse : Bool) :
    OwnedBy i (compareKey P x y inverse) := by
  cases inverse
  exacts [ownedBy_compare hP x y, ownedBy_compare hP y x]

theorem ownedBy_compareRows (x y : List (EVector ρ n d)) (inverse : List Bool) :
    OwnedBy i (compareRows P x y inverse) := by
  rw [compareRows]
  split
  · exact .pure _
  · refine (ownedBy_compareKey hP _ _ _).bind fun _ => ?_
    refine (Protocol.OwnedBy.foldlM (fun _ _ => ?_) _ _).bind fun _ => .pure _
    exact (ownedBy_compareKey hP _ _ _).bind fun _ => (hP.andB _ _).bind fun _ =>
      (hP.andB _ _).bind fun _ => .pure _

theorem ownedBy_swapB (x y : List Reference) (bits : EVector ρ m d) (M : Memory ρ n d) :
    OwnedBy i (swapB P x y bits M) :=
  Protocol.OwnedBy.foldlM (fun _ _ => (hP.andB _ _).bind fun _ => (hP.andB _ _).bind fun _ =>
    (hP.andB _ _).bind fun _ => (hP.andB _ _).bind fun _ => .pure _) _ _

theorem ownedBy_swapA (x y : List Reference) (bits : EVector ρ m d) (M : Memory ρ n d) :
    OwnedBy i (swapA P x y bits M) :=
  Protocol.OwnedBy.foldlM (fun _ _ => (ownedBy_multiplexA hP _ _ _).bind fun _ =>
    (ownedBy_multiplexA hP _ _ _).bind fun _ => .pure _) _ _

theorem ownedBy_exchangeRows (m : ℕ) (left right : VectorData) (columns dataA dataB : List ℕ)
    (desc : List Bool) (M : Memory ρ n d) :
    OwnedBy i (exchangeRows P m left right columns dataA dataB desc M) := by
  refine (ownedBy_compareRows hP _ _ _).bind fun _ => (ownedBy_swapB hP _ _ _ _).bind fun _ => ?_
  have hdataB : ∀ (bits : EVector ρ m d) (M : Memory ρ n d),
      OwnedBy i (swapDataB P left right dataB bits M) := fun bits M => by
    rw [swapDataB]
    split
    exacts [ownedBy_swapB hP _ _ _ _, .pure _]
  refine (hdataB _ _).bind fun _ => ?_
  rw [swapDataA]
  split
  · exact (hP.b2aBit _).bind fun _ => ownedBy_swapA hP _ _ _ _
  · exact .pure _

theorem ownedBy_bitonicSort (columns dataA dataB : List ℕ) (desc : List Bool)
    (M : Memory ρ n d) : OwnedBy i (bitonicSort P columns dataA dataB desc M) :=
  Protocol.OwnedBy.foldlM (fun _ _ => Protocol.OwnedBy.foldlM
    (fun _ _ => ownedBy_exchangeRows hP _ _ _ _ _ _ _ _) _ _) _ _

end Ownership

end Tva.Operators
