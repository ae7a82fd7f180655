import TvaMpc.Protocols.Protocol

/-!
# Containers/BSharedVector — comparisons of boolean shared vectors

The comparison operators of `BSharedVector`, written against the primitives of a protocol.  A result
of theirs is meant to be one bit an element.
-/

namespace Tva.Protocol

variable {N ρ n : ℕ} {d : DataType} {G : Type} (P : Protocol N ρ d G)

/-- `bit_same`: its levels are those of the adder. -/
def bitSame (x y : EVector ρ n d) : PartyM N d G (EVector ρ n d) :=
  (adderLevels d.maxBitsNumber d.maxBitsNumber 2).foldlM (fun sameBit levelSize =>
    P.andB (fun k => bitLevelShift levelSize (sameBit k)) sameBit) (P.notB (P.xorB x y))

/-- `operator==`: if the LSB is `1`, the elements are the same. -/
def eq (x y : EVector ρ n d) : PartyM N d G (EVector ρ n d) := do
  let sameBits ← P.bitSame x y
  return fun k => mask 1 (sameBits k)

/-- `operator!=`. -/
def ne (x y : EVector ρ n d) : PartyM N d G (EVector ρ n d) := do
  let z ← P.eq x y
  return P.notB1 z

/-- What `operator>` and `compare` do for signed elements: different signs decide, otherwise the
bits `res` stay. -/
def treatSigns (x y res : EVector ρ n d) : PartyM N d G (EVector ρ n d) := do
  let sign1 := fun k => bitRightShift d.digits (x k)
  let sign2 := fun k => bitRightShift d.digits (y k)
  let diffs := P.xorB sign1 sign2
  let different ← P.andB diffs sign2
  let same ← P.andB (P.notB1 diffs) res
  return P.xorB different same

/-- `operator>`.  The vector `shifted`, whose highest digit the code sets, is not used later. -/
def gt (x y : EVector ρ n d) : PartyM N d G (EVector ρ n d) := do
  let sameBit ← P.bitSame x y
  let edge ← P.andB (fun k => bitRightShift 1 (sameBit k)) (P.notB sameBit)
  let xEdgeBit ← P.andB edge x
  P.treatSigns x y fun k => bitXor (xEdgeBit k)

/-- `operator<`. -/
def lt (x y : EVector ρ n d) : PartyM N d G (EVector ρ n d) := P.gt y x

/-- `operator>=`. -/
def ge (x y : EVector ρ n d) : PartyM N d G (EVector ρ n d) := do
  let z ← P.lt x y
  return P.notB1 z

/-- `operator<=`. -/
def le (x y : EVector ρ n d) : PartyM N d G (EVector ρ n d) := do
  let z ← P.gt x y
  return P.notB1 z

end Tva.Protocol
