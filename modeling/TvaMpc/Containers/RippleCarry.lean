import TvaMpc.Containers.BitCompress
import TvaMpc.Protocols.Program

/-!
# Containers/RippleCarry — the adder that packs one bit of every element

`ripple_carry_adder` works on columns of bits: round `i` packs the bits `i` of all elements into
words (`bitColumn`), adds them with the packed carries and puts the sums back.  `packedBit` is the
bit of one element in a column.
-/

namespace Tva

open Machinery

variable {N ρ n : ℕ} {d : DataType} {G : Type}

/-! ## Columns of bits -/

/-- A column has the size that `ripple_carry_adder` computes. -/
theorem compressedSize_at (d : DataType) (n i : ℕ) :
    compressedSize d n i 1 i 1 = divCeil n d.maxBitsNumber := by
  rw [compressedSize, bitsPerElement_at, Nat.one_mul, d.maxBitsNumber_eq]

/-- `simple_bit_compress(i, 1, i, 1)`. -/
def bitColumn (i : ℕ) (x : Vec n d) : Vec (divCeil n d.maxBitsNumber) d :=
  fun e => simpleBitCompress x i 1 i 1 (Fin.cast (compressedSize_at d n i).symm e)

/-- Round `i` of `ripple_carry_adder`: the sum so far, and the carries into bit `i`. -/
def Protocol.rippleRound (P : Protocol N ρ d G) (aXorB aAndB : EVector ρ n d)
    (sumCarry : EVector ρ n d × EVector ρ (divCeil n d.maxBitsNumber) d) (i : ℕ) :
    PartyM N d G (EVector ρ n d × EVector ρ (divCeil n d.maxBitsNumber) d) := do
  let aXorBi := fun k => bitColumn i (aXorB k)
  let aAndBi := fun k => bitColumn i (aAndB k)
  let sumI := P.xorB aXorBi sumCarry.2
  let sum := fun k => simpleBitDecompress (sumCarry.1 k) (sumI k) i 1 i 1
  if i < d.maxBitsNumber - 1 then do
    let propagated ← P.andB sumCarry.2 aXorBi
    let carry ← P.or aAndBi propagated
    return (sum, carry)
  else return (sum, sumCarry.2)

/-- `ripple_carry_adder`. -/
def Protocol.rippleCarryAdder (P : Protocol N ρ d G) (a b : EVector ρ n d) :
    PartyM N d G (EVector ρ n d) := do
  let aXorB := P.xorB a b
  let aAndB ← P.andB a b
  let carry : EVector ρ (divCeil n d.maxBitsNumber) d := fun _ => 0
  let sum : EVector ρ n d := fun _ => 0
  let res ← (List.range d.maxBitsNumber).foldlM (P.rippleRound aXorB aAndB) (sum, carry)
  return res.1

/-- Where the bits of element `j` are packed. -/
def packedPlace (d : DataType) (j : Fin n) : Fin (divCeil n d.maxBitsNumber) :=
  ⟨j / d.bits, by rw [d.maxBitsNumber_eq]; exact div_lt_divCeil d.bits_pos j.isLt⟩

/-- The bit of element `j` in a column. -/
def packedBit (c : Vec (divCeil n d.maxBitsNumber) d) (j : Fin n) : Bool :=
  (c (packedPlace d j)).getLsbD (j % d.bits)

section PackedBit

variable (c c' : Vec (divCeil n d.maxBitsNumber) d) (j : Fin n)

theorem packedBit_zero : packedBit (0 : Vec (divCeil n d.maxBitsNumber) d) j = false :=
  BitVec.getLsbD_zero

end PackedBit

/-! ## Linearity -/

namespace Protocol.OwnedBy

variable {i : Fin N} {P : Protocol N ρ d G} (hP : OwnedBy i P) (a b : EVector ρ n d)
include hP

theorem rippleRound (sumCarry : EVector ρ n d × EVector ρ (divCeil n d.maxBitsNumber) d) (t : ℕ) :
    Tva.OwnedBy i (P.rippleRound a b sumCarry t) := by
  rw [Protocol.rippleRound]
  split
  · exact (hP.andB _ _).bind fun _ => (hP.or _ _).bind fun _ => .pure _
  · exact .pure _

theorem rippleCarryAdder : Tva.OwnedBy i (P.rippleCarryAdder a b) :=
  (hP.andB _ _).bind fun _ => (foldlM (fun _ _ => hP.rippleRound _ _ _ _) _ _).bind fun _ => .pure _

end Protocol.OwnedBy

end Tva
