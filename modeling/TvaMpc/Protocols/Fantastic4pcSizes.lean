import TvaMpc.Containers.BSharedVector
import TvaMpc.Machinery.Deadlock
import TvaMpc.Protocols.Fantastic4pcCorrect

/-!
# Protocols/Fantastic4pcSizes — products of fewer than three elements

The products draw up to three elements into a mask of the size of the vector.  On a smaller vector
that writes behind the mask, so no party gets past a product, nor past anything built on one.
-/

namespace Tva.Fantastic4pc

open Machinery

variable {n : ℕ} {d : DataType} {G : Type} [RandomGenerator G d] {mode : SendMode}
variable {x y : Fin 4 → EVector 3 n d} {v : Vec n d} {g : Fin 4 → G}

/-- The parties never get past `m`, whatever they go on with. -/
abbrev Stuck {α : Type} (mode : SendMode) (m : Fin 4 → PartyM 4 d G α) (g : Fin 4 → G) : Prop :=
  Sticks Channel.source Channel.dest mode m g

end Tva.Fantastic4pc
