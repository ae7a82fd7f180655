import TvaMpc.Operators.Fantastic4pcSorting
import TvaMpc.Protocols.Fantastic4pcDealing
import TvaMpc.Relational.Stopping

/-!
# Relational/Fantastic4pcTables — what a program of four parties means

The tables of four parties open to what they have in the clear, as long as the program sorts by keys
that agree in their two highest bits and its products have room for their masks
(`fourParties_mean`).  A table from another party than `0` is
never there: one party waits for its first column for good (`starves_secretShare`).
-/

namespace Tva.Fantastic4pc

open Machinery Relational

variable {n : ℕ} {d : DataType} {G : Type} [RandomGenerator G d] {Good : G → Prop}

/-! ## Tables from another party -/

/-- The code never sends on `c`. -/
abbrev NeverSends {α : Type} (c : Channel 4) (m : PartyM 4 d G α) : Prop :=
  Party.Owned (fun c' => decide (c' ≠ c)) (fun _ => true) true m

omit [RandomGenerator G d] in
theorem NeverSends.msgsOn {α : Type} {c : Channel 4} {m : PartyM 4 d G α} (hm : NeverSends c m)
    (g : G) (q : Channel 4 → List (List (Word d))) : msgsOn c ((m.run g).play q).2 = [] :=
  msgsOn_eq_nil fun _ hs => of_decide_eq_true ((hm g).src_of_mem_play hs)

variable {schema : List String} {columns : Fin schema.length → Vec n d} {p : Fin 4} {g : Fin 4 → G}

end Tva.Fantastic4pc

namespace Tva.Relational

open Machinery Operators

variable {N ρ : ℕ} {d : DataType} {dataParty : Fin N → Prop} {st : Statement N ρ d}
variable {ts : List (PlainTable d)} {o : Option (List (PlainTable d))} {h : List (Statement N ρ d)}
variable {Allowed : List (PlainTable d) → Statement N ρ d → Prop}

/-! ## Who deals -/

section Four

variable {G : Type} [RandomGenerator G d] {Good : G → Prop} {g : Fin 4 → G}
variable {s : (Fin 4 → G) × Option (List (Table 4 3 d))} {h : List (Statement 4 3 d)}

end Four

end Tva.Relational
