import TvaMpc.Protocols.Replicated3pcBits
import TvaMpc.Protocols.Replicated3pcStreams
import TvaMpc.Protocols.Replicates

/-!
# Protocols/Replicated3pcSeeds — three parties with the generators of the runtime

`tva_init` gives every generator equal seeds.  The two that a channel is served from take the same
steps, so all masks are zero, and a division, which moves the generators of two parties only, does
not change that.
-/

namespace Tva.Replicated3pc

open Machinery PseudoRandomGenerator

variable {S : Type} {nrand48 : S → BitVec 64 × S} {n : ℕ} {d : DataType} {mode : SendMode}

/-- The two seeds that a party's channels are served from are equal. -/
def SeedsAgree (g : Fin 3 → PseudoRandomGenerator nrand48) : Prop :=
  ∀ i, (g i).seeds 1 = (g i).seeds 2

theorem seedsAgree_afterNext {g : PseudoRandomGenerator nrand48} (hg : g.seeds 1 = g.seeds 2)
    (id n : ℕ) : (afterNext d id n g).seeds 1 = (afterNext d id n g).seeds 2 := by
  have hstate : afterNext d id n g = (afterDraw (draw d id))^[n] g := fillNums_state _ _ _ _
  rw [hstate, seeds_afterDraw]
  exact congrArg (nextSeed nrand48)^[n] hg

theorem seedsAgree_afterRandom {g : PseudoRandomGenerator nrand48} (hg : g.seeds 1 = g.seeds 2)
    (n : ℕ) : (afterRandom d n g).seeds 1 = (afterRandom d n g).seeds 2 := by
  have hstate : afterRandom d n g = (afterDraw (drawRandom d))^[n] g := fillNums_state _ _ _ _
  rw [hstate, (seeds_afterDrawRandom n).1, (seeds_afterDrawRandom n).2]
  exact hg

/-- Equal seeds yield no mask on any channel but that of the products. -/
theorem mask_eq_zero {g : PseudoRandomGenerator nrand48} (hg : g.seeds 1 = g.seeds 2) {id : ℕ}
    (hid : id ≠ 2) (n : ℕ) : mask d id n g = 0 := funext fun j => by
  rw [mask_of_ne_two hid, hg, BitVec.xor_self]
  rfl

/-- **Equal seeds yield no masks**, now and later. -/
theorem zeroMasks_seedsAgree :
    ZeroMasks d fun g : Fin 3 → PseudoRandomGenerator nrand48 => SeedsAgree g where
  masksA {g} hg n := by
    ext j
    have hmask : ∀ i, mask d 2 n (g i) j = 0 := fun i => by rw [mask_two, hg i, sub_self]
    rw [Finset.sum_apply, Finset.sum_eq_zero fun i _ => hmask i]
    rfl
  masksB {g} hg n := by
    have hmask : ∀ i, mask d 5 n (g i) = 0 := fun i => mask_eq_zero (hg i) (by decide) n
    rw [hmask, hmask, hmask]
    exact funext fun j => by simp
  afterA hg n i := seedsAgree_afterNext (hg i) 2 n
  afterB hg n i := seedsAgree_afterNext (hg i) 5 n
  afterDeal {g} hg n p i := by
    rw [afterDeal]
    by_cases hi : i = p
    · subst hi
      rw [Function.update_self]
      exact seedsAgree_afterRandom (seedsAgree_afterRandom (hg i) n) n
    · rw [Function.update_of_ne hi]
      exact hg i
  zeroB {g} hg n i := mask_eq_zero (hg i) (by decide) n

theorem seedsAgree_afterDiv {g : Fin 3 → PseudoRandomGenerator nrand48} (hg : SeedsAgree g)
    (n : ℕ) : SeedsAgree fun i => afterDiv d n i (g i) := by
  intro i
  fin_cases i
  exacts [seedsAgree_afterNext (seedsAgree_afterNext (hg 0) 4 n) 4 n, hg 1,
    seedsAgree_afterNext (seedsAgree_afterNext (hg 2) 3 n) 3 n]

/-- The masks of a division are zero, too. -/
theorem divisionMasks_seedsAgree :
    DivisionMasks d fun g : Fin 3 → PseudoRandomGenerator nrand48 => SeedsAgree g where
  toZeroSharing := zeroMasks_seedsAgree.toZeroSharing
  quotient hg n :=
    (mask_eq_zero (hg 0) (by decide) n).trans (mask_eq_zero (hg 2) (by decide) n).symm
  error hg n := (mask_eq_zero (seedsAgree_afterNext (hg 0) 4 n) (by decide) n).trans
    (mask_eq_zero (seedsAgree_afterNext (hg 2) 3 n) (by decide) n).symm
  afterDiv hg n := seedsAgree_afterDiv hg n

/-- The parties that the runtime sets up. -/
abbrev parties (d : DataType) {S : Type} (nrand48 : S → BitVec 64 × S) (i : Fin 3) :
    Protocol 3 2 d (PseudoRandomGenerator nrand48) := protocol d _ i

/-- **They meet the contract with bits.** -/
theorem correctBits_seedsAgree :
    Protocol.CorrectBits (parties d nrand48) layout 0 (fun _ => True) SeedsAgree mode :=
  correctBits zeroMasks_seedsAgree

/-- They divide as the contract says. -/
theorem divides_seedsAgree :
    Protocol.Divides (parties d nrand48) layout SeedsAgree mode :=
  divides divisionMasks_seedsAgree

/-- They keep the copies equal, and with them the seeds. -/
theorem replicates_seedsAgree :
    Protocol.Replicates (parties d nrand48) layout 0 (fun _ => True) SeedsAgree mode := by
  refine (correct zeroMasks_seedsAgree.toZeroSharing).replicates (fun hx => ?_) fun {n x} _ c => ?_
  · exact replicated_of fun i => congrArg logicalNot (hx i 1)
  · by_cases hdivides : ∀ i, Divides i (x i) c
    · refine .inl fun g hg => ?_
      obtain ⟨h, hy⟩ := yields_divConstA mode g hdivides
      exact .of_yields hy ⟨⟨replicated_turn _, replicated_turn _⟩, seedsAgree_afterDiv hg _⟩
    · exact .inr (trapped_divConstA hdivides)

end Tva.Replicated3pc
